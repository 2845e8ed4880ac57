import LogLake.Text

/-!
# Scan tasks

The files that a scan reads, over the shards of a distributed query and over the partitions of one scan.
-/

namespace LogLake.ScanTasks

open List

structure FileScanTask where
  dataFilePath : Text
  start : Nat
  length : Nat
  recordCount : Option Nat
  deriving DecidableEq

def FileScanTask.weight (t : FileScanTask) : Nat := t.recordCount.getD t.length

structure ScanShard where
  index : Nat
  count : Nat

/-- `stable_path_hash`: FNV-1a. -/
def stablePathHash (path : Text) : UInt64 :=
  (asBytes path).foldl (fun h b => (h ^^^ b.toUInt64) * 0x100000001b3) 0xcbf29ce484222325

def ScanShard.owns (shard : ScanShard) (path : Text) : Bool := (stablePathHash path).toNat % shard.count = shard.index

def shardFileTasks (tasks : List FileScanTask) (shard : ScanShard) : List FileScanTask :=
  tasks.filter fun t => shard.owns t.dataFilePath

/-- What `QueryScanTuning` says of the number of partitions. -/
structure QueryScanTuning where
  adaptivePartitionMinBytes : Option Nat
  adaptivePartitionMinFiles : Option Nat

/-- A planned amount in units of a threshold, rounded up; none for a threshold of 0. -/
def unitsOf (planned threshold : Nat) : Option Nat := if 0 < threshold then some (planned ⌈/⌉ threshold) else none

def adaptivePartitionCount (tasks : List FileScanTask) (targetPartitions : Nat) (tuning : QueryScanTuning) : Nat :=
  let maxPartitions := max targetPartitions 1
  let plannedBytes := (tasks.map FileScanTask.length).sum % 2 ^ 64
  let bytesTarget := tuning.adaptivePartitionMinBytes.bind (unitsOf plannedBytes)
  let filesTarget := tuning.adaptivePartitionMinFiles.bind (unitsOf tasks.length)
  let adaptive := match bytesTarget, filesTarget with
    | some bytesTarget, some filesTarget => max bytesTarget filesTarget
    | some bytesTarget, none => bytesTarget
    | none, some filesTarget => filesTarget
    | none, none => maxPartitions
  max 1 (min adaptive maxPartitions)

/-- A partition that is being filled. -/
structure Partition where
  weight : Nat
  tasks : List FileScanTask

/-- One turn of the loop: the task goes to the first of the lightest partitions. -/
def place (partitions : List Partition) (task : FileScanTask) : List Partition :=
  let weights := partitions.map Partition.weight
  let idx := weights.idxOf (weights.min?.getD 0)
  partitions.modify idx fun p => ⟨(p.weight + task.weight) % 2 ^ 64, p.tasks ++ [task]⟩

def partitionFileTasks (tasks : List FileScanTask) (limit : Option Nat) (targetPartitions : Nat) (tuning : QueryScanTuning) :
    List (List FileScanTask) :=
  if tasks = [] then [[]]
  else if limit.isSome then [tasks]
  else
    let tasks := tasks.insertionSort fun a b => b.weight ≤ a.weight
    let partitionCount := max (min (adaptivePartitionCount tasks targetPartitions tuning) tasks.length) 1
    (tasks.foldl place (replicate partitionCount ⟨0, []⟩)).map Partition.tasks

end LogLake.ScanTasks
