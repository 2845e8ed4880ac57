import LogLake.Lib.Partition
import LogLake.ScanTasks

/-!
# Tiling of a scan

The shards of a distributed query tile the tasks of a scan, and the partitions of a shard tile its own.
-/

namespace LogLake.ScanTasks

open List

section

variable (task : FileScanTask) {partitions : List Partition} (h : partitions ≠ [])

include h

theorem place_ne_nil : place partitions task ≠ [] := by
  intro hnil
  have hlength := congrArg List.length hnil
  rw [place, length_modify] at hlength
  exact h (length_eq_zero_iff.mp hlength)

theorem place_perm :
    ((place partitions task).flatMap Partition.tasks).Perm (partitions.flatMap Partition.tasks ++ [task]) := by
  unfold place
  dsimp only
  generalize hw : partitions.map Partition.weight = weights
  have hidx : weights.idxOf (weights.min?.getD 0) < partitions.length := by
    have hne : weights ≠ [] := by rw [← hw]; simpa using h
    obtain ⟨m, hm⟩ := Option.isSome_iff_exists.mp (isSome_min?_of_ne_nil hne)
    rw [hm, ← length_map Partition.weight, hw]
    exact idxOf_lt_length_of_mem (min?_mem hm)
  obtain ⟨before, p, after, heq, -, hmodify⟩ :=
    exists_of_modify (fun p => Partition.mk ((p.weight + task.weight) % 2 ^ 64) (p.tasks ++ [task])) hidx
  rw [hmodify, heq]
  simp only [flatMap_append, flatMap_cons, append_assoc]
  exact (perm_append_comm.append_left _).append_left _

theorem foldl_place_perm (tasks : List FileScanTask) :
    ((tasks.foldl place partitions).flatMap Partition.tasks).Perm (partitions.flatMap Partition.tasks ++ tasks) := by
  induction tasks generalizing partitions with
  | nil => rw [append_nil, foldl_nil]
  | cons task tasks ih =>
    have hrest := ih (place_ne_nil task h)
    have htask := (place_perm task h).append_right tasks
    rw [append_assoc, singleton_append] at htask
    exact hrest.trans htask

end

theorem partitionFileTasks_perm (tasks : List FileScanTask) (limit : Option Nat) (targetPartitions : Nat)
    (tuning : QueryScanTuning) : (partitionFileTasks tasks limit targetPartitions tuning).flatten.Perm tasks := by
  unfold partitionFileTasks
  split
  · next hempty => rw [hempty]; rfl
  · split
    · rw [flatten_singleton]
    · dsimp only
      rw [← flatMap_def]
      refine (foldl_place_perm ?_ _).trans ?_
      · rw [ne_eq, replicate_eq_nil_iff]
        omega
      · rw [flatMap_eq_nil_iff.mpr fun p hp => by rw [eq_of_mem_replicate hp], nil_append]
        exact perm_insertionSort _ _

/-- Every task is in one shard, with all the tasks of its file, and in one partition of that shard. -/
theorem shards_tile_tasks (tasks : List FileScanTask) (n : Nat) (hn : 1 ≤ n) :
    ((range n).flatMap fun i => shardFileTasks tasks ⟨i, n⟩).Perm tasks ∧
      (∀ i j, i ≠ j → Disjoint (shardFileTasks tasks ⟨i, n⟩) (shardFileTasks tasks ⟨j, n⟩)) ∧
      (∀ path, ∃ i < n, ∀ t ∈ tasks, t.dataFilePath = path → t ∈ shardFileTasks tasks ⟨i, n⟩) ∧
      ∀ shard limit targetPartitions tuning,
        (partitionFileTasks (shardFileTasks tasks shard) limit targetPartitions tuning).flatten.Perm
          (shardFileTasks tasks shard) := by
  have hone : ∀ t : FileScanTask, ((range n).countP fun i => ScanShard.owns ⟨i, n⟩ t.dataFilePath) = if true then 1 else 0 := by
    intro t
    have hlt := Nat.mod_lt (stablePathHash t.dataFilePath).toNat hn
    have hcount := count_eq_one_of_mem nodup_range (mem_range.mpr hlt)
    rw [if_pos rfl, ← hcount, count]
    refine countP_congr fun i _ => ?_
    rw [ScanShard.owns, decide_eq_true_eq, beq_iff_eq, eq_comm]
  refine ⟨?_, ?_, ?_, fun shard => partitionFileTasks_perm _⟩
  · have hperm := perm_flatMap_filter (q := fun _ => true) tasks hone
    rwa [filter_true] at hperm
  · intro i j hij t hi hj
    have hi := of_decide_eq_true (mem_filter.mp hi).2
    have hj := of_decide_eq_true (mem_filter.mp hj).2
    exact hij (hi.symm.trans hj)
  · intro path
    refine ⟨(stablePathHash path).toNat % n, Nat.mod_lt _ hn, ?_⟩
    rintro t ht rfl
    exact mem_filter.mpr ⟨ht, decide_eq_true rfl⟩

/-- Two files over two shards. -/
theorem two_files_tiled :
    ((range 2).flatMap fun i => shardFileTasks [⟨['a'], 0, 10, none⟩, ⟨['b'], 0, 10, none⟩] ⟨i, 2⟩).Perm
      [⟨['a'], 0, 10, none⟩, ⟨['b'], 0, 10, none⟩] :=
  (shards_tile_tasks _ 2 (by decide)).1

end LogLake.ScanTasks
