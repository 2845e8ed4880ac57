import LogLake.Lib.AssocList

/-!
# Files moved by renames

Files lie in directories under names.
-/

namespace Renames

open List

variable {δ ν α : Type*} [DecidableEq δ] [DecidableEq ν]

/-- The files of a file system, each with its content. -/
abbrev Files (δ ν α : Type*) := List ((δ × ν) × α)

namespace Files

variable (files : Files δ ν α)

/-- A file comes in from elsewhere; beside it, what it has replaced. -/
def install (target : δ × ν) (content : α) : Files δ ν α × Option α :=
  ((target, content) :: files.filter (fun e => e.1 ≠ target), files.lookup target)

/-- `rename`, none when there is no such file; beside the files, what was replaced. -/
def rename (source target : δ × ν) : Option (Files δ ν α × Option α) :=
  (files.lookup source).map fun content => install (files.filter fun e => e.1 ≠ source) target content

/-- `unlink`, and what was removed. -/
def unlink (path : δ × ν) : Files δ ν α × Option α :=
  (files.filter (fun e => e.1 ≠ path), files.lookup path)

/-- Every name is in one directory only. -/
def OncePerName : Prop := (files.map fun e => e.1.2).Nodup

variable {files files' : Files δ ν α} {d d' : δ} {n : ν} {content : α} {lost : Option α}

omit [DecidableEq δ] [DecidableEq ν] in
/-- Two files of one name are one. -/
theorem OncePerName.unique (h : files.OncePerName) {e e' : (δ × ν) × α} (he : e ∈ files) (he' : e' ∈ files)
    (hname : e.1.2 = e'.1.2) : e = e' := inj_on_of_nodup_map h he he' hname

omit [DecidableEq δ] [DecidableEq ν] in
/-- Some of the files are still once per name. -/
theorem OncePerName.filter (h : files.OncePerName) (p : (δ × ν) × α → Bool) : OncePerName (files.filter p) :=
  h.sublist (filter_sublist.map _)

/-- A path without a file finds nothing. -/
theorem lookup_eq_none {path : δ × ν} (h : ∀ content, (path, content) ∉ files) : files.lookup path = none := by
  refine AssocList.lookup_eq_none_of_not_mem fun hmem => ?_
  obtain ⟨e, he, rfl⟩ := mem_map.mp hmem
  exact h e.2 he

/-- A file of a new name overwrites nothing. -/
theorem install_of_fresh (h : files.OncePerName) (hfresh : ∀ e ∈ files, e.1.2 ≠ n) (d : δ) (content : α) :
    (files.install (d, n) content).2 = none ∧ (files.install (d, n) content).1.OncePerName ∧
      ∀ e, e ∈ (files.install (d, n) content).1 ↔ e = ((d, n), content) ∨ e ∈ files := by
  have hkept : (files.filter fun e => e.1 ≠ (d, n)) = files :=
    filter_eq_self.mpr fun e he => decide_eq_true fun hpath => hfresh e he (congrArg Prod.snd hpath)
  rw [install, hkept]
  refine ⟨lookup_eq_none fun content hmem => hfresh _ hmem rfl, nodup_cons.mpr ⟨?_, h⟩, fun e => mem_cons⟩
  rintro hmem
  obtain ⟨e, he, hname⟩ := mem_map.mp hmem
  exact hfresh e he hname

/-- A rename moves one file and overwrites nothing. -/
theorem rename_of_once (h : files.OncePerName) (hrename : files.rename (d, n) (d', n) = some (files', lost)) :
    ∃ content, ((d, n), content) ∈ files ∧ lost = none ∧ files'.OncePerName ∧
      ∀ e, e ∈ files' ↔ e = ((d', n), content) ∨ (e ∈ files ∧ e.1.2 ≠ n) := by
  obtain ⟨content, hlookup, hinstall⟩ := Option.map_eq_some_iff.mp hrename
  have hmem := AssocList.lookup_mem hlookup
  have hrest : ∀ e, e ∈ files.filter (fun e => e.1 ≠ (d, n)) ↔ e ∈ files ∧ e.1.2 ≠ n := by
    intro e
    rw [mem_filter, decide_eq_true_eq]
    constructor
    · rintro ⟨he, hpath⟩
      exact ⟨he, fun hname => hpath (congrArg Prod.fst (h.unique he hmem hname))⟩
    · rintro ⟨he, hname⟩
      exact ⟨he, fun hpath => hname (congrArg Prod.snd hpath)⟩
  obtain ⟨hlost, honce, hfiles⟩ := install_of_fresh (h.filter _) (fun e he => ((hrest e).mp he).2) d' content
  rw [hinstall] at hlost honce hfiles
  refine ⟨content, hmem, hlost, honce, fun e => ?_⟩
  rw [hfiles, hrest]

/-- A file that is in another directory is not removed. -/
theorem unlink_of_elsewhere (h : files.OncePerName) (hmem : ((d, n), content) ∈ files) (hne : d' ≠ d) :
    files.unlink (d', n) = (files, none) := by
  have habsent : ∀ other, ((d', n), other) ∉ files := by
    intro other hother
    exact hne (congrArg (fun e => e.1.1) (h.unique hother hmem rfl))
  have hkept : (files.filter fun e => e.1 ≠ (d', n)) = files := by
    refine filter_eq_self.mpr fun e he => decide_eq_true ?_
    obtain ⟨path, other⟩ := e
    rintro rfl
    exact habsent other he
  rw [unlink, hkept, lookup_eq_none habsent]

end Files

end Renames
