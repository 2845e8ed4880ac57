import LogLake.Wal.Writer

/-! # What the writer's operations do to the segments -/

namespace LogLake.Ingest

open List Option

variable {ρ : Type}

def Wal.Open (w : Wal ρ) (row : ρ) : Prop := ∃ seg, w.active = some seg ∧ row ∈ seg.rows

structure Segment.Grows (a b : Segment ρ) : Prop where
  rows : a.rows ⊆ b.rows
  durable : a.durable ⊆ b.durable
  inIceberg : a.inIceberg = true → b.inIceberg = true

theorem Segment.Grows.refl (a : Segment ρ) : a.Grows a :=
  ⟨fun _ h => h, fun _ h => h, id⟩

theorem Segment.Grows.trans {a b c : Segment ρ} (hab : a.Grows b) (hbc : b.Grows c) : a.Grows c :=
  ⟨fun _ h => hbc.rows (hab.rows h), fun _ h => hbc.durable (hab.durable h), fun h => hbc.inIceberg (hab.inIceberg h)⟩

def Wal.Grows (w w' : Wal ρ) : Prop :=
  ∀ (i : Nat) (seg : Segment ρ), w.segments[i]? = some seg → ∃ seg', w'.segments[i]? = some seg' ∧ seg.Grows seg'

/-- The active segment exists, and what is in `committed/` is in the table. -/
structure Wal.WellFormed (w : Wal ρ) : Prop where
  active : ∀ i, w.current = some i → ∃ seg, w.segments[i]? = some seg ∧ seg.place = .active
  committed : ∀ (i : Nat) (seg : Segment ρ), w.segments[i]? = some seg → seg.place = .committed → seg.inIceberg = true

/-- What every operation of the writer does: segments grow, and those that are not active stay as they are. -/
structure Wal.Extends (w w' : Wal ρ) : Prop where
  grows : w.Grows w'
  stays : ∀ (i : Nat) (seg : Segment ρ), w.segments[i]? = some seg → seg.place ≠ .active → w'.segments[i]? = some seg
  wellFormed : w'.WellFormed

variable {w : Wal ρ} {row : ρ}

theorem Wal.Grows.durable {w' : Wal ρ} (h : w.Grows w') (hrow : w.Durable row) : w'.Durable row := by
  obtain ⟨seg, hseg, hmem⟩ := hrow
  obtain ⟨i, hi⟩ := List.getElem?_of_mem hseg
  obtain ⟨seg', hi', hgrow⟩ := h i seg hi
  exact ⟨seg', mem_of_getElem? hi', hgrow.durable hmem⟩

theorem Wal.Grows.trans {w₁ w₂ w₃ : Wal ρ} (h₁ : w₁.Grows w₂) (h₂ : w₂.Grows w₃) : w₁.Grows w₃ := by
  intro i seg hi
  obtain ⟨seg₂, hi₂, hgrow₂⟩ := h₁ i seg hi
  obtain ⟨seg₃, hi₃, hgrow₃⟩ := h₂ i seg₂ hi₂
  exact ⟨seg₃, hi₃, hgrow₂.trans hgrow₃⟩

theorem Wal.Extends.refl (h : w.WellFormed) : w.Extends w :=
  ⟨fun _ seg hi => ⟨seg, hi, .refl seg⟩, fun _ _ hi _ => hi, h⟩

theorem Wal.Extends.trans {w₁ w₂ w₃ : Wal ρ} (h₁ : w₁.Extends w₂) (h₂ : w₂.Extends w₃) : w₁.Extends w₃ :=
  ⟨h₁.grows.trans h₂.grows, fun i seg hi hplace => h₂.stays i seg (h₁.stays i seg hi hplace) hplace, h₂.wellFormed⟩

theorem Wal.wellFormed_empty : (Wal.empty : Wal ρ).WellFormed :=
  ⟨fun _ h => (nomatch h), fun _ _ h => (nomatch h)⟩

theorem Wal.segments_update (w : Wal ρ) (i j : Nat) (f : Segment ρ → Segment ρ) :
    (w.update i f).segments[j]? = (w.segments[j]?).map fun seg => if i = j then f seg else seg := by
  simp [Wal.update, List.getElem?_modify]

variable {i : Nat} {f : Segment ρ → Segment ρ}

theorem Wal.grows_update (hf : ∀ seg : Segment ρ, seg.Grows (f seg)) : w.Grows (w.update i f) := by
  intro j seg hj
  rw [Wal.segments_update, hj]
  by_cases hij : i = j
  · exact ⟨f seg, by simp [hij], hf seg⟩
  · exact ⟨seg, by simp [hij], .refl seg⟩

/-! ## The active segment -/

theorem Wal.active_eq (hcur : w.current = some i) : w.active = w.segments[i]? := by
  rw [Wal.active, hcur]
  rfl

section

variable (h : w.WellFormed)
include h

theorem Wal.extends_of_modify {w' : Wal ρ}
    (hcur : w.current = some i) (hsegs : w'.segments = w.segments.modify i f) (hf : ∀ seg : Segment ρ, seg.Grows (f seg))
    (hplace : ∀ seg : Segment ρ, (f seg).place = .committed → seg.place = .committed)
    (hcurrent : w'.current = none ∨ (w'.current = some i ∧ ∀ seg : Segment ρ, (f seg).place = seg.place)) :
    w.Extends w' := by
  obtain ⟨active, hactive, hactivePlace⟩ := h.active i hcur
  have hget : ∀ j : Nat, w'.segments[j]? = (w.update i f).segments[j]? := fun j => by rw [hsegs]; rfl
  refine ⟨?_, ?_, ?_, ?_⟩
  · intro j seg hj
    rw [hget]
    exact Wal.grows_update hf j seg hj
  · intro j seg hj hne
    have hij : i ≠ j := by
      rintro rfl
      rw [hactive, some.injEq] at hj
      exact hne (hj ▸ hactivePlace)
    rw [hget, Wal.segments_update, hj]
    simp [hij]
  · intro j hj
    rcases hcurrent with h' | ⟨h', hkeep⟩
    · exact (nomatch h'.symm.trans hj)
    · obtain rfl : i = j := some.inj (h'.symm.trans hj)
      refine ⟨f active, ?_, (hkeep active).trans hactivePlace⟩
      rw [hget, Wal.segments_update, hactive]
      simp
  · intro j seg hj hcommitted
    rw [hget, Wal.segments_update, map_eq_some_iff] at hj
    obtain ⟨seg₀, hj₀, rfl⟩ := hj
    by_cases hij : i = j
    · subst hij
      rw [if_pos rfl] at hcommitted ⊢
      exact (hf seg₀).inIceberg (h.committed i seg₀ hj₀ (hplace seg₀ hcommitted))
    · rw [if_neg hij] at hcommitted ⊢
      exact h.committed j seg₀ hj₀ hcommitted

theorem Wal.extends_updateActive
    (hf : ∀ seg : Segment ρ, seg.Grows (f seg)) (hplace : ∀ seg : Segment ρ, (f seg).place = seg.place) :
    w.Extends (w.updateActive f) := by
  rcases hcur : w.current with _ | i
  · rw [show w.updateActive f = w by simp [Wal.updateActive, hcur]]
    exact .refl h
  · rw [show w.updateActive f = w.update i f by simp [Wal.updateActive, hcur]]
    refine Wal.extends_of_modify h hcur rfl hf ?_ (.inr ⟨hcur, hplace⟩)
    intro seg hcommitted
    exact (hplace seg).symm.trans hcommitted

theorem Wal.extends_closeActive (hf : ∀ seg : Segment ρ, seg.Grows (f seg))
    (hplace : ∀ seg : Segment ρ, (f seg).place = .committed → seg.place = .committed) :
    w.Extends { w.updateActive f with current := none } := by
  rcases hcur : w.current with _ | i
  · rw [show w.updateActive f = w by simp [Wal.updateActive, hcur]]
    exact ⟨fun _ seg hi => ⟨seg, hi, .refl seg⟩, fun _ _ hi _ => hi, fun _ h' => (nomatch h'), h.committed⟩
  · rw [show w.updateActive f = w.update i f by simp [Wal.updateActive, hcur]]
    exact Wal.extends_of_modify h hcur rfl hf hplace (.inl rfl)

theorem Wal.extends_startSegment : w.Extends w.startSegment := by
  rcases hcur : w.current with _ | i
  · simp only [Wal.startSegment, hcur]
    have hold : ∀ (j : Nat) (seg : Segment ρ), w.segments[j]? = some seg →
        (w.segments ++ [⟨[], 0, .active, false⟩])[j]? = some seg := by
      intro j seg hj
      rwa [List.getElem?_append_left (List.getElem?_eq_some_iff.mp hj).1]
    refine ⟨fun j seg hj => ⟨seg, hold j seg hj, .refl seg⟩, fun j seg hj _ => hold j seg hj, ?_, ?_⟩
    · intro j hj
      obtain rfl : w.segments.length = j := some.inj hj
      exact ⟨_, List.getElem?_concat_length, rfl⟩
    · intro j seg hj hcommitted
      rcases mem_append.mp (mem_of_getElem? hj) with hmem | hmem
      · obtain ⟨k, hk⟩ := List.getElem?_of_mem hmem
        exact h.committed k seg hk hcommitted
      · rw [mem_singleton.mp hmem] at hcommitted
        nomatch hcommitted
  · simp only [Wal.startSegment, hcur]
    exact .refl h

theorem Wal.active_startSegment :
    ∃ seg, w.startSegment.active = some seg ∧ seg.rows = w.active.elim [] fun seg => seg.rows := by
  rcases hcur : w.current with _ | i
  · have hstart : w.startSegment.active = some ⟨[], 0, .active, false⟩ := by
      simp only [Wal.startSegment, hcur, Wal.active, bind_some]
      exact List.getElem?_concat_length
    exact ⟨_, hstart, by simp [Wal.active, hcur]⟩
  · obtain ⟨seg, hseg, -⟩ := h.active i hcur
    have hactive : w.active = some seg := (Wal.active_eq hcur).trans hseg
    refine ⟨seg, ?_, by rw [hactive]; rfl⟩
    simpa only [Wal.startSegment, hcur] using hactive

end

theorem Wal.active_updateActive (w : Wal ρ) (f : Segment ρ → Segment ρ) : (w.updateActive f).active = w.active.map f := by
  rcases hcur : w.current with _ | i
  · simp [Wal.updateActive, Wal.active, hcur]
  · have hupdate : w.updateActive f = w.update i f := by simp [Wal.updateActive, hcur]
    have hcur' : (w.update i f).current = some i := hcur
    rw [hupdate, Wal.active_eq hcur', Wal.active_eq hcur, Wal.segments_update]
    simp

theorem Wal.active_write (h : w.WellFormed) (batch : List ρ) :
    ∃ seg, (w.write batch).active = some seg ∧ seg.rows = (w.active.elim [] fun seg => seg.rows) ++ batch := by
  obtain ⟨seg, hactive, hrows⟩ := Wal.active_startSegment h
  refine ⟨_, by rw [Wal.write, Wal.active_updateActive, hactive]; rfl, ?_⟩
  show seg.rows ++ batch = _
  rw [hrows]

theorem Wal.open_write (h : w.WellFormed) {batch : List ρ} (hrow : w.Open row ∨ row ∈ batch) : (w.write batch).Open row := by
  obtain ⟨seg, hactive, hrows⟩ := Wal.active_write h batch
  refine ⟨seg, hactive, ?_⟩
  rw [hrows, mem_append]
  rcases hrow with ⟨seg₀, hactive₀, hmem⟩ | hmem
  · rw [hactive₀]
    exact .inl hmem
  · exact .inr hmem

theorem Wal.extends_write (h : w.WellFormed) (batch : List ρ) : w.Extends (w.write batch) := by
  have hstart := Wal.extends_startSegment h
  refine hstart.trans (Wal.extends_updateActive hstart.wellFormed ?_ fun _ => rfl)
  intro seg
  refine ⟨subset_append_left _ _, ?_, id⟩
  exact ((prefix_append seg.rows batch).take seg.synced).subset

/-! ## Sync and seal -/

theorem Segment.grows_sync (seg : Segment ρ) (place : Place) :
    seg.Grows { seg with synced := seg.rows.length, place := place } := by
  refine ⟨fun _ h => h, ?_, id⟩
  intro row hrow
  show row ∈ seg.rows.take seg.rows.length
  rw [take_length]
  exact mem_of_mem_take hrow

theorem Wal.extends_syncActive (h : w.WellFormed) : w.Extends w.syncActive :=
  Wal.extends_updateActive h (fun seg => seg.grows_sync seg.place) fun _ => rfl

/-- A sync makes the rows of the open segment durable. -/
theorem Wal.durable_syncActive (hrow : w.Open row) : w.syncActive.Durable row := by
  obtain ⟨seg, hactive, hmem⟩ := hrow
  have hsynced : w.syncActive.active = some { seg with synced := seg.rows.length } := by
    rw [Wal.syncActive, Wal.active_updateActive, hactive]
    rfl
  obtain ⟨i, -, hi⟩ := bind_eq_some_iff.mp hsynced
  exact ⟨_, mem_of_getElem? hi, by simpa [Segment.durable] using hmem⟩

theorem Wal.current_seal (w : Wal ρ) : w.seal.1.current = none := by
  fun_cases Wal.seal w <;> rfl

theorem Wal.extends_seal (h : w.WellFormed) : w.Extends w.seal.1 := by
  have hclose : w.Extends { w with current := none } :=
    ⟨fun _ seg hi => ⟨seg, hi, .refl seg⟩, fun _ _ hi _ => hi, fun _ h' => (nomatch h'), h.committed⟩
  fun_cases Wal.seal w with
  | case1 | case2 => exact hclose
  | case3 =>
    exact Wal.extends_closeActive h (fun seg => seg.grows_sync .sealed) fun _ h' => nomatch h'

/-- A seal moves the rows of the open segment into a sealed file. -/
theorem Wal.seal_of_open (hrow : w.Open row) :
    ∃ i seg, w.seal.2 = some i ∧ w.seal.1.segments[i]? = some seg ∧ seg.place = .sealed ∧ row ∈ seg.durable := by
  obtain ⟨seg, hactive, hmem⟩ := hrow
  obtain ⟨i, hcur, hi⟩ := bind_eq_some_iff.mp hactive
  have hne : seg.rows.isEmpty = false := by
    rw [isEmpty_eq_false_iff]
    exact ne_nil_of_mem hmem
  refine ⟨i, { seg with synced := seg.rows.length, place := .sealed }, ?_, ?_, rfl, ?_⟩
  · simp [Wal.seal, hactive, hne, hcur]
  · simp only [Wal.seal, hactive, hne, Wal.updateActive, hcur, Option.elim]
    show (w.update i _).segments[i]? = _
    rw [Wal.segments_update, hi]
    simp
  · simpa [Segment.durable] using hmem

theorem Wal.place_seal (h : w.seal.2 = some i) : ∃ seg, w.seal.1.segments[i]? = some seg ∧ seg.place = .sealed := by
  have hopen : ∃ row, w.Open row := by
    revert h
    fun_cases Wal.seal w with
    | case1 | case2 => exact fun h => nomatch h
    | case3 seg hactive hne =>
      intro _
      obtain ⟨row, hrow⟩ := exists_mem_of_ne_nil seg.rows fun hnil => hne (by rw [hnil]; rfl)
      exact ⟨row, seg, hactive, hrow⟩
  obtain ⟨row, hrow⟩ := hopen
  obtain ⟨j, seg, hj, hseg, hplace, -⟩ := Wal.seal_of_open hrow
  obtain rfl : j = i := some.inj (hj.symm.trans h)
  exact ⟨seg, hseg, hplace⟩

section

variable (h : w.WellFormed)
include h

theorem Wal.extends_sealFails (renamed : Bool) : w.Extends (w.sealFails renamed) := by
  refine Wal.extends_closeActive h ?_ ?_
  · intro seg
    cases renamed
    · exact .refl seg
    · exact ⟨fun _ h' => h', fun _ h' => h', id⟩
  · intro seg hplace
    cases renamed
    · exact hplace
    · nomatch hplace

/-! ## Appends, ticks and rebinds -/

theorem Wal.appendBatch_eq (maxEvents : Nat) (aged : Bool) (batch : List ρ) : w.appendBatch maxEvents aged batch =
      if w.rolls maxEvents aged batch then (w.write batch).seal else (w.write batch, none) := by
  obtain ⟨seg, hactive, hrows⟩ := Wal.active_write h batch
  have hlength : seg.rows.length = (w.active.elim 0 fun seg => seg.rows.length) + batch.length := by
    rw [hrows, length_append]
    cases w.active <;> rfl
  simp only [Wal.appendBatch, hactive, elim_some, hlength, Wal.rolls, Bool.or_eq_true, decide_eq_true_eq]

/-- An append extends the log. -/
theorem Wal.extends_appendBatch (maxEvents : Nat) (aged : Bool) (batch : List ρ) :
    w.Extends (w.appendBatch maxEvents aged batch).1 := by
  have hwrite := Wal.extends_write h batch
  rw [Wal.appendBatch_eq h]
  split
  · exact hwrite.trans (Wal.extends_seal hwrite.wellFormed)
  · exact hwrite

theorem Wal.extends_tick (aged : Bool) : w.Extends (w.tick aged) := by
  rw [Wal.tick]
  split
  · exact .refl h
  · exact Wal.extends_seal h

theorem Wal.extends_bindTableUuid (uuid : Option Nat) : w.Extends (w.bindTableUuid uuid) := by
  rw [Wal.bindTableUuid]
  split
  · exact .refl h
  · obtain ⟨hgrows, hstays, hwf⟩ := Wal.extends_seal h
    exact ⟨hgrows, hstays, hwf.active, hwf.committed⟩

end

end LogLake.Ingest
