import Mathlib

/-!
# Runs of a step function

A system is a partial step function on states, driven by a list of actions.
-/

namespace Transition

variable {σ α : Type*} (step : σ → α → Option σ)

/-- The state after the actions, `none` when one of them cannot be taken. -/
def run : σ → List α → Option σ
  | s, [] => some s
  | s, a :: as => (step s a).bind fun s' => run s' as

/-- Every action of the run meets the condition in the state it is taken in. -/
def Meets (ok : σ → α → Prop) : σ → List α → Prop
  | _, [] => True
  | s, a :: as => ok s a ∧ ∀ s', step s a = some s' → Meets ok s' as

instance decidableMeets (ok : σ → α → Prop) [∀ s a, Decidable (ok s a)] : ∀ s as, Decidable (Meets step ok s as)
  | _, [] => isTrue trivial
  | s, a :: as =>
    match hs : step s a with
    | none => decidable_of_iff (ok s a) (by simp [Meets, hs])
    | some s' =>
      have := decidableMeets ok s' as
      decidable_of_iff (ok s a ∧ Meets step ok s' as) (by simp [Meets, hs])

variable {step} {s s' : σ} {as : List α}

/-- What every permitted step preserves holds after every run of permitted steps. -/
theorem invariant_run {ok : σ → α → Prop} {I : σ → Prop}
    (hstep : ∀ s a s', I s → ok s a → step s a = some s' → I s') (hinit : I s)
    (hmeets : Meets step ok s as) (hrun : run step s as = some s') : I s' := by
  induction as generalizing s with
  | nil =>
    rw [run, Option.some.injEq] at hrun
    exact hrun ▸ hinit
  | cons a as ih =>
    obtain ⟨s₁, hs₁, hrest⟩ := Option.bind_eq_some_iff.mp hrun
    exact ih (hstep s a s₁ hinit hmeets.1 hs₁) (hmeets.2 s₁ hs₁) hrest

/-- A condition on the actions alone is met when all of them meet it. -/
theorem meets_of_forall {p : α → Prop} (h : ∀ a ∈ as, p a) (s : σ) : Meets step (fun _ a => p a) s as := by
  induction as generalizing s with
  | nil => exact trivial
  | cons a as ih => exact ⟨h a List.mem_cons_self, fun s' _ => ih (fun b hb => h b (List.mem_cons_of_mem _ hb)) s'⟩

/-- A run goes on from the state after its first step. -/
theorem run_cons_of_step {a : α} (h : step s a = some s') (as : List α) : run step s (a :: as) = run step s' as := by
  rw [run, h, Option.bind_some]

/-- A run of two parts goes through a state in between. -/
theorem run_append_eq_some {bs : List α} :
    run step s (as ++ bs) = some s' ↔ ∃ s₁, run step s as = some s₁ ∧ run step s₁ bs = some s' := by
  induction as generalizing s with
  | nil => simp [run]
  | cons a as ih =>
    rw [List.cons_append, run, Option.bind_eq_some_iff]
    simp only [ih, run, Option.bind_eq_some_iff]
    constructor
    · rintro ⟨s₀, hs₀, s₁, hs₁, hs'⟩
      exact ⟨s₁, ⟨s₀, hs₀, hs₁⟩, hs'⟩
    · rintro ⟨s₁, ⟨s₀, hs₀, hs₁⟩, hs'⟩
      exact ⟨s₀, hs₀, s₁, hs₁, hs'⟩

/-- A condition is met by two parts when each meets it, the second from the state in between. -/
theorem meets_append {ok : σ → α → Prop} {bs : List α} :
    Meets step ok s (as ++ bs) ↔ Meets step ok s as ∧ ∀ s₁, run step s as = some s₁ → Meets step ok s₁ bs := by
  induction as generalizing s with
  | nil => simp [run, Meets]
  | cons a as ih =>
    simp only [List.cons_append, Meets, ih, run, Option.bind_eq_some_iff]
    constructor
    · rintro ⟨ha, hrest⟩
      exact ⟨⟨ha, fun s' hs' => (hrest s' hs').1⟩, fun s₁ ⟨s', hs', hrun⟩ => (hrest s' hs').2 s₁ hrun⟩
    · rintro ⟨⟨ha, has⟩, hbs⟩
      exact ⟨ha, fun s' hs' => ⟨has s' hs', fun s₁ hrun => hbs s₁ ⟨s', hs', hrun⟩⟩⟩

/-- What every step preserves holds after every run. -/
theorem invariant_run_of_step {I : σ → Prop} (hstep : ∀ s a s', I s → step s a = some s' → I s') (hinit : I s)
    (hrun : run step s as = some s') : I s' :=
  invariant_run (fun s a s' hI _ h => hstep s a s' hI h) hinit (meets_of_forall (fun _ _ => trivial) s) hrun

end Transition

/-! ## Guards -/

namespace Guard

variable {α : Type*} {c : Prop} [Decidable c] {a b : α}

/-- A step that a condition refuses is taken when the condition fails. -/
theorem stay (h : (if c then none else some a) = some b) : ¬ c ∧ a = b := by
  obtain ⟨hc, heq⟩ := Option.ite_none_left_eq_some.mp h
  exact ⟨hc, Option.some.inj heq⟩

end Guard
