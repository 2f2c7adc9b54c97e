/-
# Loops

A pass of a loop leaves it with a result or goes on to the next pass. A loop
ends when finitely many passes leave it; what it ends with is determined by
where it begins.

Key definitions: `Pass`, `Pass.EndsWithin`, `Pass.Ends`.
Key theorems: `Pass.EndsWithin.mono`, `Pass.Ends.unique`.
-/

namespace Recurrence

/-- What a pass of a loop comes to. -/
inductive Pass (σ ρ : Type)
  /-- The loop is left. -/
  | done (result : ρ)
  /-- The next pass begins in a state. -/
  | again (state : σ)

namespace Pass

/-- Whether a loop is left with a result, after what a pass came to and at most
`n` passes more. -/
inductive EndsWithin {σ ρ : Type} (body : σ → Pass σ ρ) : Nat → Pass σ ρ → ρ → Prop
  | done (n : Nat) (result : ρ) : EndsWithin body n (.done result) result
  | again {n : Nat} {state : σ} {result : ρ} :
    EndsWithin body n (body state) result → EndsWithin body (n + 1) (.again state) result

/-- Whether a loop is left with a result, after what a pass came to and finitely
many passes more. -/
def Ends {σ ρ : Type} (body : σ → Pass σ ρ) (x : Pass σ ρ) (result : ρ) : Prop :=
  ∃ n, EndsWithin body n x result

variable {σ ρ : Type} {body : σ → Pass σ ρ} {x : Pass σ ρ} {s : σ} {r r' : ρ} {m n : Nat}

/-- One pass comes before the others. -/
theorem EndsWithin.next (h : body s = x) (hends : EndsWithin body n x r) :
    EndsWithin body (n + 1) (.again s) r :=
  .again (h ▸ hends)

theorem EndsWithin.mono (h : EndsWithin body n x r) (hle : n ≤ m) : EndsWithin body m x r := by
  induction h generalizing m with
  | done => exact .done m _
  | again _ ih =>
    obtain ⟨m, rfl⟩ := Nat.exists_eq_add_of_le' (Nat.one_le_of_lt hle)
    exact .again (ih (Nat.le_of_succ_le_succ hle))

theorem EndsWithin.unique (h : EndsWithin body n x r) (h' : EndsWithin body m x r') : r = r' := by
  induction h generalizing m with
  | done =>
    cases h'
    rfl
  | again _ ih =>
    cases h' with
    | again h' => exact ih h'

theorem Ends.done (r : ρ) : Ends body (.done r) r :=
  ⟨0, .done 0 r⟩

theorem Ends.next (h : body s = x) (hends : Ends body x r) : Ends body (.again s) r := by
  obtain ⟨n, hn⟩ := hends
  exact ⟨n + 1, .next h hn⟩

/-- A loop ends with one result. -/
theorem Ends.unique (h : Ends body x r) (h' : Ends body x r') : r = r' := by
  obtain ⟨n, hn⟩ := h
  obtain ⟨m, hm⟩ := h'
  exact hn.unique hm

end Pass

end Recurrence
