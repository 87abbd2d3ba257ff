/-
  FormulaDesk.Proofs.Outcome
  ──────────────────────────────────────
  **STAGES THAT MAY FAIL.**

  A stage gives a result or a fault, and the next stage begins with the
  result.  So a chain of stages has a result exactly when each of its stages
  has one, and otherwise the fault of the first stage without one.
-/
namespace FormulaDesk

variable {ε α β : Type}

/-- **A chain has a result when both of its parts have one.** -/
theorem bind_eq_ok_iff {x : Except ε α} {f : α → Except ε β} {b : β} :
    x >>= f = .ok b ↔ ∃ a, x = .ok a ∧ f a = .ok b := by
  cases x with
  | error e =>
      constructor
      · intro h; exact nomatch h
      · intro h'
        obtain ⟨a, h, -⟩ := h'
        exact nomatch h
  | ok a =>
      constructor
      · intro h; exact ⟨a, rfl, h⟩
      · intro h'
        obtain ⟨a', h, hf⟩ := h'
        obtain rfl := Except.ok.inj h
        exact hf

/-- **A chain has a fault when one of its parts has it**, and then it is the
first that does. -/
theorem bind_eq_error_iff {x : Except ε α} {f : α → Except ε β} {e : ε} :
    x >>= f = .error e ↔ x = .error e ∨ ∃ a, x = .ok a ∧ f a = .error e := by
  cases x with
  | error e' =>
      show Except.error e' = .error e ↔ _
      simp
  | ok a =>
      show f a = .error e ↔ _
      simp

theorem map_eq_ok_iff {x : Except ε α} {f : α → β} {b : β} :
    x.map f = .ok b ↔ ∃ a, x = .ok a ∧ f a = b := by
  cases x with
  | error e => simp [Except.map]
  | ok a => simp [Except.map]

/-- What is done to a result, step by step. -/
theorem map_map {γ : Type} (x : Except ε α) (f : α → β) (g : β → γ) :
    (x.map f).map g = x.map fun a => g (f a) := by
  cases x <;> rfl

/-- What is done to a result before the next stage begins. -/
theorem map_bind {γ : Type} (x : Except ε α) (f : α → β) (g : β → Except ε γ) :
    x.map f >>= g = x >>= fun a => g (f a) := by
  cases x <;> rfl

end FormulaDesk
