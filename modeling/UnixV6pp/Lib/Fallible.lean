import Mathlib.Init

/-!
# Computations that may stop

A call that may leave an array or never return is a computation in `Except`.
These are the equations that run one step by step.

* `Except.bind_eq_ok`, `Except.bind_eq_error` — how a sequence ends.
* `Except.Spares` — a computation that does not stop for some reason.
-/

namespace Except

universe u v

variable {ε : Type u} {α β : Type v}

@[simp] theorem ok_bind (a : α) (f : α → Except ε β) : (Except.ok a >>= f) = f a := rfl

@[simp] theorem error_bind (e : ε) (f : α → Except ε β) :
    (Except.error e >>= f) = Except.error e := rfl

@[simp] theorem pure_eq (a : α) : (pure a : Except ε α) = Except.ok a := rfl

@[simp] theorem throw_eq (e : ε) : (throw e : Except ε α) = Except.error e := rfl

theorem bind_eq_ok {x : Except ε α} {f : α → Except ε β} {b : β} :
    (x >>= f) = .ok b ↔ ∃ a, x = .ok a ∧ f a = .ok b := by
  cases x with
  | ok a => simp
  | error e => simp

theorem bind_eq_error {x : Except ε α} {f : α → Except ε β} {e : ε} :
    (x >>= f) = .error e ↔ x = .error e ∨ ∃ a, x = .ok a ∧ f a = .error e := by
  cases x with
  | ok a => simp
  | error e' => simp

/-- The computation does not stop for the reason `e`. -/
def Spares (e : ε) (x : Except ε α) : Prop := x ≠ .error e

theorem Spares.ok (e : ε) (a : α) : Spares e (.ok a) := by
  intro h
  cases h

theorem Spares.bind {e : ε} {x : Except ε α} {f : α → Except ε β} (hx : Spares e x)
    (hf : ∀ a, Spares e (f a)) : Spares e (x >>= f) := by
  intro h
  rcases bind_eq_error.mp h with hx' | ⟨a, -, ha⟩
  · exact hx hx'
  · exact hf a ha

end Except
