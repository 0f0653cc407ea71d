/-
# Code that can fail

The equations of `do` blocks and of `mapError` in `Except`, and the inversion of a bind.
-/
import Mathlib

namespace OsLabs

variable {ε α β : Type}

@[simp] theorem ok_bind (a : α) (k : α → Except ε β) : (Except.ok a >>= k) = k a := rfl

@[simp] theorem error_bind (x : ε) (k : α → Except ε β) : (Except.error x >>= k) = .error x := rfl

@[simp] theorem pure_eq (a : α) : (pure a : Except ε α) = .ok a := rfl

@[simp] theorem mapError_ok {ε' : Type} (f : ε → ε') (a : α) : (Except.ok a : Except ε α).mapError f = .ok a := rfl

@[simp] theorem mapError_error {ε' : Type} (f : ε → ε') (x : ε) : (Except.error x : Except ε α).mapError f = .error (f x) := rfl

theorem of_bind_ok {x : Except ε α} {k : α → Except ε β} {y : β} (h : (x >>= k) = .ok y) :
    ∃ a, x = .ok a ∧ k a = .ok y := by
  cases x with
  | error e => exact absurd h nofun
  | ok a => exact ⟨a, rfl, h⟩

theorem of_toOption {x : Except ε α} {a : α} (h : x.toOption = some a) : x = .ok a := by
  cases x with
  | ok b => exact congrArg Except.ok (Option.some.inj h)
  | error e => cases h

end OsLabs
