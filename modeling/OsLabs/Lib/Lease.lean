/-
# Leases

A resource is leased to one owner at a time: nobody obtains one that is leased, and only its owner uses it and gives it
back. A log of what was done is sound if it replays against a ledger of the leases.

Key definitions: `Use`, `Ledger.allow`, `replay`.
Key theorem: `balance`.
-/
import Mathlib

namespace OsLabs
namespace Lease

open Function (update)

inductive Use (O R : Type*)
  | obtains (o : O) (r : R)
  | uses (o : O) (r : R)
  | frees (o : O) (r : R)
  deriving DecidableEq

/-- Who has a resource. -/
abbrev Ledger (O R : Type*) := R → Option O

variable {O R : Type*} [DecidableEq O] [DecidableEq R]

def Ledger.allow (L : Ledger O R) : Use O R → Option (Ledger O R)
  | .obtains o r => if L r = none then some (update L r (some o)) else none
  | .uses o r => if L r = some o then some L else none
  | .frees o r => if L r = some o then some (update L r none) else none

/-- From a ledger without leases. -/
def replay (log : List (Use O R)) : Option (Ledger O R) := log.foldl (fun L u => L.bind (·.allow u)) (some fun _ => none)

section

variable {log : List (Use O R)} {L L' : Ledger O R} {u : Use O R} {o : O} {r : R}

theorem replay_concat (log : List (Use O R)) (u : Use O R) : replay (log ++ [u]) = (replay log).bind (·.allow u) := by
  rw [replay, List.foldl_append]
  rfl

theorem replay_obtains (h : replay log = some L) (hr : L r = none) :
    replay (log ++ [.obtains o r]) = some (update L r (some o)) := by
  rw [replay_concat, h]
  exact if_pos hr

theorem replay_uses (h : replay log = some L) (hr : L r = some o) : replay (log ++ [.uses o r]) = some L := by
  rw [replay_concat, h]
  exact if_pos hr

theorem replay_frees (h : replay log = some L) (hr : L r = some o) : replay (log ++ [.frees o r]) = some (update L r none) := by
  rw [replay_concat, h]
  exact if_pos hr

def Use.isObtains (r : R) : Use O R → Bool
  | .obtains _ r' => r' = r
  | _ => false

def Use.isFrees (r : R) : Use O R → Bool
  | .frees _ r' => r' = r
  | _ => false

/-- A resource is given back as often as it was obtained, but for the lease there is. -/
theorem balance (r : R) : ∀ (log : List (Use O R)) {L : Ledger O R}, replay log = some L →
    log.countP (Use.isObtains r) = log.countP (Use.isFrees r) + if (L r).isSome then 1 else 0 := by
  intro log
  induction log using List.reverseRecOn with
  | nil =>
    intro L h
    cases h
    rfl
  | append_singleton log u ih =>
    intro L' h
    rw [replay_concat] at h
    obtain ⟨L, hL, hu⟩ := Option.bind_eq_some_iff.mp h
    have hlog := ih hL
    rw [List.countP_append, List.countP_append, hlog]
    cases u with
    | obtains o r' =>
      dsimp only [Ledger.allow] at hu
      split_ifs at hu with hfree
      cases hu
      by_cases hr : r' = r
      · rw [hr] at hfree ⊢
        simp [Use.isObtains, Use.isFrees, hfree]
      · simp [Use.isObtains, Use.isFrees, hr, Function.update_of_ne (Ne.symm hr)]
    | uses o r' =>
      dsimp only [Ledger.allow] at hu
      split_ifs at hu
      cases hu
      simp [Use.isObtains, Use.isFrees]
    | frees o r' =>
      dsimp only [Ledger.allow] at hu
      split_ifs at hu with hheld
      cases hu
      by_cases hr : r' = r
      · rw [hr] at hheld ⊢
        simp [Use.isObtains, Use.isFrees, hheld]
      · simp [Use.isObtains, Use.isFrees, hr, Function.update_of_ne (Ne.symm hr)]

end

end Lease
end OsLabs
