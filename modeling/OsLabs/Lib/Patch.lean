/-
# Writes over a store

A store maps keys to values, and `patch` replays a list of writes over it, in order: the last write to a key stands, and the
other keys keep what they had. So writes that hold the values of one store bring every store to it that differs from it only
there, however many of them had been done before (`patch_eq`): what a redo log rests on.

Key definition: `patch`.
-/
import Mathlib

namespace OsLabs
namespace Patch

open Function (update)

variable {K V : Type*} [DecidableEq K]

def patch (d : K → V) (ws : List (K × V)) : K → V := ws.foldl (fun d w => update d w.1 w.2) d

@[simp] theorem patch_nil (d : K → V) : patch d [] = d := rfl

theorem patch_cons (d : K → V) (w : K × V) (ws : List (K × V)) :
    patch d (w :: ws) = patch (update d w.1 w.2) ws := rfl

theorem patch_of_not_mem {k : K} : ∀ {ws : List (K × V)} (d : K → V), k ∉ ws.map Prod.fst → patch d ws k = d k
  | [], _, _ => rfl
  | w :: ws, d, h => by
    rw [List.map_cons, List.mem_cons, not_or] at h
    rw [patch_cons, patch_of_not_mem _ h.2, Function.update_of_ne h.1]

/-- What is written does not depend on what was there. -/
theorem patch_of_mem {k : K} : ∀ {ws : List (K × V)} (d e : K → V), k ∈ ws.map Prod.fst → patch d ws k = patch e ws k
  | [], _, _, h => absurd h List.not_mem_nil
  | w :: ws, d, e, h => by
    rw [patch_cons, patch_cons]
    by_cases hk : k ∈ ws.map Prod.fst
    · exact patch_of_mem _ _ hk
    · have hw : k = w.1 := by simpa [hk] using h
      rw [patch_of_not_mem _ hk, patch_of_not_mem _ hk, hw, Function.update_self, Function.update_self]

/-- Stores that differ only where the writes go agree after them. -/
theorem patch_congr {ws : List (K × V)} {d e : K → V} {k : K} (h : k ∉ ws.map Prod.fst → d k = e k) :
    patch d ws k = patch e ws k := by
  by_cases hk : k ∈ ws.map Prod.fst
  · exact patch_of_mem d e hk
  · rw [patch_of_not_mem d hk, patch_of_not_mem e hk, h hk]

/-- Writes that bring the store to `e`: all of what differs from `e` is written, and what is written is `e`'s. -/
theorem patch_eq {e : K → V} {k : K} : ∀ {ws : List (K × V)} {d : K → V}, (∀ w ∈ ws, w.2 = e w.1) →
    (k ∉ ws.map Prod.fst → d k = e k) → patch d ws k = e k
  | [], _, _, h => h List.not_mem_nil
  | w :: ws, d, hws, h => by
    rw [patch_cons]
    refine patch_eq (fun v hv => hws v (List.mem_cons_of_mem _ hv)) fun hk => ?_
    by_cases hw : k = w.1
    · rw [hw, Function.update_self]
      exact hws w List.mem_cons_self
    · rw [Function.update_of_ne hw]
      exact h (by simp [hw, hk])

end Patch
end OsLabs
