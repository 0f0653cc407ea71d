/-
# Threads and their program counters

`pc i` is where thread `i` is; a step of a thread moves its own `pc` and
leaves the others'. What a lock's proof needs of the threads is how many of
them are at some places (`tally`, with a weight for each place) and that
whoever is at the places of `H` is alone there and has set the lock's flag
(`Mutex`). The lemmas say what the move of one thread does to them.

Key definitions: `tally`, `Mutex`.
-/
import Mathlib

namespace OsLabs
namespace Threads

open Function (update)

variable {ι P : Type*} {pc : ι → P} {i j : ι} {p : P}

/-! ### How many threads are where -/

section

variable [Fintype ι] {w : P → ℕ}

/-- The weights of all threads' places. -/
def tally (w : P → ℕ) (pc : ι → P) : ℕ := ∑ i, w (pc i)

theorem tally_update [DecidableEq ι] (w : P → ℕ) (pc : ι → P) (i : ι) (p : P) :
    tally w (update pc i p) + w (pc i) = tally w pc + w p := by
  have h1 := Finset.add_sum_erase Finset.univ (fun j => w (update pc i p j)) (Finset.mem_univ i)
  have h2 := Finset.add_sum_erase Finset.univ (fun j => w (pc j)) (Finset.mem_univ i)
  have hrest : ∑ j ∈ Finset.univ.erase i, w (update pc i p j) = ∑ j ∈ Finset.univ.erase i, w (pc j) :=
    Finset.sum_congr rfl fun j hj => by rw [Function.update_of_ne (Finset.ne_of_mem_erase hj)]
  simp only [Function.update_self] at h1
  unfold tally
  omega

/-- A thread that moves between places of one weight. -/
theorem tally_update_same [DecidableEq ι] (h : w p = w (pc i)) : tally w (update pc i p) = tally w pc := by
  have := tally_update w pc i p
  omega

theorem tally_eq_zero : tally w pc = 0 ↔ ∀ i, w (pc i) = 0 := by
  simp [tally]

theorem tally_le_card (h : ∀ p, w p ≤ 1) (pc : ι → P) : tally w pc ≤ Fintype.card ι := by
  calc tally w pc ≤ ∑ _i : ι, 1 := Finset.sum_le_sum fun i _ => h (pc i)
    _ = Fintype.card ι := by simp

end

/-! ### A test-and-set lock -/

variable {F : Type*} [Zero F] [One F] {H : P → Prop} {flag : F}

/-- The flag of a lock that is held at the places of `H`: 0 if nobody is there, and 1 if one thread is. -/
def Mutex (H : P → Prop) (pc : ι → P) (flag : F) : Prop :=
  (flag = 0 ∧ ∀ i, ¬ H (pc i)) ∨ (flag = 1 ∧ ∃ i, ∀ j, H (pc j) ↔ j = i)

namespace Mutex

theorem alone (h : Mutex H pc flag) (hi : H (pc i)) (hj : H (pc j)) : i = j := by
  rcases h with ⟨-, hn⟩ | ⟨-, k, hk⟩
  · exact absurd hi (hn i)
  · rw [(hk i).mp hi, (hk j).mp hj]

theorem flag_eq_one (h : Mutex H pc flag) (hi : H (pc i)) : flag = 1 := by
  rcases h with ⟨-, hn⟩ | ⟨hf, -⟩
  · exact absurd hi (hn i)
  · exact hf

theorem free [NeZero (1 : F)] (h : Mutex H pc flag) (hf : flag = 0) (i : ι) : ¬ H (pc i) := fun hi =>
  one_ne_zero ((h.flag_eq_one hi).symm.trans hf)

theorem holder (h : Mutex H pc flag) (hf : flag ≠ 0) : ∃ i, H (pc i) := by
  rcases h with ⟨h0, -⟩ | ⟨-, i, hi⟩
  · exact absurd h0 hf
  · exact ⟨i, (hi i).mpr rfl⟩

/-- A step that neither takes nor releases the lock. -/
theorem keep [DecidableEq ι] (h : Mutex H pc flag) (hp : H p ↔ H (pc i)) : Mutex H (update pc i p) flag := by
  have hsame : ∀ j, H (update pc i p j) ↔ H (pc j) := fun j => by
    by_cases hj : j = i
    · rw [hj, Function.update_self, hp]
    · rw [Function.update_of_ne hj]
  rcases h with ⟨hf, hn⟩ | ⟨hf, k, hk⟩
  · exact Or.inl ⟨hf, fun j hj => hn j ((hsame j).mp hj)⟩
  · exact Or.inr ⟨hf, k, fun j => (hsame j).trans (hk j)⟩

/-- The flag was 0: the thread that has set it holds the lock. -/
theorem acquire [DecidableEq ι] [NeZero (1 : F)] (h : Mutex H pc flag) (hf : flag = 0) (hp : H p) :
    Mutex H (update pc i p) (1 : F) := by
  refine Or.inr ⟨rfl, i, fun j => ?_⟩
  by_cases hj : j = i
  · rw [hj, Function.update_self]
    exact iff_of_true hp rfl
  · rw [Function.update_of_ne hj]
    exact iff_of_false (h.free hf j) hj

theorem release [DecidableEq ι] (h : Mutex H pc flag) (hi : H (pc i)) (hp : ¬ H p) : Mutex H (update pc i p) (0 : F) := by
  refine Or.inl ⟨rfl, fun j hj => ?_⟩
  by_cases hji : j = i
  · rw [hji, Function.update_self] at hj
    exact hp hj
  · rw [Function.update_of_ne hji] at hj
    exact hji (h.alone hj hi)

end Mutex

end Threads
end OsLabs
