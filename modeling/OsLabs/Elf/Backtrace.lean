/-
# Return addresses

`Backtrace` walks the chain of frame pointers up to `main` and stores the return addresses in an array of `limit` places.
Its loop runs while the last index stored is below `limit`, and stores at the next one: it can be `limit`.

The array is none of the frames. What `AddrToName` says is a parameter, `nameOf`.

Key definitions: `backtrace`, `Depth`.
Key theorem: `backtrace_within`.
-/
import OsLabs.Elf.Symbols

namespace OsLabs
namespace Elf

/-- The words of the stack. -/
abbrev Stack := Addr → Addr

variable (stack : Stack) (nameOf : Addr → Option (List Byte))

/-- The `k`-th frame pointer. -/
def frame (rbp : Addr) : ℕ → Addr
  | 0 => rbp
  | k + 1 => stack (frame rbp k)

/-- The address that the `k`-th frame returns to. -/
def returnAddr (rbp : Addr) (k : ℕ) : Addr := stack (frame stack rbp k + 8)

/-- The loop of `Backtrace`, with what it has stored and where. -/
def backtraceLoop (limit : ℤ) : ℕ → ℤ → Addr → List (ℤ × Addr) → Option (List (ℤ × Addr) × ℤ)
  | 0, _, _, _ => none
  | fuel + 1, last, rbp, stores =>
    if last < limit then
      let last := last + 1
      let stores := stores ++ [(last, stack (rbp + 8))]
      if nameOf (stack (rbp + 8)) = some main' then some (stores, last + 1)
      else backtraceLoop limit fuel last (stack rbp) stores
    else some (stores, last + 1)

/-- `limit + 2` rounds are enough. -/
def backtrace (rbp : Addr) (limit : ℕ) : Option (List (ℤ × Addr) × ℤ) :=
  backtraceLoop stack nameOf limit (limit + 2) (-1) rbp []

/-- `d` return addresses lead to `main`, the one in `main` included. -/
structure Depth (rbp : Addr) (d : ℕ) : Prop where
  main : ∃ k, d = k + 1 ∧ nameOf (returnAddr stack rbp k) = some main'
  first : ∀ k, k + 1 < d → nameOf (returnAddr stack rbp k) ≠ some main'

/-- The first `n` return addresses, at their places. -/
def firstReturns (rbp : Addr) (n : ℕ) : List (ℤ × Addr) :=
  (List.range n).map fun k : ℕ => ((k : ℤ), returnAddr stack rbp k)

section

variable {stack nameOf} {rbp : Addr} {d limit : ℕ}

theorem firstReturns_succ (rbp : Addr) (n : ℕ) :
    firstReturns stack rbp (n + 1) = firstReturns stack rbp n ++ [((n : ℤ), returnAddr stack rbp n)] := by
  rw [firstReturns, List.range_succ, List.map_append]
  rfl

/-- `n` addresses have been stored, and none of them is in `main`: the loop goes on up to `main`, or up to `limit + 1`. -/
theorem backtraceLoop_eq (h : Depth stack nameOf rbp d) : ∀ (fuel n : ℕ), n < d → n ≤ limit + 1 → limit + 1 < n + fuel →
    backtraceLoop stack nameOf limit fuel ((n : ℤ) - 1) (frame stack rbp n) (firstReturns stack rbp n) =
      some (firstReturns stack rbp (min d (limit + 1)), ((min d (limit + 1) : ℕ) : ℤ)) := by
  intro fuel
  induction fuel with
  | zero =>
    intro n _ hn hfuel
    omega
  | succ fuel ih =>
    intro n hlt hn hfuel
    have hnext : (n : ℤ) - 1 + 1 = (n : ℤ) := Int.sub_add_cancel _ _
    unfold backtraceLoop
    by_cases hroom : n ≤ limit
    · have hstores : firstReturns stack rbp n ++ [((n : ℤ) - 1 + 1, stack (frame stack rbp n + 8))] =
          firstReturns stack rbp (n + 1) := by
        rw [firstReturns_succ, hnext]
        rfl
      rw [if_pos (by omega)]
      dsimp only
      rw [hstores, hnext]
      by_cases hlast : n + 1 = d
      · obtain ⟨k, hk, hmain⟩ := h.main
        obtain rfl : n = k := by omega
        have hmin : min d (limit + 1) = n + 1 := by omega
        have hmain' : nameOf (stack (frame stack rbp n + 8)) = some main' := hmain
        rw [if_pos hmain', hmin, Nat.cast_succ]
      · have hother : nameOf (stack (frame stack rbp n + 8)) ≠ some main' := h.first n (by omega)
        have hrest := ih (n + 1) (by omega) (by omega) (by omega)
        rw [Nat.cast_succ, Int.add_sub_cancel] at hrest
        rw [if_neg hother]
        exact hrest
    · have hmin : min d (limit + 1) = n := by omega
      rw [if_neg (by omega), hmin, hnext]

/-- The array's places are enough, and all of them that are needed are stored to. -/
structure Within (stack : Stack) (rbp : Addr) (d limit : ℕ) (stores : List (ℤ × Addr)) (result : ℤ) : Prop where
  below : ∀ x ∈ stores, 0 ≤ x.1 ∧ x.1 < limit
  stores : firstReturns stack rbp (min d limit) <+: stores
  result : result = ((min d limit : ℕ) : ℤ)

/-- **The array.** `Backtrace` returns; it stores the first return addresses below `limit` only, and returns how many
there are, if and only if `main` is among the first `limit` of them. -/
theorem backtrace_within (h : Depth stack nameOf rbp d) (limit : ℕ) : ∃ stores result,
    backtrace stack nameOf rbp limit = some (stores, result) ∧ (Within stack rbp d limit stores result ↔ d ≤ limit) := by
  have hpos : 0 < d := by
    obtain ⟨k, rfl, -⟩ := h.main
    exact Nat.succ_pos k
  have heq := @backtraceLoop_eq stack nameOf rbp d limit h (limit + 2) 0 hpos (Nat.zero_le _) (by omega)
  refine ⟨_, _, heq, ?_⟩
  constructor
  · intro hw
    have hresult := hw.result
    omega
  · intro hle
    have hmin : min d (limit + 1) = min d limit := by omega
    rw [hmin]
    refine ⟨fun x hx => ?_, List.prefix_rfl, rfl⟩
    obtain ⟨k, hk, rfl⟩ := List.mem_map.mp hx
    have hlt := List.mem_range.mp hk
    exact ⟨Int.natCast_nonneg k, Int.ofNat_lt.mpr (by omega)⟩

end

/-- A function that `main` has called, at 0x41, and `main`, at 0x42. -/
def twoFrames : Stack := fun a => if a = 0x100 then 0x200 else if a = 0x108 then 0x41 else if a = 0x208 then 0x42 else 0

def atMain (a : Addr) : Option (List Byte) := if a = 0x42 then some main' else none

theorem twoFrames_depth : Depth twoFrames atMain 0x100 2 where
  main := ⟨1, rfl, by decide⟩
  first k hk := by
    obtain rfl : k = 0 := by omega
    decide

/-- An array of ten places. -/
theorem backtrace_within_ten : ∃ stores result, backtrace twoFrames atMain 0x100 10 = some (stores, result) ∧
    Within twoFrames 0x100 2 10 stores result := by
  obtain ⟨stores, result, hok, hiff⟩ := backtrace_within twoFrames_depth 10
  exact ⟨stores, result, hok, hiff.mpr (by decide)⟩

/-- An array of one place, and a store at the index 1. -/
theorem backtrace_overruns : Depth twoFrames atMain 0x100 2 ∧
    backtrace twoFrames atMain 0x100 1 = some ([(0, 0x41), (1, 0x42)], 2) :=
  ⟨twoFrames_depth, by decide⟩

end Elf
end OsLabs
