/-
# Rings indexed by counters

A queue in an array of `size` cells, with two counters that only go up: how many have been taken and how many put. The counters
are words and wrap; the cell of a count is its remainder by `size`. As `size` divides the number of words, the cells stay in order when
a counter wraps, and the queue is what lies between the counters (`contents`).

Key definitions: `cell`, `contents`.
Key theorems: `contents_push`, `contents_pop`.
-/
import Mathlib

namespace OsLabs
namespace Counters

open Function (update)

/-- The size of a ring for counters of `w` bits. -/
structure Fits (w size : ℕ) : Prop where
  pos : 0 < size
  lt : size < 2 ^ w
  dvd : size ∣ 2 ^ w

variable {w size : ℕ} {β : Type*}

/-- The cell of a count. -/
def cell (size : ℕ) (c : BitVec w) : ℕ := c.toNat % size

/-- The cells from the count `r` up to the count `e`, in order. -/
def contents (size : ℕ) (data : ℕ → β) (r e : BitVec w) : List β :=
  (List.range (e - r).toNat).map fun i => data (cell size (r + BitVec.ofNat w i))

variable {data : ℕ → β} {r e : BitVec w}

@[simp] theorem contents_length : (contents size data r e).length = (e - r).toNat := by simp [contents]

theorem toNat_sub_eq_zero : (e - r).toNat = 0 ↔ r = e := by
  constructor
  · intro h
    have h0 : e - r = 0 := BitVec.eq_of_toNat_eq (by simpa using h)
    exact (BitVec.sub_eq_iff_eq_add.mp h0 ▸ by simp)
  · rintro rfl
    simp

theorem contents_eq_nil : contents size data r e = [] ↔ r = e := by
  rw [← List.length_eq_zero_iff, contents_length, toNat_sub_eq_zero]

/-- The cells of counts that are less than `size` apart differ. -/
theorem cell_add (hs : Fits w size) (r : BitVec w) (i : ℕ) : cell size (r + BitVec.ofNat w i) = (r.toNat + i) % size := by
  unfold cell
  rw [BitVec.toNat_add, BitVec.toNat_ofNat, Nat.mod_mod_of_dvd _ hs.dvd, Nat.add_mod, Nat.mod_mod_of_dvd _ hs.dvd, ← Nat.add_mod]

theorem cell_ne (hs : Fits w size) {i j : ℕ} (hij : i < j) (hj : j < i + size) :
    cell size (r + BitVec.ofNat w i) ≠ cell size (r + BitVec.ofNat w j) := by
  rw [cell_add hs, cell_add hs]
  intro h
  have hdvd : size ∣ (r.toNat + j) - (r.toNat + i) := (Nat.modEq_iff_dvd' (by omega)).mp h
  have := Nat.le_of_dvd (by omega) hdvd
  omega

theorem ofNat_sub (r e : BitVec w) : r + BitVec.ofNat w (e - r).toNat = e := by
  rw [BitVec.ofNat_toNat, BitVec.setWidth_eq, BitVec.add_comm, BitVec.sub_add_cancel]

theorem toNat_one (hw : 1 < 2 ^ w) : (1 : BitVec w).toNat = 1 := (BitVec.toNat_ofNat 1 w).trans (Nat.mod_eq_of_lt hw)

theorem toNat_succ_sub (h : (e - r).toNat + 1 < 2 ^ w) : (e + 1 - r).toNat = (e - r).toNat + 1 := by
  have hsub : e + 1 - r = (e - r) + 1 := by
    rw [BitVec.sub_eq_add_neg, BitVec.sub_eq_add_neg, BitVec.add_assoc, BitVec.add_comm 1, ← BitVec.add_assoc]
  rw [hsub, BitVec.toNat_add, toNat_one (by omega), Nat.mod_eq_of_lt h]

theorem toNat_sub_succ (h : r ≠ e) : (e - (r + 1)).toNat + 1 = (e - r).toNat := by
  have hpos : (e - r).toNat ≠ 0 := mt toNat_sub_eq_zero.mp h
  have hlt := (e - r).isLt
  have hsub : e - (r + 1) = (e - r) - 1 := by
    rw [BitVec.sub_eq_add_neg, BitVec.sub_eq_add_neg, BitVec.sub_eq_add_neg, BitVec.neg_add, BitVec.add_assoc,
      BitVec.sub_eq_add_neg]
  rw [hsub, BitVec.toNat_sub, toNat_one (by omega)]
  have hround : 2 ^ w - 1 + (e - r).toNat = 2 ^ w + ((e - r).toNat - 1) := by omega
  rw [hround, Nat.add_mod_left, Nat.mod_eq_of_lt (by omega)]
  omega

/-- One more. -/
theorem contents_succ (h : (e - r).toNat + 1 < 2 ^ w) :
    contents size data r (e + 1) = contents size data r e ++ [data (cell size e)] := by
  unfold contents
  rw [toNat_succ_sub h, List.range_succ, List.map_append, List.map_singleton, ofNat_sub]

/-- A write behind the queue. -/
theorem contents_update (hs : Fits w size) (h : (e - r).toNat < size) (x : β) :
    contents size (update data (cell size e) x) r e = contents size data r e := by
  refine List.map_congr_left fun i hi => Function.update_of_ne ?_ _ _
  have hi' := List.mem_range.mp hi
  have hne := cell_ne (r := r) hs (show i < (e - r).toNat from hi') (by omega)
  rwa [ofNat_sub] at hne

/-- Putting one: its cell is none of the queue's. -/
theorem contents_push (hs : Fits w size) (h : (e - r).toNat < size) (x : β) :
    contents size (update data (cell size e) x) r (e + 1) = contents size data r e ++ [x] := by
  have hlt := hs.lt
  rw [contents_succ (by omega), contents_update hs h, Function.update_self]

/-- Taking one. -/
theorem contents_pop (h : r ≠ e) : contents size data r e = data (cell size r) :: contents size data (r + 1) e := by
  unfold contents
  rw [← toNat_sub_succ h, List.range_succ_eq_map, List.map_cons, List.map_map]
  congr 1
  · simp
  · refine List.map_congr_left fun i _ => ?_
    show data (cell size (r + BitVec.ofNat w (i + 1))) = _
    rw [BitVec.add_assoc, BitVec.ofNat_add, BitVec.add_comm (BitVec.ofNat w i)]
    rfl

/-- Full. -/
theorem sub_eq_size (hs : Fits w size) : e = r + BitVec.ofNat w size ↔ (e - r).toNat = size := by
  have hlt := hs.lt
  constructor
  · rintro rfl
    rw [BitVec.add_comm, BitVec.add_sub_cancel, BitVec.toNat_ofNat, Nat.mod_eq_of_lt hlt]
  · intro h
    rw [← h, ofNat_sub]

end Counters
end OsLabs
