/-
# Blocks and the buffers that hold them

A disk block has `BSIZE` bytes; `log.c` and `fs.c` also look at it as an array of words. What `bread` gives for a block is
what its buffer holds. A buffer without `B_DIRTY` has the disk's contents and may be recycled at any time, so all that there is
to a buffer cache, as its users see it, are the blocks on the disk and the buffers that are dirty (`Store`).

Key definitions: `Block`, `getWord`, `setWord`, `Store`.
-/
import OsLabs.Xv6.Vm

namespace OsLabs
namespace Xv6

open Function (update)

abbrev BSIZE : ℕ := 512

abbrev Block := Fin BSIZE → Byte

/-- The byte at offset `k`. -/
def byteAt (b : Block) (k : ℕ) : Byte := if h : k < BSIZE then b ⟨k, h⟩ else 0

/-- `((uint*)data)[i]`. -/
def getWord (b : Block) (i : ℕ) : Word :=
  byteAt b (4 * i + 3) ++ byteAt b (4 * i + 2) ++ byteAt b (4 * i + 1) ++ byteAt b (4 * i)

/-- `((uint*)data)[i] = w`, low byte first. -/
def setWord (b : Block) (i : ℕ) (w : Word) : Block := fun k =>
  if k.1 / 4 = i then w.extractLsb' (8 * (k.1 % 4)) 8 else b k

theorem byteAt_setWord {b : Block} {i k : ℕ} {w : Word} (h : k < BSIZE) :
    byteAt (setWord b i w) k = if k / 4 = i then w.extractLsb' (8 * (k % 4)) 8 else byteAt b k := by
  simp only [byteAt, dif_pos h, setWord]

/-- The word that four bytes make. -/
theorem getWord_of_bytes {b : Block} {i : ℕ} {w : Word} (h : ∀ r < 4, byteAt b (4 * i + r) = w.extractLsb' (8 * r) 8) :
    getWord b i = w := by
  unfold getWord
  rw [h 3 (by omega), h 2 (by omega), h 1 (by omega), show 4 * i = 4 * i + 0 from rfl, h 0 (by omega)]
  ext j hj
  simp only [BitVec.getElem_append]
  split_ifs <;> grind

/-- Blocks with the same bytes there have the same word. -/
theorem getWord_congr {b c : Block} {i j : ℕ} (h : ∀ r < 4, byteAt b (4 * i + r) = byteAt c (4 * j + r)) : getWord b i = getWord c j := by
  unfold getWord
  rw [h 3 (by omega), h 2 (by omega), h 1 (by omega), show 4 * i = 4 * i + 0 from rfl, h 0 (by omega)]
  rfl

theorem getWord_setWord {b : Block} {i : ℕ} {w : Word} (h : i < BSIZE / 4) : getWord (setWord b i w) i = w := by
  refine getWord_of_bytes fun r hr => ?_
  rw [byteAt_setWord (by unfold BSIZE at h ⊢; omega), if_pos (by omega)]
  congr 2
  omega

theorem getWord_setWord_ne {b : Block} {i j : ℕ} {w : Word} (hij : j ≠ i) (h : j < BSIZE / 4) :
    getWord (setWord b i w) j = getWord b j := by
  refine getWord_congr fun r hr => ?_
  rw [byteAt_setWord (by unfold BSIZE at h ⊢; omega), if_neg (by omega)]

/-! ### The disk and the buffers -/

/-- The blocks on the disk, and the contents of the dirty buffers. -/
structure Store where
  disk : ℕ → Block
  dirty : ℕ → Option Block

namespace Store

/-- Nothing is cached. -/
def boot (disk : ℕ → Block) : Store := ⟨disk, fun _ => none⟩

/-- What the buffer of block `b` holds. -/
def bread (s : Store) (b : ℕ) : Block := (s.dirty b).getD (s.disk b)

/-- The buffer of block `b`, with the contents `v`, is written to the disk. -/
def bwrite (s : Store) (b : ℕ) (v : Block) : Store := ⟨update s.disk b v, update s.dirty b none⟩

/-- The buffer of block `b` is given the contents `v` and `B_DIRTY`. -/
def pin (s : Store) (b : ℕ) (v : Block) : Store := { s with dirty := update s.dirty b (some v) }

variable {s : Store} {b c : ℕ} {v : Block}

@[simp] theorem boot_disk (d : ℕ → Block) : (boot d).disk = d := rfl

@[simp] theorem boot_dirty (d : ℕ → Block) (b : ℕ) : (boot d).dirty b = none := rfl

@[simp] theorem boot_bread (d : ℕ → Block) (b : ℕ) : (boot d).bread b = d b := rfl

@[simp] theorem pin_disk : (s.pin b v).disk = s.disk := rfl

theorem bwrite_disk_self : (s.bwrite b v).disk b = v := Function.update_self ..

theorem bwrite_disk_ne (h : c ≠ b) : (s.bwrite b v).disk c = s.disk c := Function.update_of_ne h ..

theorem bwrite_dirty_self : (s.bwrite b v).dirty b = none := Function.update_self ..

theorem bwrite_dirty_ne (h : c ≠ b) : (s.bwrite b v).dirty c = s.dirty c := Function.update_of_ne h ..

/-- A write makes no buffer dirty. -/
theorem bwrite_dirty_none (h : s.dirty c = none) : (s.bwrite b v).dirty c = none := by
  by_cases hc : c = b
  · rw [hc, bwrite_dirty_self]
  · rw [bwrite_dirty_ne hc, h]

theorem bread_of_clean (h : s.dirty b = none) : s.bread b = s.disk b := by simp [bread, h]

theorem pin_bread : (s.pin b v).bread = update s.bread b v := by
  funext c
  unfold bread pin
  by_cases hc : c = b
  · simp [hc]
  · simp [Function.update_of_ne hc]

theorem bwrite_bread_ne (h : c ≠ b) : (s.bwrite b v).bread c = s.bread c := by
  unfold bread
  rw [bwrite_disk_ne h, bwrite_dirty_ne h]

theorem bwrite_bread : (s.bwrite b v).bread = update s.bread b v := by
  funext c
  unfold bread bwrite
  by_cases hc : c = b
  · simp [hc]
  · simp [Function.update_of_ne hc]

/-- Writing a buffer's own contents changes nothing for those who read it. -/
theorem bwrite_self : (s.bwrite b (s.bread b)).bread = s.bread := by
  rw [bwrite_bread, Function.update_eq_self]

end Store

end Xv6
end OsLabs
