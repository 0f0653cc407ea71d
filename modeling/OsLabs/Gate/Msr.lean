/-
# The model-specific registers of the gate

`read_msr` and `write_msr` of `syscall/gate/kern/sysgate.c`, and what `sysgate` does with them when it is called for the
first time. `rdmsr` and `wrmsr` move a register through `edx:eax`; the halves are `int`s, so what is read is put
together from a low half that has a sign (`readMsr_bit`).

Key definitions: `readMsr`, `writeMsr`, `sysgateInit`, `Fits`.
Key theorem: `read_msr_write_msr`.
-/
import Mathlib

namespace OsLabs
namespace Gate

/-- An `int`. -/
abbrev CInt := BitVec 32

/-- A `long`. -/
abbrev Long := BitVec 64

/-- The registers by their numbers. -/
abbrev Msrs := CInt → Long

def IA32_EFER : CInt := 0xC0000080
def IA32_LSTAR : CInt := 0xC0000082

/-- `eax` and `edx`. -/
def rdmsr (r : Msrs) (ecx : CInt) : CInt × CInt := ((r ecx).setWidth 32, (r ecx >>> 32).setWidth 32)

def wrmsr (r : Msrs) (ecx eax edx : CInt) : Msrs := Function.update r ecx (edx ++ eax)

def readMsr (r : Msrs) (msr : CInt) : Long :=
  let (low, high) := rdmsr r msr
  (high.signExtend 64 <<< 32) ||| low.signExtend 64

def writeMsr (r : Msrs) (msr : CInt) (value : Long) : Msrs :=
  let low := (value &&& 0xFFFFFFFF).setWidth 32
  let high := (value.sshiftRight 32).setWidth 32
  wrmsr r msr low high

/-- The first call of `sysgate`, which is linked at `gate`: from here on `syscall` comes there. -/
def sysgateInit (r : Msrs) (gate : Long) : Msrs :=
  let r := writeMsr r IA32_EFER (readMsr r IA32_EFER ||| 1)
  writeMsr r IA32_LSTAR gate

/-! ### The two halves -/

theorem low_mask_bit (i : ℕ) : (0xFFFFFFFF : Long).getLsbD i = decide (i < 32) := by
  rw [show (0xFFFFFFFF : Long) = (BitVec.allOnes 32).setWidth 64 from rfl, BitVec.getLsbD_setWidth, BitVec.getLsbD_allOnes]
  by_cases h : i < 32
  · simp [h, show i < 64 by omega]
  · simp [h]

/-- The halves of a word that is written are its halves. -/
theorem halves_join (value : Long) : (value.sshiftRight 32).setWidth 32 ++ (value &&& 0xFFFFFFFF).setWidth 32 = value := by
  apply BitVec.eq_of_getLsbD_eq
  intro i hi
  simp only [BitVec.getLsbD_append, BitVec.getLsbD_setWidth, BitVec.getLsbD_sshiftRight, BitVec.getLsbD_and, low_mask_bit]
  by_cases h : i < 32
  · simp [h]
  · have hhigh : 32 + (i - 32) = i := by omega
    simp [h, hhigh, show ¬ 64 ≤ i - 32 by omega, show i - 32 < 32 by omega, hi]

theorem writeMsr_self (r : Msrs) (msr : CInt) (value : Long) : writeMsr r msr value msr = value := by
  simp only [writeMsr, wrmsr, Function.update_self, halves_join]

theorem writeMsr_of_ne (r : Msrs) {msr m : CInt} (value : Long) (h : m ≠ msr) : writeMsr r msr value m = r m :=
  Function.update_of_ne h _ _

/-- What is read has the sign of the low half in all of the high one. -/
theorem readMsr_bit (r : Msrs) (msr : CInt) {i : ℕ} (hi : i < 64) :
    (readMsr r msr).getLsbD i = ((r msr).getLsbD i || (decide (32 ≤ i) && (r msr).getLsbD 31)) := by
  simp only [readMsr, rdmsr, BitVec.getLsbD_or, BitVec.getLsbD_shiftLeft, BitVec.getLsbD_signExtend,
    BitVec.getLsbD_setWidth, BitVec.getLsbD_ushiftRight, BitVec.msb_setWidth]
  by_cases h : i < 32
  · simp [h, hi, show ¬ 32 ≤ i by omega]
  · have hhigh : 32 + (i - 32) = i := by omega
    simp [h, hi, hhigh, show 32 ≤ i by omega, show i - 32 < 32 by omega, show i - 32 < 64 by omega]

/-! ### The round trip -/

/-- The high half is what the sign of the low one would make of it: a word whose bit 31 is set has all ones above it. -/
def Fits (v : Long) : Prop := v.getLsbD 31 = true → v.extractLsb' 32 32 = BitVec.allOnes 32

instance : DecidablePred Fits := fun _ => inferInstanceAs (Decidable (_ → _))

theorem fits_iff {v : Long} : Fits v ↔ ∀ i < 64, (v.getLsbD i || (decide (32 ≤ i) && v.getLsbD 31)) = v.getLsbD i := by
  constructor
  · intro h i hi
    by_cases hsign : v.getLsbD 31 = true ∧ 32 ≤ i
    · have hones := congrArg (fun x => x.getLsbD (i - 32)) (h hsign.1)
      simp only [BitVec.getLsbD_extractLsb', BitVec.getLsbD_allOnes, show i - 32 < 32 by omega,
        show 32 + (i - 32) = i by omega, decide_true, Bool.true_and] at hones
      rw [hones, Bool.true_or]
    · have hadd : (decide (32 ≤ i) && v.getLsbD 31) = false := by
        rw [Bool.and_eq_false_iff, decide_eq_false_iff_not, Bool.eq_false_iff]
        exact or_iff_not_and_not.mpr fun hn => hsign ⟨not_not.mp hn.2, not_not.mp hn.1⟩
      rw [hadd, Bool.or_false]
  · intro h hsign
    apply BitVec.eq_of_getLsbD_eq
    intro i hi
    have hbit := h (32 + i) (by omega)
    rw [hsign, Bool.and_true, decide_eq_true (Nat.le_add_right 32 i), Bool.or_true] at hbit
    rw [BitVec.getLsbD_extractLsb', BitVec.getLsbD_allOnes, ← hbit, decide_eq_true hi, Bool.true_and]

/-- A word that is written comes back if it fits. -/
theorem readMsr_eq_iff (r : Msrs) (msr : CInt) : readMsr r msr = r msr ↔ Fits (r msr) := by
  rw [fits_iff]
  constructor
  · intro h i hi
    rw [← readMsr_bit r msr hi, h]
  · intro h
    apply BitVec.eq_of_getLsbD_eq
    intro i hi
    rw [readMsr_bit r msr hi, h i hi]

/-- Bit 0 is the one that `| 1` may change. -/
theorem or_one_bit (v : Long) {i : ℕ} (hi : i ≠ 0) : (v ||| 1).getLsbD i = v.getLsbD i := by
  have hone : (1 : Long).getLsbD i = false := by
    rw [show (1 : Long) = 1#64 from rfl, BitVec.getLsbD_one]
    simp [hi]
  rw [BitVec.getLsbD_or, hone, Bool.or_false]

theorem set_bit_zero_iff (r : Msrs) (msr : CInt) :
    (∀ i < 64, i ≠ 0 → (writeMsr r msr (readMsr r msr ||| 1) msr).getLsbD i = (r msr).getLsbD i) ↔ Fits (r msr) := by
  rw [fits_iff, writeMsr_self]
  constructor
  · intro h i hi
    rcases Nat.eq_zero_or_pos i with rfl | hpos
    · simp
    · rw [← readMsr_bit r msr hi, ← or_one_bit _ hpos.ne', h i hi hpos.ne']
  · intro h i hi h0
    rw [or_one_bit _ h0, readMsr_bit r msr hi, h i hi]

/-- **What the two conversions lose.** A word is read back as it was written exactly when it fits; what `sysgate` does to set
one bit of a register leaves the other bits alone exactly when what the register held fits. -/
theorem read_msr_write_msr (r : Msrs) (msr : CInt) :
    (∀ v : Long, readMsr (writeMsr r msr v) msr = v ↔ Fits v) ∧
      ((∀ i < 64, i ≠ 0 → (writeMsr r msr (readMsr r msr ||| 1) msr).getLsbD i = (r msr).getLsbD i) ↔ Fits (r msr)) := by
  refine ⟨fun v => ?_, set_bit_zero_iff r msr⟩
  have hread := readMsr_eq_iff (writeMsr r msr v) msr
  rwa [writeMsr_self] at hread

/-- A word with bit 31 set and nothing above it comes back with all ones above, and to set bit 0 of a register that holds
it writes them there. -/
theorem read_msr_sign :
    readMsr (writeMsr (fun _ => 0) IA32_EFER 0x80000000) IA32_EFER = 0xFFFFFFFF80000000 ∧
      sysgateInit (fun _ => 0x80000000) 0 IA32_EFER = 0xFFFFFFFF80000001 ∧
      ¬ ∀ (r : Msrs) (msr : CInt) (v : Long), readMsr (writeMsr r msr v) msr = v := by
  have hread : readMsr (writeMsr (fun _ => 0) IA32_EFER 0x80000000) IA32_EFER = 0xFFFFFFFF80000000 := by decide
  refine ⟨hread, by decide, fun h => ?_⟩
  rw [h] at hread
  exact absurd hread (by decide)

/-- The first call enables `syscall` and leaves the rest of `IA32_EFER` alone, if that fits, and no other register
changes. -/
theorem sysgateInit_spec (r : Msrs) (gate : Long) (h : Fits (r IA32_EFER)) :
    sysgateInit r gate IA32_EFER = r IA32_EFER ||| 1 ∧ sysgateInit r gate IA32_LSTAR = gate ∧
      ∀ m, m ≠ IA32_EFER → m ≠ IA32_LSTAR → sysgateInit r gate m = r m := by
  have hne : IA32_EFER ≠ IA32_LSTAR := by decide
  unfold sysgateInit
  refine ⟨?_, writeMsr_self _ _ _, fun m h1 h2 => ?_⟩
  · rw [writeMsr_of_ne _ _ hne, writeMsr_self, (readMsr_eq_iff r IA32_EFER).mpr h]
  · rw [writeMsr_of_ne _ _ h2, writeMsr_of_ne _ _ h1]

end Gate
end OsLabs
