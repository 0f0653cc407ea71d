/-
# An address space of whole pages

What `mmap`, `munmap` and `mremap` do to the private anonymous mappings of a process:
they work on whole pages and round every length up. Where a mapping goes is the kernel's
choice, which is an argument here (`none` if it refuses); `Fault.kernel` marks a choice that
it cannot make. A system call returns an address or `-errno`, and `syscall.S`
passes that on as it is.

Key definitions: `mmap`, `munmap`, `mremap`.
-/
import Mathlib

namespace OsLabs
namespace Memory

/-- A `size_t`. -/
abbrev Word := BitVec 64

abbrev Byte := BitVec 8

abbrev PAGE : ℕ := 4096

/-- The user address space has 2^47 bytes. -/
abbrev PAGES : ℕ := 2 ^ 35

/-- How many pages `length` bytes take. -/
def pageCount (length : ℕ) : ℕ := (length + PAGE - 1) / PAGE

/-- Page `q` is one of the `n` pages from `p` on. -/
def Within (p n q : ℕ) : Prop := p ≤ q ∧ q < p + n

instance (p n : ℕ) : DecidablePred (Within p n) := fun _ => inferInstanceAs (Decidable (_ ∧ _))

theorem le_pageCount (length : ℕ) : length ≤ PAGE * pageCount length := by
  unfold pageCount PAGE
  omega

theorem pageCount_pos {length : ℕ} (h : 0 < length) : 0 < pageCount length := by
  unfold pageCount PAGE
  omega

theorem within_first {p n : ℕ} (h : 0 < n) : Within p n p := ⟨le_rfl, by omega⟩

/-- The pages that are mapped, and what the addresses hold. -/
structure Vm where
  mapped : ℕ → Bool
  bytes : ℕ → Byte

inductive Fault
  /-- An access to a page that is not mapped. -/
  | segv
  /-- The kernel cannot make this choice. -/
  | kernel
  /-- The client may not make this call. -/
  | client
  deriving DecidableEq, Repr

/-! ### The words of the memory -/

/-- The word at `a`, low byte first. -/
def load64 (m : ℕ → Byte) (a : ℕ) : Word :=
  m (a + 7) ++ m (a + 6) ++ m (a + 5) ++ m (a + 4) ++ m (a + 3) ++ m (a + 2) ++ m (a + 1) ++ m a

def store64 (m : ℕ → Byte) (a : ℕ) (w : Word) : ℕ → Byte := fun b =>
  if a ≤ b ∧ b < a + 8 then w.extractLsb' (8 * (b - a)) 8 else m b

theorem store64_byte (m : ℕ → Byte) (a : ℕ) (w : Word) {k : ℕ} (hk : k < 8) :
    store64 m a w (a + k) = w.extractLsb' (8 * k) 8 := by
  rw [store64, if_pos (by omega), Nat.add_sub_cancel_left]

theorem load64_store64 (m : ℕ → Byte) (a : ℕ) (w : Word) : load64 (store64 m a w) a = w := by
  have h0 : store64 m a w a = w.extractLsb' 0 8 := store64_byte m a w (k := 0) (by omega)
  simp only [load64, store64_byte m a w (show 7 < 8 by omega), store64_byte m a w (show 6 < 8 by omega),
    store64_byte m a w (show 5 < 8 by omega), store64_byte m a w (show 4 < 8 by omega),
    store64_byte m a w (show 3 < 8 by omega), store64_byte m a w (show 2 < 8 by omega),
    store64_byte m a w (show 1 < 8 by omega), h0]
  ext i hi
  simp only [BitVec.getElem_append, BitVec.getElem_extractLsb']
  grind

theorem store64_frame {m : ℕ → Byte} {a b : ℕ} (w : Word) (h : b < a ∨ a + 8 ≤ b) : store64 m a w b = m b :=
  if_neg (by omega)

theorem load64_congr {m m' : ℕ → Byte} {a : ℕ} (h : ∀ k < 8, m (a + k) = m' (a + k)) : load64 m a = load64 m' a := by
  have h0 : m a = m' a := h 0 (by omega)
  simp only [load64, h0, h 1, h 2, h 3, h 4, h 5, h 6, h 7, Nat.reduceLT]

/-- A word that does not touch another one. -/
theorem load64_store64_ne {m : ℕ → Byte} {a b : ℕ} (w : Word) (h : b + 8 ≤ a ∨ a + 8 ≤ b) : load64 (store64 m a w) b = load64 m b :=
  load64_congr fun k hk => store64_frame w (by omega)

theorem extract_load64 (m : ℕ → Byte) (a : ℕ) {k : ℕ} (hk : k < 8) : (load64 m a).extractLsb' (8 * k) 8 = m (a + k) := by
  apply BitVec.eq_of_getLsbD_eq
  intro i hi
  simp only [load64, BitVec.getLsbD_extractLsb', BitVec.getLsbD_append, hi, decide_true, Bool.true_and]
  interval_cases k <;> simp [hi] <;> grind

/-- To write what is there. -/
theorem store64_load64 {m : ℕ → Byte} {a : ℕ} {w : Word} (h : load64 m a = w) : store64 m a w = m := by
  funext x
  unfold store64
  split_ifs with hx
  · rw [← h, extract_load64 m a (by omega), Nat.add_sub_cancel' hx.1]
  · rfl

section

variable (v : Vm)

def Vm.load (a : ℕ) : Except Fault Word :=
  if v.mapped (a / PAGE) && v.mapped ((a + 7) / PAGE) then .ok (load64 v.bytes a) else .error .segv

def Vm.put (a : ℕ) (w : Word) : Vm := { v with bytes := store64 v.bytes a w }

def Vm.store (a : ℕ) (w : Word) : Except Fault Vm :=
  if v.mapped (a / PAGE) && v.mapped ((a + 7) / PAGE) then .ok (v.put a w) else .error .segv

/-! ### The system calls -/

abbrev ENOMEM : ℕ := 12
abbrev EFAULT : ℕ := 14
abbrev EINVAL : ℕ := 22

/-- What a call that fails returns: `-errno`. -/
def failed (errno : ℕ) : ℕ := 2 ^ 64 - errno

/-- None of `n` pages from `p` on is mapped. -/
def Vm.Free (p n : ℕ) : Prop := p + n ≤ PAGES ∧ ∀ k < n, v.mapped (p + k) = false

instance (p n : ℕ) : Decidable (v.Free p n) := inferInstanceAs (Decidable (_ ∧ _))

/-- New pages hold zeros. -/
def Vm.map (p n : ℕ) : Vm where
  mapped q := v.mapped q || decide (Within p n q)
  bytes a := if Within p n (a / PAGE) then 0 else v.bytes a

def Vm.unmap (p n : ℕ) : Vm := { v with mapped := fun q => v.mapped q && !decide (Within p n q) }

def mmap (length : ℕ) (grant : Option ℕ) : Except Fault (Vm × ℕ) :=
  if length = 0 then .ok (v, failed EINVAL)
  else
    match grant with
    | none => .ok (v, failed ENOMEM)
    | some p => if v.Free p (pageCount length) then .ok (v.map p (pageCount length), PAGE * p) else .error .kernel

/-- It is no error if some of the pages are not mapped. -/
def munmap (addr length : ℕ) : Vm × ℕ :=
  if addr % PAGE ≠ 0 ∨ length = 0 ∨ PAGE * PAGES < addr + length then (v, failed EINVAL)
  else (v.unmap (addr / PAGE) (pageCount length), 0)

/-- The `n` pages from `b` on are remapped to `m` pages from `p` on, which hold what they held, and zeros behind. -/
def Vm.remap (b n p m : ℕ) : Vm where
  mapped q := (v.unmap b n).mapped q || decide (Within p m q)
  bytes a :=
    if Within p m (a / PAGE) then if a - PAGE * p < PAGE * n then v.bytes (a - PAGE * p + PAGE * b) else 0
    else v.bytes a

/-- The kernel remaps in place if the pages behind are free, or to other pages, which are. -/
def Vm.CanRemap (b n p m : ℕ) : Prop :=
  p = b ∧ b + m ≤ PAGES ∧ (∀ k < m - n, v.mapped (b + n + k) = false) ∨ v.Free p m

instance (b n p m : ℕ) : Decidable (v.CanRemap b n p m) := inferInstanceAs (Decidable (_ ∨ _))

/-- With `MREMAP_MAYMOVE`. -/
def mremap (oldAddr oldSize newSize : ℕ) (grant : Option ℕ) : Except Fault (Vm × ℕ) :=
  if oldAddr % PAGE ≠ 0 ∨ oldSize = 0 ∨ newSize = 0 then .ok (v, failed EINVAL)
  else if ∃ k < pageCount oldSize, v.mapped (oldAddr / PAGE + k) = false then .ok (v, failed EFAULT)
  else
    match grant with
    | none => .ok (v, failed ENOMEM)
    | some p =>
      if v.CanRemap (oldAddr / PAGE) (pageCount oldSize) p (pageCount newSize) then
        .ok (v.remap (oldAddr / PAGE) (pageCount oldSize) p (pageCount newSize), PAGE * p)
      else .error .kernel

variable {v} {p n m b q a : ℕ}

theorem Vm.Free.unmapped (h : v.Free p n) (hq : Within p n q) : v.mapped q = false := by
  have := h.2 (q - p) (by unfold Within at hq; omega)
  rwa [show p + (q - p) = q by unfold Within at hq; omega] at this

/-- Every page of the new place is one of the old place or was free. -/
theorem Vm.CanRemap.unmapped (h : v.CanRemap b n p m) (hq : Within p m q) : (v.unmap b n).mapped q = false := by
  rcases h with ⟨rfl, -, hfree⟩ | hfree
  · by_cases hold : Within p n q
    · simp [Vm.unmap, hold]
    · have := hfree (q - (p + n)) (by unfold Within at hq hold; omega)
      rw [show p + n + (q - (p + n)) = q by unfold Within at hq hold; omega] at this
      simp [Vm.unmap, this]
  · simp [Vm.unmap, hfree.unmapped hq]

theorem Vm.CanRemap.fits (h : v.CanRemap b n p m) : p + m ≤ PAGES := by
  rcases h with ⟨rfl, hfit, -⟩ | hfree
  · exact hfit
  · exact hfree.1

/-- An access to a mapped page that has all the word's bytes. -/
theorem Vm.load_page (h : v.mapped p = true) : v.load (PAGE * p) = .ok (load64 v.bytes (PAGE * p)) := by
  have h1 : PAGE * p / PAGE = p := by unfold PAGE; omega
  have h2 : (PAGE * p + 7) / PAGE = p := by unfold PAGE; omega
  unfold Vm.load
  rw [h1, h2, h]
  rfl

theorem Vm.store_page (w : Word) (h : v.mapped p = true) :
    v.store (PAGE * p) w = .ok (v.put (PAGE * p) w) := by
  have h1 : PAGE * p / PAGE = p := by unfold PAGE; omega
  have h2 : (PAGE * p + 7) / PAGE = p := by unfold PAGE; omega
  unfold Vm.store
  rw [h1, h2, h]
  rfl

theorem mmap_some {length : ℕ} (hlen : 0 < length) : mmap v length (some p) =
    if v.Free p (pageCount length) then .ok (v.map p (pageCount length), PAGE * p) else .error .kernel := by
  unfold mmap
  rw [if_neg hlen.ne']

/-- Of pages that are all mapped. -/
theorem mremap_some {oldSize newSize : ℕ} (hold : 0 < oldSize) (hnew : 0 < newSize)
    (hmapped : ∀ q, Within b (pageCount oldSize) q → v.mapped q = true) :
    mremap v (PAGE * b) oldSize newSize (some p) =
      if v.CanRemap b (pageCount oldSize) p (pageCount newSize) then
        .ok (v.remap b (pageCount oldSize) p (pageCount newSize), PAGE * p)
      else .error .kernel := by
  have hall : ¬ ∃ k < pageCount oldSize, v.mapped (b + k) = false := by
    rintro ⟨k, hk, hn⟩
    rw [hmapped (b + k) ⟨by omega, by omega⟩] at hn
    exact absurd hn nofun
  unfold mremap
  rw [Nat.mul_mod_right, Nat.mul_div_cancel_left b (by decide), if_neg (by omega), if_neg hall]

end

end Memory
end OsLabs
