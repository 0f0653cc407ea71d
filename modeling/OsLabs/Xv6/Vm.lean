/-
# A process's memory, as its page table shows it

xv6 maps a process's own pages from address 0 to `PGROUNDUP(sz)`, writable and
open to user code, and the kernel from `KERNBASE` on (`kmap` in `vm.c`), which
only the kernel may touch but through the same addresses. A store of the
kernel through a pointer that a user chose lands in the one part or in the
other, or faults; and a fault in kernel mode is a panic (`trap.c`).

Key definitions: `kstore`, `fetchint`, `argptr`.
-/
import Mathlib

namespace OsLabs
namespace Xv6

abbrev Word := BitVec 32

abbrev Byte := BitVec 8

/-- What the addresses hold. -/
abbrev Memory := Word → Byte

/-- The addresses of the four bytes at `a`. -/
def bytes (a : Word) : List Word := [a, a + 1, a + 2, a + 3]

/-- The word at `a`, low byte first. -/
def load (m : Memory) (a : Word) : Word := m (a + 3) ++ m (a + 2) ++ m (a + 1) ++ m a

/-- Writes the word `w` at `a`. -/
def store (m : Memory) (a w : Word) : Memory := fun b =>
  if b = a then w.extractLsb' 0 8
  else if b = a + 1 then w.extractLsb' 8 8
  else if b = a + 2 then w.extractLsb' 16 8
  else if b = a + 3 then w.extractLsb' 24 8
  else m b

theorem load_store (m : Memory) (a w : Word) : load (store m a w) a = w := by
  have h1 : a + 1 ≠ a := by bv_omega
  have h2 : a + 2 ≠ a := by bv_omega
  have h3 : a + 3 ≠ a := by bv_omega
  have h21 : a + 2 ≠ a + 1 := by bv_omega
  have h31 : a + 3 ≠ a + 1 := by bv_omega
  have h32 : a + 3 ≠ a + 2 := by bv_omega
  unfold load store
  simp only [if_neg h1, if_neg h2, if_neg h3, if_neg h21, if_neg h31, if_neg h32]
  ext i hi
  simp only [BitVec.getElem_append]
  split_ifs <;> grind

/-- A store leaves every other byte alone. -/
theorem store_frame {m : Memory} {a w b : Word} (h : b ∉ bytes a) : store m a w b = m b := by
  simp only [bytes, List.mem_cons, List.not_mem_nil, or_false, not_or] at h
  unfold store
  rw [if_neg h.1, if_neg h.2.1, if_neg h.2.2.1, if_neg h.2.2.2]

/-! ### The address space -/

abbrev PGSIZE : ℕ := 4096
abbrev EXTMEM : ℕ := 0x100000
abbrev PHYSTOP : ℕ := 0xE000000
abbrev DEVSPACE : ℕ := 0xFE000000
abbrev KERNBASE : ℕ := 0x80000000
abbrev KERNLINK : ℕ := KERNBASE + EXTMEM

/-- The size of a process. `allocuvm` refuses to grow one to `KERNBASE`. -/
abbrev Size := { sz : Word // sz.toNat < KERNBASE }

/-- Where the linker put the end of the kernel's text, `data` in `kernel.ld`. -/
structure Kernel where
  data : ℕ
  text : KERNLINK ≤ data
  fits : data ≤ KERNBASE + PHYSTOP

def pgroundup (sz : ℕ) : ℕ := (sz + PGSIZE - 1) / PGSIZE * PGSIZE

theorem le_pgroundup (sz : ℕ) : sz ≤ pgroundup sz := by
  unfold pgroundup PGSIZE
  omega

/-- What the kernel may do with the byte at an address. -/
inductive Access
  | absent
  | readOnly
  | writable
  deriving DecidableEq, Repr

/-- The process's pages and then the four lines of `kmap`. -/
def access (k : Kernel) (sz : Size) (a : Word) : Access :=
  let a := a.toNat
  if a < pgroundup sz.1.toNat then .writable
  else if KERNBASE ≤ a ∧ a < KERNLINK then .writable
  else if KERNLINK ≤ a ∧ a < k.data then .readOnly
  else if k.data ≤ a ∧ a < KERNBASE + PHYSTOP then .writable
  else if DEVSPACE ≤ a then .writable
  else .absent

/-- How the kernel stops. -/
inductive Panic
  | trap
  deriving DecidableEq, Repr

/-- The kernel can store a word at `a`: it ends below 2^32, and each of its bytes is
mapped writable. -/
def Storable (k : Kernel) (sz : Size) (a : Word) : Prop :=
  a.toNat + 4 ≤ 2 ^ 32 ∧ (bytes a).all (access k sz · = .writable)

instance (k : Kernel) (sz : Size) (a : Word) : Decidable (Storable k sz a) := inferInstanceAs (Decidable (_ ∧ _))

/-- `*(uint*)a = w` in the kernel; where it cannot be stored, nothing is. -/
def kstore (k : Kernel) (sz : Size) (m : Memory) (a w : Word) : Except Panic Memory :=
  if Storable k sz a then .ok (store m a w) else .error .trap

/-- The four bytes at `a` are the process's own. -/
def Inside (sz : Size) (a : Word) : Prop := a.toNat + 4 ≤ sz.1.toNat

instance (sz : Size) (a : Word) : Decidable (Inside sz a) := inferInstanceAs (Decidable (_ ≤ _))

/-- A word is the process's own exactly if each of its bytes is. -/
theorem inside_iff (sz : Size) (a : Word) (hfit : a.toNat + 4 ≤ 2 ^ 32) :
    Inside sz a ↔ ∀ b ∈ bytes a, b.toNat < sz.1.toNat := by
  have h3 : (a + 3).toNat = a.toNat + 3 := by bv_omega
  constructor
  · intro h b hb
    unfold Inside at h
    simp only [bytes, List.mem_cons, List.not_mem_nil, or_false] at hb
    rcases hb with rfl | rfl | rfl | rfl <;> bv_omega
  · intro h
    have := h (a + 3) (by simp [bytes])
    unfold Inside
    omega

/-- The four bytes at `a` lie in the process's own pages. -/
def OwnPages (sz : Size) (a : Word) : Prop := a.toNat + 4 ≤ pgroundup sz.1.toNat

instance (sz : Size) (a : Word) : Decidable (OwnPages sz a) := inferInstanceAs (Decidable (_ ≤ _))

theorem Inside.ownPages {sz : Size} {a : Word} (h : Inside sz a) : OwnPages sz a := h.trans (le_pgroundup _)

/-- The kernel may store into the process's own pages. -/
theorem OwnPages.storable {sz : Size} {a : Word} (h : OwnPages sz a) (k : Kernel) : Storable k sz a := by
  have hsz := sz.2
  have hfit : a.toNat + 4 ≤ 2 ^ 32 := by
    unfold OwnPages pgroundup PGSIZE at h
    unfold KERNBASE at hsz
    omega
  refine ⟨hfit, List.all_eq_true.mpr fun b hb => decide_eq_true (if_pos ?_)⟩
  unfold OwnPages at h
  simp only [bytes, List.mem_cons, List.not_mem_nil, or_false] at hb
  rcases hb with rfl | rfl | rfl | rfl <;> bv_omega

theorem kstore_own (k : Kernel) {sz : Size} {a : Word} (h : OwnPages sz a) (m : Memory) (w : Word) :
    kstore k sz m a w = .ok (store m a w) := if_pos (h.storable k)

theorem kstore_inside (k : Kernel) {sz : Size} {a : Word} (h : Inside sz a) (m : Memory) (w : Word) :
    kstore k sz m a w = .ok (store m a w) := kstore_own k h.ownPages m w

theorem kstore_ok {k : Kernel} {sz : Size} {a w : Word} {m m' : Memory} (h : kstore k sz m a w = .ok m') :
    Storable k sz a ∧ m' = store m a w := by
  unfold kstore at h
  split_ifs at h with hw
  exact ⟨hw, (Except.ok.inj h).symm⟩

/-! ### The arguments of a system call -/

/-- Fetches the int at `addr` of a process of size `sz`. -/
def fetchint (sz : Size) (m : Memory) (addr : Word) : Option Word :=
  if sz.1 ≤ addr ∨ sz.1 < addr + 4 then none else some (load m addr)

/-- The `n`th argument; `esp` points at the return address of the stub. -/
def argint (sz : Size) (m : Memory) (esp : Word) (n : ℕ) : Option Word :=
  fetchint sz m (esp + 4 + 4 * BitVec.ofNat 32 n)

/-- The `n`th argument as a pointer to `size` bytes of the process. -/
def argptr (sz : Size) (m : Memory) (esp : Word) (n size : ℕ) : Option Word := do
  let i ← argint sz m esp n
  if sz.1 ≤ i ∨ sz.1 < i + BitVec.ofNat 32 size then none else some i

end Xv6
end OsLabs
