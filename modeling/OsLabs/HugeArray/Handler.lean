/-
# The fault handler of the huge array

`HandleSigsegv` of `memory/hugearray/handler.c`, for a fault at any address. It unmaps the page that it has mapped before,
maps the page of the fault in any case, whatever is there, and fills it as if it were a part of the array.

Memory is in cells of 8 bytes, each of them a `double`. What the kernel answers to the `mmap` is an argument; a store to a
page that cannot be written ends the process, since `SIGSEGV` is blocked in its handler, and `Except.error` has the process as
it was then. The root is any function of the `int` that `CalculateSqrts` computes it from.

Key definitions: `handleSigsegv`, `Framed`, `Spared`.
Key theorem: `handler_frames`.
-/
import OsLabs.Lib.Except

namespace OsLabs
namespace HugeArray

open Function (update)

/-- An address, a `size_t`. -/
abbrev Word := BitVec 64

/-- An `int`. -/
abbrev CInt := BitVec 32

abbrev Double := BitVec 64

/-- What a mapping allows. -/
structure Prot where
  read : Bool
  write : Bool
  deriving DecidableEq, Repr

/-- `PROT_READ | PROT_WRITE`. -/
def Prot.all : Prot := ⟨true, true⟩

abbrev MAX_SQRTS : ℕ := 2 ^ 27

/-- Where `Setup` has put the array: `PAGE_SIZE` is 8 times a power of two, and `SQRTS` the start of a page of the user's, with
room for the array behind it. -/
structure Table where
  exp : ℕ
  base : ℕ
  small : exp ≤ 27
  first : 0 < base
  room : 8 * 2 ^ exp * base + 8 * MAX_SQRTS ≤ 2 ^ 47

namespace Table

variable (T : Table)

/-- `PAGE_SIZE / sizeof(double)`. -/
def perPage : ℕ := 2 ^ T.exp

def pageSize : ℕ := 8 * T.perPage

/-- `PAGE_SIZE`. -/
def PAGE_SIZE : Word := BitVec.ofNat 64 T.pageSize

/-- `SQRTS`. -/
def SQRTS : Word := BitVec.ofNat 64 (T.pageSize * T.base)

/-- The page of an address. -/
def pageOf (a : Word) : ℕ := a.toNat / T.pageSize

/-- The pages that the array has. -/
def pages : ℕ := 2 ^ (27 - T.exp)

/-- The page is no part of the array. -/
def Outside (q : ℕ) : Prop := q < T.base ∨ T.base + T.pages ≤ q

instance : DecidablePred T.Outside := fun _ => inferInstanceAs (Decidable (_ ∨ _))

/-- The page is the user's. -/
def User (q : ℕ) : Prop := T.pageSize * q < 2 ^ 47

instance : DecidablePred T.User := fun _ => inferInstanceAs (Decidable (_ < _))

end Table

/-- The mappings by their pages, the memory, and the handler's `ptr`. -/
structure Process where
  page : ℕ → Option Prot
  cell : ℕ → Double
  ptr : Word

abbrev NULL : Word := 0

/-- `MAP_FAILED`. -/
abbrev MAP_FAILED : Word := -1

section

variable (T : Table) (sqrt : CInt → Double) (s : Process)

/-- Of one page. An address inside of a page is an error. -/
def munmap (addr : Word) : Process :=
  if addr.toNat % T.pageSize ≠ 0 then s else { s with page := update s.page (T.pageOf addr) none }

/-- With `MAP_FIXED`: whatever the page was, it is a new one. The kernel may refuse, and does so for pages that are not the user's. -/
def mmapFixed (addr : Word) (grant : Bool) : Process × Word :=
  if grant ∧ T.User (T.pageOf addr) then
    ({ s with
        page := update s.page (T.pageOf addr) (some .all)
        cell := fun c => if c / T.perPage = T.pageOf addr then 0 else s.cell c }, addr)
  else (s, MAP_FAILED)

/-- A store of a `double`. -/
def store (addr : Word) (v : Double) : Except Process Process :=
  if (s.page (T.pageOf addr)).any Prot.write then .ok { s with cell := update s.cell (addr.toNat / 8) v } else .error s

/-- `CalculateSqrts`, from `i` on with `n` to go. -/
def calculateSqrts (sqrtPos : Word) (start : CInt) : ℕ → ℕ → Process → Except Process Process
  | 0, _, s => .ok s
  | n + 1, i, s => do
    let s ← store T s (sqrtPos + BitVec.ofNat 64 (8 * i)) (sqrt (start + BitVec.ofNat 32 i))
    calculateSqrts sqrtPos start n (i + 1) s

/-- `(double*) ptr - SQRTS`, as the `int` that it is passed as. -/
def index (ptr : Word) : CInt := ((ptr - T.SQRTS).sshiftRight 3).setWidth 32

/-- `pg_start`. -/
def pgStart (siAddr : Word) : Word := siAddr &&& ~~~(T.PAGE_SIZE - 1)

def dropOld : Process := if s.ptr ≠ NULL then munmap T s s.ptr else s

def mapNew (siAddr : Word) (grant : Bool) : Process :=
  let (s, ptr) := mmapFixed T s (pgStart T siAddr) grant
  { s with ptr := ptr }

def handleSigsegv (siAddr : Word) (grant : Bool) : Except Process Process :=
  let s := dropOld T s
  let s := mapNew T s siAddr grant
  calculateSqrts T sqrt s.ptr (index T s.ptr) T.perPage 0 s

end

/-! ### Addresses -/

namespace Table

variable (T : Table)

theorem perPage_pos : 0 < T.perPage := Nat.two_pow_pos _

theorem pageSize_pos : 0 < T.pageSize := Nat.mul_pos (by decide) T.perPage_pos

theorem pages_mul : T.pages * T.perPage = MAX_SQRTS := by
  rw [pages, perPage, ← Nat.pow_add, Nat.sub_add_cancel T.small]

theorem perPage_le : T.perPage ≤ MAX_SQRTS := Nat.pow_le_pow_right (by decide) T.small

theorem pageSize_eq : T.pageSize = 2 ^ (T.exp + 3) := by
  rw [pageSize, perPage, Nat.pow_add, Nat.mul_comm]

theorem room' : T.pageSize * T.base + 8 * MAX_SQRTS ≤ 2 ^ 47 := T.room

/-- The start of the fault's page. -/
theorem pgStart_toNat (a : Word) : (pgStart T a).toNat = T.pageSize * T.pageOf a := by
  have hexp := T.small
  have hmask : (T.PAGE_SIZE - 1).toNat = 2 ^ (T.exp + 3) - 1 := by
    have hle : 2 ^ (T.exp + 3) ≤ 2 ^ 30 := Nat.pow_le_pow_right (by decide) (by omega)
    have hpos : 0 < 2 ^ (T.exp + 3) := Nat.two_pow_pos _
    rw [PAGE_SIZE, pageSize_eq, BitVec.toNat_sub, BitVec.toNat_ofNat, show (1 : Word).toNat = 1 from rfl]
    omega
  rw [pageOf, pageSize_eq, pgStart]
  apply Nat.eq_of_testBit_eq
  intro i
  have hbit : (T.PAGE_SIZE - 1).getLsbD i = decide (i < T.exp + 3) := by
    rw [← BitVec.testBit_toNat, hmask, Nat.testBit_two_pow_sub_one]
  rw [Nat.testBit_two_pow_mul, Nat.testBit_div_two_pow, BitVec.toNat_and, Nat.testBit_and, BitVec.testBit_toNat (~~~_),
    BitVec.getLsbD_not, hbit]
  by_cases hlow : i < T.exp + 3
  · simp [hlow]
  · rw [Nat.sub_add_cancel (by omega)]
    by_cases hi : i < 64
    · simp [hlow, hi, show T.exp + 3 ≤ i by omega]
    · have hhigh : a.toNat.testBit i = false :=
        Nat.testBit_lt_two_pow (a.isLt.trans_le (Nat.pow_le_pow_right (by decide) (by omega)))
      simp [hhigh]

theorem pageOf_pgStart (a : Word) : T.pageOf (pgStart T a) = T.pageOf a := by
  rw [pageOf, pgStart_toNat, Nat.mul_div_cancel_left _ T.pageSize_pos]

theorem SQRTS_toNat : T.SQRTS.toNat = T.pageSize * T.base := by
  have := T.room'
  rw [SQRTS, BitVec.toNat_ofNat]
  omega

theorem room_end : T.pageSize * T.base + 8 * MAX_SQRTS = T.pageSize * (T.base + T.pages) := by
  rw [← T.pages_mul, Nat.mul_add, pageSize]
  ring

/-- The array is the user's. -/
theorem user_of_inside {q : ℕ} (h : ¬ T.Outside q) : T.User q := by
  rw [Outside, not_or] at h
  have hq : q + 1 ≤ T.base + T.pages := by omega
  have hpos := T.pageSize_pos
  calc T.pageSize * q < T.pageSize * (q + 1) := Nat.mul_lt_mul_of_pos_left (Nat.lt_succ_self q) hpos
    _ ≤ T.pageSize * (T.base + T.pages) := Nat.mul_le_mul_left _ hq
    _ = T.pageSize * T.base + 8 * MAX_SQRTS := T.room_end.symm
    _ ≤ 2 ^ 47 := T.room'

/-- `MAP_FAILED` is no address of the user's. -/
theorem not_user_failed : ¬ T.User (T.pageOf MAP_FAILED) := by
  have hdiv := Nat.div_add_mod MAP_FAILED.toNat T.pageSize
  have hmod := Nat.mod_lt MAP_FAILED.toNat T.pageSize_pos
  have hlarge : MAP_FAILED.toNat = 2 ^ 64 - 1 := by decide
  have hsmall : T.pageSize ≤ 2 ^ 30 := (Nat.mul_le_mul_left 8 T.perPage_le).trans (by decide)
  unfold User pageOf
  omega

/-- A page has no part in the array, or is one of its. -/
theorem outside_iff (a : Word) : T.Outside (T.pageOf a) ↔
    a.toNat < T.pageSize * T.base ∨ T.pageSize * T.base + 8 * MAX_SQRTS ≤ a.toNat := by
  have hpos := T.pageSize_pos
  rw [Outside, pageOf, Nat.div_lt_iff_lt_mul hpos, Nat.le_div_iff_mul_le hpos, T.room_end, Nat.mul_comm T.base,
    Nat.mul_comm (T.base + T.pages)]

end Table

/-! ### What the handler does outside the array -/

/-- The process that a call ends with, by a return or by a signal. -/
def ended : Except Process Process → Process
  | .ok s => s
  | .error s => s

/-- Outside the array the mappings and the memory are the same. -/
structure Framed (T : Table) (s s' : Process) : Prop where
  page : ∀ q, T.Outside q → s'.page q = s.page q
  cell : ∀ c, T.Outside (c / T.perPage) → s'.cell c = s.cell c

/-- The process's mappings are the user's. -/
abbrev UserProcess (T : Table) := { s : Process // ∀ q, ¬ T.User q → s.page q = none }

/-- What `munmap` takes away is no mapping outside the array. -/
def Spared (T : Table) (s : Process) : Prop :=
  s.ptr = NULL ∨ s.ptr.toNat % T.pageSize ≠ 0 ∨ ¬ T.Outside (T.pageOf s.ptr) ∨ s.page (T.pageOf s.ptr) = none

section

variable {T : Table} {sqrt : CInt → Double} {s s' : Process}

/-- `CalculateSqrts` maps nothing. -/
theorem calculateSqrts_page (pos : Word) (start : CInt) : ∀ (n i : ℕ) (s : Process),
    (ended (calculateSqrts T sqrt pos start n i s)).page = s.page
  | 0, _, _ => rfl
  | n + 1, i, s => by
    unfold calculateSqrts store
    split_ifs
    · exact calculateSqrts_page pos start n (i + 1) _
    · rfl

theorem mapNew_granted {siAddr : Word} (hu : T.User (T.pageOf siAddr)) :
    (mapNew T s siAddr true).page = update s.page (T.pageOf siAddr) (some .all) := by
  unfold mapNew mmapFixed
  rw [T.pageOf_pgStart, if_pos ⟨rfl, hu⟩]

theorem mapNew_refused {siAddr : Word} {grant : Bool} (h : ¬ (grant = true ∧ T.User (T.pageOf siAddr))) :
    mapNew T s siAddr grant = { s with ptr := MAP_FAILED } := by
  unfold mapNew mmapFixed
  rw [T.pageOf_pgStart, if_neg h]

/-- The fault's page is mapped, wherever it is. -/
theorem handler_maps {siAddr : Word} (hu : T.User (T.pageOf siAddr)) :
    (ended (handleSigsegv T sqrt s siAddr true)).page (T.pageOf siAddr) = some .all := by
  unfold handleSigsegv
  dsimp only
  rw [calculateSqrts_page, mapNew_granted hu, Function.update_self]

/-- There is an old page: `ptr` is the address of a page. -/
def HasOld (T : Table) (s : Process) : Prop := s.ptr ≠ NULL ∧ s.ptr.toNat % T.pageSize = 0

instance (T : Table) (s : Process) : Decidable (HasOld T s) := inferInstanceAs (Decidable (_ ∧ _))

theorem dropOld_eq (T : Table) (s : Process) :
    dropOld T s = if HasOld T s then { s with page := update s.page (T.pageOf s.ptr) none } else s := by
  unfold dropOld munmap
  by_cases hptr : s.ptr = NULL
  · rw [if_neg (not_not.mpr hptr), if_neg fun h : HasOld T s => h.1 hptr]
  · rw [if_pos hptr]
    by_cases hstart : s.ptr.toNat % T.pageSize = 0
    · rw [if_neg (not_not.mpr hstart), if_pos (show HasOld T s from ⟨hptr, hstart⟩)]
    · rw [if_pos hstart, if_neg fun h : HasOld T s => hstart h.2]

/-- `munmap` adds no mapping. -/
theorem dropOld_user (h : ∀ q, ¬ T.User q → s.page q = none) (q : ℕ) (hq : ¬ T.User q) : (dropOld T s).page q = none := by
  rw [dropOld_eq]
  split_ifs
  · show update s.page (T.pageOf s.ptr) none q = none
    by_cases hqp : q = T.pageOf s.ptr
    · rw [hqp, Function.update_self]
    · rw [Function.update_of_ne hqp, h q hq]
  · exact h q hq

/-- The first root goes to `MAP_FAILED`: that is the end of the process. -/
theorem handler_dies (h : ∀ q, ¬ T.User q → s.page q = none) {siAddr : Word} {grant : Bool}
    (hrefused : ¬ (grant = true ∧ T.User (T.pageOf siAddr))) :
    handleSigsegv T sqrt s siAddr grant = .error { dropOld T s with ptr := MAP_FAILED } := by
  obtain ⟨n, hn⟩ : ∃ n, T.perPage = n + 1 := Nat.exists_eq_succ_of_ne_zero T.perPage_pos.ne'
  have hnone : (dropOld T s).page (T.pageOf MAP_FAILED) = none := dropOld_user h _ T.not_user_failed
  unfold handleSigsegv
  dsimp only
  rw [mapNew_refused hrefused, hn, calculateSqrts]
  dsimp only
  rw [Nat.mul_zero, show MAP_FAILED + BitVec.ofNat 64 0 = MAP_FAILED from by decide, store]
  dsimp only
  rw [hnone]
  rfl

/-- What `munmap` takes away outside the array. -/
theorem dropOld_framed_iff (ptr : Word) : Framed T s { dropOld T s with ptr := ptr } ↔ Spared T s := by
  rw [dropOld_eq]
  constructor
  · intro h
    by_contra hn
    simp only [Spared, not_or, not_not] at hn
    obtain ⟨hptr, hstart, hout, hmapped⟩ := hn
    rw [if_pos ⟨hptr, hstart⟩] at h
    have hpage : update s.page (T.pageOf s.ptr) none (T.pageOf s.ptr) = s.page (T.pageOf s.ptr) := h.page _ hout
    rw [Function.update_self] at hpage
    exact hmapped hpage.symm
  · intro h
    split_ifs with hold
    · refine ⟨fun q hq => ?_, fun c _ => rfl⟩
      show update s.page (T.pageOf s.ptr) none q = s.page q
      by_cases hqp : q = T.pageOf s.ptr
      · rw [hqp, Function.update_self]
        rcases h with hptr | hstart | hin | hnone
        · exact absurd hptr hold.1
        · exact absurd hold.2 hstart
        · exact absurd (hqp ▸ hq) hin
        · exact hnone.symm
      · rw [Function.update_of_ne hqp]
    · exact ⟨fun _ _ => rfl, fun _ _ => rfl⟩

/-- **Faults outside the array.** Whatever is mapped, and wherever the fault is outside the array: what is there stays as it is
exactly if the `mmap` is refused, which ends the process, and the page that is unmapped before is none outside the
array. -/
theorem handler_frames (T : Table) (sqrt : CInt → Double) (s : UserProcess T) (siAddr : Word) (grant : Bool)
    (hout : siAddr.toNat < T.SQRTS.toNat ∨ T.SQRTS.toNat + 8 * MAX_SQRTS ≤ siAddr.toNat)
    (hfault : s.1.page (T.pageOf siAddr) ≠ some .all) :
    Framed T s.1 (ended (handleSigsegv T sqrt s.1 siAddr grant)) ↔
      ¬ (grant = true ∧ T.User (T.pageOf siAddr)) ∧ Spared T s.1 := by
  have hpage : T.Outside (T.pageOf siAddr) := by
    rwa [T.outside_iff, ← T.SQRTS_toNat]
  by_cases hgrant : grant = true ∧ T.User (T.pageOf siAddr)
  · obtain ⟨rfl, hu⟩ := hgrant
    refine iff_of_false (fun h => ?_) fun h => h.1 ⟨rfl, hu⟩
    have hsame := h.page _ hpage
    rw [handler_maps hu] at hsame
    exact hfault hsame.symm
  · rw [handler_dies s.2 hgrant]
    exact (dropOld_framed_iff _).trans (and_iff_right hgrant).symm

/-- Pages of 4096 bytes, and the array from the page 16 on. -/
def table : Table := ⟨9, 16, by decide, by decide, by decide⟩

/-- The page 5 can be read. -/
def constants : UserProcess table where
  val := ⟨fun q => if q = 5 then some ⟨true, false⟩ else none, fun _ => 42, NULL⟩
  property q hq := if_neg fun he : q = 5 => hq (he ▸ (by decide : table.User 5))

theorem handler_frames_refused :
    Framed table constants.1 (ended (handleSigsegv table (fun _ => 0) constants.1 0x5008 false)) :=
  (handler_frames table (fun _ => 0) constants 0x5008 false (by decide) (by decide)).mpr ⟨by decide, Or.inl rfl⟩

/-- A store to a constant: the page of the constant becomes one that can be written. -/
theorem constants_mapped :
    (∀ sqrt, (ended (handleSigsegv table sqrt constants.1 0x5008 true)).page 5 = some .all) ∧
      ¬ ∀ (T : Table) (sqrt : CInt → Double) (s : UserProcess T) (siAddr : Word) (grant : Bool),
        siAddr.toNat < T.SQRTS.toNat ∨ T.SQRTS.toNat + 8 * MAX_SQRTS ≤ siAddr.toNat → s.1.page (T.pageOf siAddr) ≠ some .all →
        Framed T s.1 (ended (handleSigsegv T sqrt s.1 siAddr grant)) := by
  have hpage : table.pageOf 0x5008 = 5 := by decide
  have hmapped : ∀ sqrt, (ended (handleSigsegv table sqrt constants.1 0x5008 true)).page 5 = some .all := fun sqrt =>
    hpage ▸ handler_maps (hpage.symm ▸ (by decide : table.User 5))
  refine ⟨hmapped, fun h => ?_⟩
  have hframed := h table (fun _ => 0) constants 0x5008 true (by decide) (by decide)
  have hread : some Prot.all = some ⟨true, false⟩ := (hmapped fun _ => 0).symm.trans (hframed.page 5 (by decide))
  exact absurd hread (by decide)

end

end HugeArray
end OsLabs
