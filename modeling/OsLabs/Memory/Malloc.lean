/-
# The malloc library

`malloc.c`. A block is a mapping of its own whose first word is the header: the requested
size and the header's own 8 bytes. The client calls the three functions on live
blocks and writes into them, and other code of the process maps and unmaps pages of
its own in between.

`live` records the blocks that the client has, with the sizes it asked for; `other` the pages that
the library has not mapped. No function of the library reads either of them.

Key definitions: `malloc`, `realloc`, `free`, `step`, `Sound`, `Effect`.
-/
import OsLabs.Lib.Run
import OsLabs.Memory.Pages

namespace OsLabs
namespace Memory

open Run
open Function (update)

/-! ### The three functions -/

section

variable (v : Vm)

def malloc (size : Word) (grant : Option ℕ) : Except Fault (Vm × ℕ) := do
  let (v, ptr) ← mmap v (size + 8).toNat grant
  let v ← v.store ptr (size + 8)
  return (v, ptr + 8)

def free (ptr : ℕ) : Except Fault Vm := do
  let allocatedSize ← v.load (ptr - 8)
  return (munmap v (ptr - 8) allocatedSize.toNat).1

/-- `MAP_FAILED`. -/
abbrev MAP_FAILED : ℕ := 2 ^ 64 - 1

/-- It returns `NULL` if `mremap` has returned `MAP_FAILED`. -/
def realloc (ptr : ℕ) (size : Word) (grant : Option ℕ) : Except Fault (Vm × ℕ) := do
  let allocatedSize ← v.load (ptr - 8)
  let (v, newPtr) ← mremap v (ptr - 8) allocatedSize.toNat (size + 8).toNat grant
  if newPtr = MAP_FAILED then return (v, 0)
  let v ← v.store newPtr (size + 8)
  return (v, newPtr + 8)

end

/-! ### The client -/

/-- A size that fits the user address space with its header. -/
abbrev Size := { size : Word // size.toNat + 8 < 2 ^ 47 }

structure State where
  vm : Vm
  live : ℕ → Option Size
  other : ℕ → Bool
  -- what the last call has returned
  ret : ℕ

/-- A call, with the page the kernel grants, or a write; or other code maps or unmaps a page. -/
inductive Event
  | malloc (size : Size) (page : ℕ)
  | realloc (ptr : ℕ) (size : Size) (page : ℕ)
  | free (ptr : ℕ)
  | write (ptr off : ℕ) (value : Byte)
  | mapOther (page : ℕ)
  | unmapOther (page : ℕ)

/-- Everything that is mapped is other code's. -/
def init (vm : Vm) : State := ⟨vm, fun _ => none, vm.mapped, 0⟩

def step (s : State) : Event → Except Fault State
  | .malloc size page => do
    let (vm, p) ← malloc s.vm size.1 (some page)
    return { s with vm := vm, live := update s.live p (some size), ret := p }
  | .realloc ptr size page =>
    match s.live ptr with
    | none => .error .client
    | some _ => do
      let (vm, p) ← realloc s.vm ptr size.1 (some page)
      -- on failure the block stays
      return { s with
        vm := vm
        live := if p = 0 then s.live else update (update s.live ptr none) p (some size)
        ret := p }
  | .free ptr =>
    match s.live ptr with
    | none => .error .client
    | some _ => do
      let vm ← free s.vm ptr
      return { s with vm := vm, live := update s.live ptr none }
  | .write ptr off value =>
    match s.live ptr with
    | none => .error .client
    | some size =>
      if ¬ off < size.1.toNat then .error .client
      else if s.vm.mapped ((ptr + off) / PAGE) then
        .ok { s with vm := { s.vm with bytes := update s.vm.bytes (ptr + off) value } }
      else .error .segv
  | .mapOther page =>
    if s.vm.Free page 1 then .ok { s with vm := s.vm.map page 1, other := update s.other page true }
    else .error .kernel
  | .unmapOther page =>
    if s.other page then .ok { s with vm := s.vm.unmap page 1, other := update s.other page false }
    else .error .client

/-! ### What the client may rely on -/

/-- The page `q` belongs to the block at `a`, as its header says. -/
def State.Owns (s : State) (a q : ℕ) : Prop :=
  Within ((a - 8) / PAGE) (pageCount (load64 s.vm.bytes (a - 8)).toNat) q

/-- The live blocks' page ranges are disjoint, each header is the requested size and 8, and the mapped pages are
those that the headers cover and the other code's. -/
structure Sound (s : State) : Prop where
  header : ∀ a size, s.live a = some size → (load64 s.vm.bytes (a - 8)).toNat = size.1.toNat + 8
  apart : ∀ a b, (s.live a).isSome → (s.live b).isSome → a ≠ b → ∀ q, ¬ (s.Owns a q ∧ s.Owns b q)
  mapped : ∀ q, s.vm.mapped q = true ↔ s.other q = true ∨ ∃ a, (s.live a).isSome ∧ s.Owns a q
  foreign : ∀ q a, s.other q = true → (s.live a).isSome → ¬ s.Owns a q

/-- The live blocks but the one at `ptr` stay what they are. -/
def Undisturbed (s s' : State) (ptr : Option ℕ) : Prop :=
  ∀ a size, s.live a = some size → some a ≠ ptr →
    s'.live a = some size ∧ ∀ i < size.1.toNat, s'.vm.bytes (a + i) = s.vm.bytes (a + i)

/-- What an event does: `malloc` and `realloc` return a block that no other live block is, `realloc` keeps the bytes
that old and new block have in common, and `free` unmaps the block's pages and no others. -/
def Effect (s : State) : Event → State → Prop
  | .malloc size _, s' => Undisturbed s s' none ∧ s.live s'.ret = none ∧ s'.live s'.ret = some size
  | .realloc ptr size _, s' =>
    Undisturbed s s' (some ptr) ∧ (s'.ret = ptr ∨ s.live s'.ret = none ∧ s'.live ptr = none) ∧
      s'.live s'.ret = some size ∧ ∀ old, s.live ptr = some old → ∀ i < min old.1.toNat size.1.toNat,
        s'.vm.bytes (s'.ret + i) = s.vm.bytes (ptr + i)
  | .free ptr, s' =>
    Undisturbed s s' (some ptr) ∧ s'.live ptr = none ∧
      ∀ q, s'.vm.mapped q = true ↔ s.vm.mapped q = true ∧ ¬ s.Owns ptr q
  | .write ptr _ _, s' => Undisturbed s s' (some ptr) ∧ s'.live ptr = s.live ptr
  | .mapOther _, s' | .unmapOther _, s' => Undisturbed s s' none

/-! ### Blocks -/

/-- The pages of a block of this size. -/
def pagesOf (size : Size) : ℕ := pageCount (size.1.toNat + 8)

/-- The page `q` belongs to the block of this size at `a`. -/
def Block (a : ℕ) (size : Size) (q : ℕ) : Prop := Within ((a - 8) / PAGE) (pagesOf size) q

/-- What every event preserves. -/
structure Inv (s : State) : Prop where
  shape : ∀ a size, s.live a = some size → ∃ p, a = PAGE * p + 8 ∧ p + pagesOf size ≤ PAGES
  header : ∀ a size, s.live a = some size → load64 s.vm.bytes (a - 8) = size.1 + 8
  apart : ∀ a b m n, s.live a = some m → s.live b = some n → a ≠ b → ∀ q, Block a m q → ¬ Block b n q
  mapped : ∀ q, s.vm.mapped q = true ↔ s.other q = true ∨ ∃ a size, s.live a = some size ∧ Block a size q
  foreign : ∀ q a size, s.other q = true → s.live a = some size → ¬ Block a size q

theorem Size.toNat_add (size : Size) : (size.1 + 8).toNat = size.1.toNat + 8 := by
  have h1 : (size.1 + 8).toNat = (size.1.toNat + 8) % 2 ^ 64 := BitVec.toNat_add size.1 8
  have h2 := size.2
  omega

theorem pagesOf_pos (size : Size) : 0 < pagesOf size := pageCount_pos (Nat.succ_pos _)

theorem init_inv (vm : Vm) : Inv (init vm) :=
  ⟨fun _ _ => nofun, fun _ _ => nofun, fun _ _ _ _ => nofun, fun q => by simp [init], fun _ _ _ _ => nofun⟩

section

variable {s s' : State} {a b p q : ℕ} {size old : Size}

theorem block_ptr : Block (PAGE * p + 8) size q ↔ Within p (pagesOf size) q := by
  unfold Block
  rw [Nat.add_sub_cancel, Nat.mul_div_cancel_left p (by decide)]

/-- The bytes of a block, with its header, lie in its pages. -/
theorem Inv.block_mem (h : Inv s) (hl : s.live a = some size) {k : ℕ} (hk : k < size.1.toNat + 8) :
    Block a size ((a - 8 + k) / PAGE) := by
  obtain ⟨p, rfl, -⟩ := h.shape a size hl
  have hle := le_pageCount (size.1.toNat + 8)
  rw [block_ptr, Nat.add_sub_cancel]
  unfold Within pagesOf PAGE at *
  omega

theorem Inv.block_mapped (h : Inv s) (hl : s.live a = some size) (hq : Block a size q) : s.vm.mapped q = true :=
  (h.mapped q).mpr (Or.inr ⟨a, size, hl, hq⟩)

theorem Inv.owns (h : Inv s) (hl : s.live a = some size) : s.Owns a q ↔ Block a size q := by
  unfold State.Owns Block pagesOf
  rw [h.header a size hl, size.toNat_add]

theorem Inv.sound (h : Inv s) : Sound s := by
  refine ⟨fun a size hl => ?_, fun a b ha hb hab q => ?_, fun q => ?_, fun q a hq ha => ?_⟩
  · rw [h.header a size hl, size.toNat_add]
  · obtain ⟨m, hm⟩ := Option.isSome_iff_exists.mp ha
    obtain ⟨n, hn⟩ := Option.isSome_iff_exists.mp hb
    rw [h.owns hm, h.owns hn, not_and]
    exact h.apart a b m n hm hn hab q
  · rw [h.mapped]
    refine or_congr_right (exists_congr fun a => ⟨?_, ?_⟩)
    · rintro ⟨size, hl, hq⟩
      exact ⟨Option.isSome_iff_exists.mpr ⟨size, hl⟩, (h.owns hl).mpr hq⟩
    · rintro ⟨ha, hq⟩
      obtain ⟨size, hl⟩ := Option.isSome_iff_exists.mp ha
      exact ⟨size, hl, (h.owns hl).mp hq⟩
  · obtain ⟨size, hl⟩ := Option.isSome_iff_exists.mp ha
    rw [h.owns hl]
    exact h.foreign q a size hq hl

/-- A block goes with its pages. -/
def State.drop (s : State) (a : ℕ) (size : Size) : State :=
  { s with vm := s.vm.unmap ((a - 8) / PAGE) (pagesOf size), live := update s.live a none }

theorem drop_live (s : State) (size : Size) {m : Size} (hb : (s.drop a size).live b = some m) :
    b ≠ a ∧ s.live b = some m := by
  have hb : update s.live a none b = some m := hb
  by_cases hba : b = a
  · rw [hba, Function.update_self] at hb
    exact absurd hb nofun
  · rw [Function.update_of_ne hba] at hb
    exact ⟨hba, hb⟩

theorem drop_mapped (s : State) (size : Size) :
    (s.drop a size).vm.mapped q = true ↔ s.vm.mapped q = true ∧ ¬ Block a size q := by
  simp [State.drop, Vm.unmap, Block]

theorem Inv.drop (h : Inv s) (hl : s.live a = some size) : Inv (s.drop a size) := by
  refine ⟨fun b m hb => h.shape b m (drop_live s size hb).2, fun b m hb => h.header b m (drop_live s size hb).2,
    fun b c m n hb hc => h.apart b c m n (drop_live s size hb).2 (drop_live s size hc).2, fun q => ?_,
    fun q b m hq hb => h.foreign q b m hq (drop_live s size hb).2⟩
  rw [drop_mapped, h.mapped]
  constructor
  · rintro ⟨hq | ⟨b, m, hb, hq⟩, hna⟩
    · exact Or.inl hq
    · have hba : b ≠ a := by
        rintro rfl
        rw [hl] at hb
        cases hb
        exact hna hq
      refine Or.inr ⟨b, m, ?_, hq⟩
      show update s.live a none b = some m
      rw [Function.update_of_ne hba, hb]
  · rintro (hq | ⟨b, m, hb, hq⟩)
    · exact ⟨Or.inl hq, h.foreign q a size hq hl⟩
    · obtain ⟨hba, hb⟩ := drop_live s size hb
      exact ⟨Or.inr ⟨b, m, hb, hq⟩, h.apart b a m size hb hl hba q hq⟩

/-- A block comes to pages that were not mapped, and the memory is otherwise left alone. -/
structure Adds (s s' : State) (p : ℕ) (size : Size) : Prop where
  unmapped : ∀ q, Within p (pagesOf size) q → s.vm.mapped q = false
  fits : p + pagesOf size ≤ PAGES
  live : s'.live = update s.live (PAGE * p + 8) (some size)
  other : s'.other = s.other
  mapped : ∀ q, s'.vm.mapped q = true ↔ s.vm.mapped q = true ∨ Within p (pagesOf size) q
  bytes : ∀ a, ¬ Within p (pagesOf size) (a / PAGE) → s'.vm.bytes a = s.vm.bytes a
  header : load64 s'.vm.bytes (PAGE * p) = size.1 + 8

/-- The bytes of the blocks that were there are in other pages. -/
theorem Adds.bytes_eq (hadd : Adds s s' p size) (h : Inv s) {m : Size} (hl : s.live a = some m) {k : ℕ}
    (hk : k < m.1.toNat + 8) : s'.vm.bytes (a - 8 + k) = s.vm.bytes (a - 8 + k) := by
  refine hadd.bytes _ fun hq => ?_
  have hmapped := h.block_mapped hl (h.block_mem hl hk)
  rw [hadd.unmapped _ hq] at hmapped
  exact absurd hmapped nofun

/-- The new block is none of those that were there. -/
theorem Adds.fresh (hadd : Adds s s' p size) (h : Inv s) : s.live (PAGE * p + 8) = none := by
  by_contra hn
  obtain ⟨m, hm⟩ := Option.ne_none_iff_exists'.mp hn
  have hmapped := h.block_mapped hm (block_ptr.mpr (within_first (pagesOf_pos m)))
  rw [hadd.unmapped p (within_first (pagesOf_pos size))] at hmapped
  exact absurd hmapped nofun

theorem Adds.cases (hadd : Adds s s' p size) {m : Size} (hl : s'.live a = some m) :
    a = PAGE * p + 8 ∧ m = size ∨ s.live a = some m := by
  rw [hadd.live] at hl
  by_cases hap : a = PAGE * p + 8
  · rw [hap, Function.update_self] at hl
    exact Or.inl ⟨hap, (Option.some.inj hl).symm⟩
  · rw [Function.update_of_ne hap] at hl
    exact Or.inr hl

theorem Adds.inv (hadd : Adds s s' p size) (h : Inv s) : Inv s' := by
  have hnew : ∀ a m q, s.live a = some m → Block a m q → ¬ Within p (pagesOf size) q := fun a m q hl hq hn => by
    have hmapped := h.block_mapped hl hq
    rw [hadd.unmapped q hn] at hmapped
    exact absurd hmapped nofun
  refine ⟨fun a m hl => ?_, fun a m hl => ?_, fun a b m n ha hb hab q hq => ?_, fun q => ?_, fun q a m hq hl => ?_⟩
  · rcases hadd.cases hl with ⟨rfl, rfl⟩ | hl
    · exact ⟨p, rfl, hadd.fits⟩
    · exact h.shape a m hl
  · rcases hadd.cases hl with ⟨rfl, rfl⟩ | hl
    · rw [Nat.add_sub_cancel]
      exact hadd.header
    · rw [← h.header a m hl]
      exact load64_congr fun k hk => hadd.bytes_eq h hl (by omega)
  · rcases hadd.cases ha with ⟨rfl, rfl⟩ | ha <;> rcases hadd.cases hb with ⟨rfl, rfl⟩ | hb
    · exact absurd rfl hab
    · exact fun hn => hnew b n q hb hn (block_ptr.mp hq)
    · exact fun hn => hnew a m q ha hq (block_ptr.mp hn)
    · exact h.apart a b m n ha hb hab q hq
  · rw [hadd.mapped, h.mapped, hadd.other, or_assoc]
    refine or_congr_right ⟨?_, ?_⟩
    · rintro (⟨a, m, hl, hq⟩ | hq)
      · refine ⟨a, m, ?_, hq⟩
        rw [hadd.live, Function.update_of_ne ?_, hl]
        rintro rfl
        rw [hadd.fresh h] at hl
        exact absurd hl nofun
      · exact ⟨PAGE * p + 8, size, by rw [hadd.live, Function.update_self], block_ptr.mpr hq⟩
    · rintro ⟨a, m, hl, hq⟩
      rcases hadd.cases hl with ⟨rfl, rfl⟩ | hl
      · exact Or.inr (block_ptr.mp hq)
      · exact Or.inl ⟨a, m, hl, hq⟩
  · rw [hadd.other] at hq
    rcases hadd.cases hl with ⟨rfl, rfl⟩ | hl
    · intro hn
      have hmapped := (h.mapped q).mpr (Or.inl hq)
      rw [hadd.unmapped q (block_ptr.mp hn)] at hmapped
      exact absurd hmapped nofun
    · exact h.foreign q a m hq hl

theorem Adds.undisturbed (hadd : Adds s s' p size) (h : Inv s) : Undisturbed s s' none := by
  intro a m hl _
  have hap : a ≠ PAGE * p + 8 := by
    rintro rfl
    rw [hadd.fresh h] at hl
    exact absurd hl nofun
  refine ⟨by rw [hadd.live, Function.update_of_ne hap, hl], fun i hi => ?_⟩
  obtain ⟨r, rfl, -⟩ := h.shape a m hl
  have := hadd.bytes_eq h hl (k := 8 + i) (by omega)
  rwa [show PAGE * r + 8 - 8 + (8 + i) = PAGE * r + 8 + i by omega] at this

/-! ### What the functions do -/

theorem page_ne_failed (p : ℕ) : PAGE * p ≠ MAP_FAILED := by
  unfold PAGE MAP_FAILED
  omega

/-- The end of both functions: the header goes to the first page, and the pointer is behind it. -/
theorem Vm.store_header {v : Vm} (w : Word) (hmapped : v.mapped p = true) :
    (v.store (PAGE * p) w >>= fun v => .ok (v, PAGE * p + 8)) = .ok (v.put (PAGE * p) w, PAGE * p + 8) := by
  rw [Vm.store_page w hmapped]
  rfl

theorem malloc_eq (v : Vm) (size : Size) (p : ℕ) : malloc v size.1 (some p) =
    if v.Free p (pagesOf size) then .ok ((v.map p (pagesOf size)).put (PAGE * p) (size.1 + 8), PAGE * p + 8)
    else .error .kernel := by
  have hmapped : (v.map p (pagesOf size)).mapped p = true := by
    simp [Vm.map, within_first (pagesOf_pos size)]
  unfold malloc
  rw [size.toNat_add, mmap_some (Nat.succ_pos _), ← pagesOf]
  split_ifs
  · exact Vm.store_header (size.1 + 8) hmapped
  · rfl

theorem Inv.load_header (h : Inv s) (hl : s.live a = some size) : s.vm.load (a - 8) = .ok (size.1 + 8) := by
  have hfirst : Block a size ((a - 8) / PAGE) := within_first (pagesOf_pos size)
  obtain ⟨p, rfl, -⟩ := h.shape a size hl
  rw [← h.header _ size hl]
  rw [Nat.add_sub_cancel, Nat.mul_div_cancel_left p (by decide)] at *
  exact Vm.load_page (h.block_mapped hl hfirst)

theorem Inv.free_eq (h : Inv s) (hl : s.live a = some size) :
    free s.vm a = .ok (s.vm.unmap ((a - 8) / PAGE) (pagesOf size)) := by
  have hload := h.load_header hl
  obtain ⟨p, rfl, hfits⟩ := h.shape a size hl
  have hle := le_pageCount (size.1.toNat + 8)
  unfold free
  rw [hload]
  show Except.ok (munmap s.vm (PAGE * p + 8 - 8) (size.1 + 8).toNat).1 = _
  rw [size.toNat_add, munmap, if_neg (by unfold pagesOf PAGE PAGES at *; omega)]
  rfl

theorem Inv.realloc_eq (h : Inv s) (hl : s.live a = some old) (size : Size) (p : ℕ) : realloc s.vm a size.1 (some p) =
    if s.vm.CanRemap ((a - 8) / PAGE) (pagesOf old) p (pagesOf size) then
      .ok ((s.vm.remap ((a - 8) / PAGE) (pagesOf old) p (pagesOf size)).put (PAGE * p) (size.1 + 8), PAGE * p + 8)
    else .error .kernel := by
  have hload := h.load_header hl
  obtain ⟨r, rfl, -⟩ := h.shape a old hl
  rw [Nat.add_sub_cancel, Nat.mul_div_cancel_left r (by decide)] at *
  have hold : ∀ q, Within r (pagesOf old) q → s.vm.mapped q = true := fun q hq => h.block_mapped hl (block_ptr.mpr hq)
  have hmapped : (s.vm.remap r (pagesOf old) p (pagesOf size)).mapped p = true := by
    simp [Vm.remap, within_first (pagesOf_pos size)]
  unfold realloc
  rw [Nat.add_sub_cancel, hload]
  show (mremap s.vm (PAGE * r) (old.1 + 8).toNat (size.1 + 8).toNat (some p) >>= fun x =>
    if x.2 = MAP_FAILED then .ok (x.1, 0) else x.1.store x.2 (size.1 + 8) >>= fun v => .ok (v, x.2 + 8)) = _
  rw [old.toNat_add, size.toNat_add, mremap_some (Nat.succ_pos _) (Nat.succ_pos _) hold, ← pagesOf, ← pagesOf]
  split_ifs
  · show (if PAGE * p = MAP_FAILED then .ok (s.vm.remap r (pagesOf old) p (pagesOf size), 0)
      else (s.vm.remap r (pagesOf old) p (pagesOf size)).store (PAGE * p) (size.1 + 8) >>= fun v =>
        .ok (v, PAGE * p + 8)) = _
    rw [if_neg (page_ne_failed p)]
    exact Vm.store_header (size.1 + 8) hmapped
  · rfl

/-! ### Every event -/

theorem put_frame (v : Vm) (w : Word) {r : ℕ} (h : r / PAGE ≠ p) : (v.put (PAGE * p) w).bytes r = v.bytes r :=
  store64_frame w (by unfold PAGE at *; omega)

/-- Writing the header of a block that has come to its pages. -/
theorem Adds.mk_put {v : Vm} (hunmapped : ∀ q, Within p (pagesOf size) q → s.vm.mapped q = false)
    (hfits : p + pagesOf size ≤ PAGES) (hvm : s'.vm = v.put (PAGE * p) (size.1 + 8))
    (hlive : s'.live = update s.live (PAGE * p + 8) (some size)) (hother : s'.other = s.other)
    (hmapped : ∀ q, v.mapped q = true ↔ s.vm.mapped q = true ∨ Within p (pagesOf size) q)
    (hbytes : ∀ a, ¬ Within p (pagesOf size) (a / PAGE) → v.bytes a = s.vm.bytes a) : Adds s s' p size := by
  refine ⟨hunmapped, hfits, hlive, hother, by rwa [hvm], fun a ha => ?_, ?_⟩
  · have hap : a / PAGE ≠ p := by
      rintro rfl
      exact ha (within_first (pagesOf_pos size))
    rw [hvm, put_frame v _ hap]
    exact hbytes a ha
  · rw [hvm]
    exact load64_store64 _ _ _

theorem adds_malloc (hfree : s.vm.Free p (pagesOf size)) :
    Adds s { s with
      vm := (s.vm.map p (pagesOf size)).put (PAGE * p) (size.1 + 8)
      live := update s.live (PAGE * p + 8) (some size)
      ret := PAGE * p + 8 } p size :=
  Adds.mk_put (fun _ hq => hfree.unmapped hq) hfree.1 rfl rfl rfl (fun _ => by simp [Vm.map]) fun _ ha => if_neg ha

/-- The old block goes and the new one comes. -/
theorem adds_realloc (hcan : s.vm.CanRemap ((a - 8) / PAGE) (pagesOf old) p (pagesOf size)) :
    Adds (s.drop a old) { s with
      vm := (s.vm.remap ((a - 8) / PAGE) (pagesOf old) p (pagesOf size)).put (PAGE * p) (size.1 + 8)
      live := update (update s.live a none) (PAGE * p + 8) (some size)
      ret := PAGE * p + 8 } p size :=
  Adds.mk_put (fun _ hq => hcan.unmapped hq) hcan.fits rfl rfl rfl (fun _ => by simp [Vm.remap, State.drop])
    fun _ ha => if_neg ha

/-- The bytes that both blocks have. -/
theorem remap_bytes (v : Vm) {r i : ℕ} (hold : i < old.1.toNat) (hnew : i < size.1.toNat) :
    ((v.remap r (pagesOf old) p (pagesOf size)).put (PAGE * p) (size.1 + 8)).bytes (PAGE * p + 8 + i) =
      v.bytes (PAGE * r + 8 + i) := by
  have hle := le_pageCount (old.1.toNat + 8)
  have hle' := le_pageCount (size.1.toNat + 8)
  have hin : Within p (pagesOf size) ((PAGE * p + 8 + i) / PAGE) := by
    unfold Within pagesOf PAGE at *
    omega
  have hlt : PAGE * p + 8 + i - PAGE * p < PAGE * pagesOf old := by
    unfold pagesOf
    omega
  have hput : ((v.remap r (pagesOf old) p (pagesOf size)).put (PAGE * p) (size.1 + 8)).bytes (PAGE * p + 8 + i) =
      (v.remap r (pagesOf old) p (pagesOf size)).bytes (PAGE * p + 8 + i) := store64_frame _ (Or.inr (by omega))
  rw [hput]
  simp only [Vm.remap, if_pos hin, if_pos hlt]
  congr 1
  omega

/-- What an event does in a state of `Inv`: `Inv` holds afterwards, with the effect that the client may rely on. -/
abbrev Steps (s : State) (e : Event) : Prop := Sat (fun s' => Inv s' ∧ Effect s e s') (· ≠ .segv) (step s e)

theorem Undisturbed.mono {x : Option ℕ} (h : Undisturbed (s.drop a old) s' none) (hx : x = some a) :
    Undisturbed s s' x := by
  intro b m hl hb
  have hba : b ≠ a := by
    rintro rfl
    exact hb hx.symm
  exact h b m (by show update s.live a none b = some m; rw [Function.update_of_ne hba, hl]) nofun

theorem Inv.malloc (h : Inv s) (size : Size) (p : ℕ) : Steps s (.malloc size p) := by
  simp only [Steps, step, malloc_eq]
  split_ifs with hfree
  · have hadd := adds_malloc hfree
    exact ⟨hadd.inv h, hadd.undisturbed h, hadd.fresh h, Function.update_self _ _ _⟩
  · exact (by decide : Fault.kernel ≠ .segv)

theorem Inv.realloc (h : Inv s) (size : Size) (p : ℕ) : Steps s (.realloc a size p) := by
  cases hl : s.live a with
  | none =>
    simp only [Steps, step, hl]
    exact (by decide : Fault.client ≠ .segv)
  | some old =>
    simp only [Steps, step, hl, h.realloc_eq hl]
    split_ifs with hcan
    · have hdrop := h.drop hl
      have hadd := adds_realloc (s := s) hcan
      refine ⟨hadd.inv hdrop, (hadd.undisturbed hdrop).mono rfl, ?_, Function.update_self _ _ _, fun old' hold i hi => ?_⟩
      · by_cases hap : PAGE * p + 8 = a
        · exact Or.inl hap
        · have hfresh := hadd.fresh hdrop
          refine Or.inr ⟨?_, ?_⟩
          · have hfresh : update s.live a none (PAGE * p + 8) = none := hfresh
            rwa [Function.update_of_ne hap] at hfresh
          · show update (update s.live a none) (PAGE * p + 8) (some size) a = none
            rw [Function.update_of_ne (Ne.symm hap), Function.update_self]
      · rw [hl] at hold
        cases hold
        obtain ⟨r, rfl, -⟩ := h.shape a old hl
        rw [Nat.add_sub_cancel, Nat.mul_div_cancel_left r (by decide)]
        exact remap_bytes s.vm (by omega) (by omega)
    · exact (by decide : Fault.kernel ≠ .segv)

theorem Inv.free (h : Inv s) : Steps s (.free a) := by
  cases hl : s.live a with
  | none =>
    simp only [Steps, step, hl]
    exact (by decide : Fault.client ≠ .segv)
  | some size =>
    simp only [Steps, step, hl, h.free_eq hl]
    refine ⟨h.drop hl, fun b m hb hba => ⟨?_, fun _ _ => rfl⟩, Function.update_self _ _ _, fun q => ?_⟩
    · show update s.live a none b = some m
      rw [Function.update_of_ne (fun hn => hba (congrArg some hn)), hb]
    · rw [h.owns hl]
      exact drop_mapped s size

/-- Two places that do not share a page. -/
theorem Inv.ptr_ne (h : Inv s) {c : ℕ} {m : Size} (ha : s.live a = some size) (hc : s.live c = some m) (hca : c ≠ a)
    {i j : ℕ} (hi : i < size.1.toNat + 8) (hj : j < m.1.toNat + 8) : c - 8 + j ≠ a - 8 + i := fun heq =>
  h.apart c a m size hc ha hca _ (h.block_mem hc hj) (heq ▸ h.block_mem ha hi)

theorem Inv.write (h : Inv s) (off : ℕ) (value : Byte) : Steps s (.write a off value) := by
  cases hl : s.live a with
  | none =>
    simp only [Steps, step, hl]
    exact (by decide : Fault.client ≠ .segv)
  | some size =>
    simp only [Steps, step, hl]
    by_cases hoff : off < size.1.toNat
    · obtain ⟨p, rfl, -⟩ := id (h.shape a size hl)
      have hmem := h.block_mem hl (k := 8 + off) (by omega)
      rw [show PAGE * p + 8 - 8 + (8 + off) = PAGE * p + 8 + off by omega] at hmem
      rw [if_neg (not_not.mpr hoff), if_pos (h.block_mapped hl hmem)]
      have hkeep : ∀ c m j, s.live c = some m → j < m.1.toNat + 8 → (c = PAGE * p + 8 → j < 8) →
          update s.vm.bytes (PAGE * p + 8 + off) value (c - 8 + j) = s.vm.bytes (c - 8 + j) := fun c m j hc hj hlt => by
        refine Function.update_of_ne ?_ _ _
        by_cases hca : c = PAGE * p + 8
        · have := hlt hca
          omega
        · have := h.ptr_ne hl hc hca (i := 8 + off) (by omega) hj
          omega
      refine ⟨⟨h.shape, fun c m hc => ?_, h.apart, h.mapped, h.foreign⟩, fun c m hc hca => ⟨hc, fun i hi => ?_⟩, rfl⟩
      · rw [← h.header c m hc]
        exact load64_congr fun k hk => hkeep c m k hc (by omega) fun _ => hk
      · have hc8 : 8 ≤ c := by
          obtain ⟨r, rfl, -⟩ := h.shape c m hc
          omega
        have := hkeep c m (8 + i) hc (by omega) fun hn => absurd (congrArg some hn) hca
        rwa [show c - 8 + (8 + i) = c + i by omega] at this
    · rw [if_pos hoff]
      exact (by decide : Fault.client ≠ .segv)

theorem Inv.mapOther (h : Inv s) (p : ℕ) : Steps s (.mapOther p) := by
  simp only [Steps, step]
  split_ifs with hfree
  · have hnew : ∀ c m j, s.live c = some m → j < m.1.toNat + 8 → (s.vm.map p 1).bytes (c - 8 + j) = s.vm.bytes (c - 8 + j) :=
      fun c m j hc hj => if_neg fun hn => by
        have hmapped := h.block_mapped hc (h.block_mem hc hj)
        rw [hfree.unmapped hn] at hmapped
        exact absurd hmapped nofun
    have hother : ∀ q, update s.other p true q = true ↔ s.other q = true ∨ Within p 1 q := fun q => by
      by_cases hq : q = p
      · simp [hq, Within]
      · rw [Function.update_of_ne hq]
        refine (or_iff_left fun hn => hq ?_).symm
        unfold Within at hn
        omega
    refine ⟨⟨h.shape, fun c m hc => ?_, h.apart, fun q => ?_, fun q c m hq hc hb => ?_⟩, fun c m hc _ => ⟨hc, fun i hi => ?_⟩⟩
    · rw [← h.header c m hc]
      exact load64_congr fun k hk => hnew c m k hc (by omega)
    · show (s.vm.mapped q || decide (Within p 1 q)) = true ↔ update s.other p true q = true ∨ _
      rw [hother, Bool.or_eq_true, decide_eq_true_iff, h.mapped, or_right_comm]
    · rcases (hother q).mp hq with hq | hq
      · exact h.foreign q c m hq hc hb
      · have hmapped := h.block_mapped hc hb
        rw [hfree.unmapped hq] at hmapped
        exact absurd hmapped nofun
    · obtain ⟨r, rfl, -⟩ := h.shape c m hc
      have := hnew _ m (8 + i) hc (by omega)
      rwa [show PAGE * r + 8 - 8 + (8 + i) = PAGE * r + 8 + i by omega] at this
  · exact (by decide : Fault.kernel ≠ .segv)

theorem Inv.unmapOther (h : Inv s) (p : ℕ) : Steps s (.unmapOther p) := by
  simp only [Steps, step]
  split_ifs with hp
  · have hother : ∀ q, update s.other p false q = true ↔ s.other q = true ∧ ¬ Within p 1 q := fun q => by
      by_cases hq : q = p
      · simp [hq, Within]
      · rw [Function.update_of_ne hq]
        refine (and_iff_left fun hn => hq ?_).symm
        unfold Within at hn
        omega
    refine ⟨⟨h.shape, h.header, h.apart, fun q => ?_, fun q c m hq => h.foreign q c m ((hother q).mp hq).1⟩,
      fun c m hc _ => ⟨hc, fun _ _ => rfl⟩⟩
    show (s.vm.mapped q && !decide (Within p 1 q)) = true ↔ update s.other p false q = true ∨ _
    rw [hother, Bool.and_eq_true, Bool.not_eq_true', decide_eq_false_iff_not, h.mapped, or_and_right]
    refine or_congr_right (and_iff_left_of_imp ?_)
    rintro ⟨c, m, hc, hb⟩ hn
    have hqp : q = p := by
      unfold Within at hn
      omega
    exact h.foreign q c m (hqp ▸ hp) hc hb
  · exact (by decide : Fault.client ≠ .segv)

theorem Inv.step (h : Inv s) : ∀ e, Steps s e
  | .malloc size p => h.malloc size p
  | .realloc _ size p => h.realloc size p
  | .free _ => h.free
  | .write _ off value => h.write off value
  | .mapOther p => h.mapOther p
  | .unmapOther p => h.unmapOther p

end

/-- **Blocks.** Whatever is mapped at the start and whatever the client does with its live blocks, wherever the
kernel puts their pages: no call faults, every state that is reached is sound, and every event has its effect and
no other. -/
theorem blocks_sound (vm : Vm) (es : List Event) :
    Sat Sound (· ≠ .segv) (run step (init vm) es) ∧
      Along step (fun s e => Sat (Effect s e) (fun _ => True) (step s e)) (init vm) es := by
  constructor
  · have hstep : ∀ s e, Inv s → True → Sat Inv (· ≠ .segv) (step s e) := fun s e h _ =>
      (Inv.step h e).mono (fun _ h => h.1) fun _ => id
    exact (run_sat hstep es (init_inv vm) (along_true es _)).mono (fun _ h => h.sound) fun _ => id
  · refine along_inv (P := fun _ _ => True) (I := Inv) (fun s e h _ => ?_) es (init_inv vm) (along_true es _)
    have hstep := Inv.step h e
    exact ⟨hstep.mono (fun _ h => h.2) fun _ _ => trivial, hstep.mono (fun _ h => h.1) fun _ _ => trivial⟩

/-- A block that a foreign page keeps from growing in place. -/
example : (run step (init ⟨fun _ => false, fun _ => 0⟩)
    [.malloc ⟨5000, by decide⟩ 1, .write 4104 4999 1, .mapOther 3, .realloc 4104 ⟨9000, by decide⟩ 7,
      .free 28680]).toOption.isSome = true := by
  decide +kernel

end Memory
end OsLabs
