/-
# Sizes that wrap

`malloc` and `realloc` add the 8 bytes of the header to the requested size in 64 bits. Up to 2^64 - 9 the sum is
what it should be; 2^64 - 8 gives a length of 0, which the kernel refuses; and the seven sizes from there on give
a length of 1 to 7, for which it grants a page. The block that is returned then has this page and no more.

Key definitions: `Call.granted`, `Backed`.
Key theorem: `backed_sizes`.
-/
import OsLabs.Memory.Refusal

namespace OsLabs
namespace Memory

/-- The call with what the kernel grants, or `none` if it refuses. -/
def Call.granted (v : Vm) (c : Call) (size : Word) (grant : Option ℕ) : Except Fault (Vm × ℕ) :=
  match c with
  | .malloc => Memory.malloc v size grant
  | .realloc ptr => Memory.realloc v ptr size grant

/-- `realloc` gets a block: a pointer behind a header on a page, and all the pages that the header covers are mapped. -/
def Call.OnBlock (v : Vm) : Call → Prop
  | .malloc => True
  | .realloc ptr => ∃ b, ptr = PAGE * b + 8 ∧ 0 < (load64 v.bytes (PAGE * b)).toNat ∧
      ∀ q, Within b (pageCount (load64 v.bytes (PAGE * b)).toNat) q → v.mapped q = true

/-- The kernel can grant a page: to a block it can leave its own first one. -/
def Call.Room (v : Vm) : Call → Prop
  | .malloc => ∃ p, v.Free p 1
  | .realloc _ => True

/-- If the call has returned a pointer, the bytes asked for are on mapped pages that the block's header covers. -/
def Backed (size : Word) : Except Fault (Vm × ℕ) → Prop
  | .ok (v, p) => p ≠ 0 → ∀ i < size.toNat,
      v.mapped ((p + i) / PAGE) = true ∧ Within ((p - 8) / PAGE) (pageCount (load64 v.bytes (p - 8)).toNat) ((p + i) / PAGE)
  | .error _ => True

/-- The call has got pages for the sum, and has written the header to the first one. -/
def Placed (size : Word) (r : Except Fault (Vm × ℕ)) : Prop :=
  ∃ (u : Vm) (p : ℕ), 0 < (size + 8).toNat ∧ (∀ q, Within p (pageCount (size + 8).toNat) q → u.mapped q = true) ∧
    r = .ok (u.put (PAGE * p) (size + 8), PAGE * p + 8)

/-- It has returned no pointer. -/
def Nothing (r : Except Fault (Vm × ℕ)) : Prop := (∃ x, r = .error x) ∨ ∃ v, r = .ok (v, 0)

section

variable {v : Vm} {size : Word} {r : Except Fault (Vm × ℕ)}

theorem Nothing.backed (h : Nothing r) : Backed size r := by
  rcases h with ⟨x, rfl⟩ | ⟨v, rfl⟩
  · trivial
  · exact fun hp => absurd rfl hp

theorem toNat_add_eight (size : Word) : (size + 8).toNat = (size.toNat + 8) % 2 ^ 64 := BitVec.toNat_add size 8

/-- The pages are enough exactly if the sum has not wrapped. -/
theorem Placed.backed_iff (h : Placed size r) : Backed size r ↔ size.toNat ≤ 2 ^ 64 - 8 := by
  obtain ⟨u, p, hpos, hmapped, rfl⟩ := h
  have hsum := toNat_add_eight size
  have hlt := size.isLt
  have hheader : load64 (u.put (PAGE * p) (size + 8)).bytes (PAGE * p) = size + 8 := load64_store64 _ _ _
  unfold Backed
  simp only [Nat.add_sub_cancel, hheader, Nat.mul_div_cancel_left p (by decide : 0 < PAGE)]
  constructor
  · intro hbacked
    by_contra hwraps
    have hone : pageCount (size + 8).toNat = 1 := by
      unfold pageCount PAGE
      omega
    have hsecond : (PAGE * p + 8 + PAGE) / PAGE = p + 1 := by
      unfold PAGE
      omega
    have hbyte := (hbacked (Nat.succ_ne_zero _) PAGE (by unfold PAGE; omega)).2
    rw [hone, hsecond] at hbyte
    exact absurd hbyte.2 (by omega)
  · intro hle _ i hi
    have henough := le_pageCount (size + 8).toNat
    have hpage : Within p (pageCount (size + 8).toNat) ((PAGE * p + 8 + i) / PAGE) := by
      unfold Within PAGE at *
      omega
    exact ⟨hmapped _ hpage, hpage⟩

/-! ### The system calls -/

/-- What a call of the kernel for `length` bytes can lead to; `impossible` is a choice that the kernel cannot make. -/
inductive Outcome (v : Vm) (length : ℕ) : Except Fault (Vm × ℕ) → Prop
  | refused (e : Errno) : Outcome v length (refuse v e)
  | impossible : Outcome v length (.error .kernel)
  | granted (u : Vm) (p : ℕ) (hpos : 0 < length) (hmapped : ∀ q, Within p (pageCount length) q → u.mapped q = true) :
      Outcome v length (.ok (u, PAGE * p))

theorem mmap_outcome (v : Vm) (length : ℕ) (grant : Option ℕ) : Outcome v length (mmap v length grant) := by
  unfold mmap
  split_ifs with hzero
  · exact .refused ⟨EINVAL, by decide⟩
  · cases grant with
    | none => exact .refused ⟨ENOMEM, by decide⟩
    | some p =>
      dsimp only
      split_ifs with hfree
      · apply Outcome.granted _ _ (Nat.pos_of_ne_zero hzero)
        intro q hq
        simp [Vm.map, hq]
      · exact .impossible

theorem mremap_outcome (v : Vm) (oldAddr oldSize newSize : ℕ) (grant : Option ℕ) :
    Outcome v newSize (mremap v oldAddr oldSize newSize grant) := by
  unfold mremap
  split_ifs with hbad hunmapped
  · exact .refused ⟨EINVAL, by decide⟩
  · exact .refused ⟨EFAULT, by decide⟩
  · cases grant with
    | none => exact .refused ⟨ENOMEM, by decide⟩
    | some p =>
      dsimp only
      split_ifs with hcan
      · apply Outcome.granted _ _ (Nat.pos_of_ne_zero fun hzero => hbad (Or.inr (Or.inr hzero)))
        intro q hq
        simp [Vm.remap, hq]
      · exact .impossible

/-! ### The two functions -/

/-- The header is written to the first page. -/
theorem mallocOn_ok {mmap : ℕ → Except Fault (Vm × ℕ)} {u : Vm} {p : ℕ} (hcall : mmap (size + 8).toNat = .ok (u, PAGE * p))
    (hmapped : u.mapped p = true) : mallocOn mmap size = .ok (u.put (PAGE * p) (size + 8), PAGE * p + 8) := by
  unfold mallocOn
  rw [hcall, ok_bind]
  exact Vm.store_header (size + 8) hmapped

theorem reallocOn_ok {mremap : ℕ → ℕ → ℕ → Except Fault (Vm × ℕ)} {ptr : ℕ} {header : Word} (hload : v.load (ptr - 8) = .ok header)
    {u : Vm} {p : ℕ} (hcall : mremap (ptr - 8) header.toNat (size + 8).toNat = .ok (u, PAGE * p)) (hmapped : u.mapped p = true) :
    reallocOn v mremap ptr size = .ok (u.put (PAGE * p) (size + 8), PAGE * p + 8) := by
  unfold reallocOn
  rw [hload, ok_bind, hcall, ok_bind]
  dsimp only
  rw [if_neg (page_ne_failed p)]
  exact Vm.store_header (size + 8) hmapped

theorem Outcome.malloc (hv : ∀ q, v.mapped q = true → q < PAGES) (size : Word) (mmap : ℕ → Except Fault (Vm × ℕ))
    (h : Outcome v (size + 8).toNat (mmap (size + 8).toNat)) : Nothing (mallocOn mmap size) ∨ Placed size (mallocOn mmap size) := by
  have hcall : mallocOn mmap size = mallocOn (fun _ => mmap (size + 8).toNat) size := rfl
  rw [hcall]
  generalize mmap (size + 8).toNat = r at h
  rcases h with ⟨e⟩ | - | ⟨u, p, hpos, hmapped⟩
  · exact Or.inl (Or.inl ⟨_, mallocOn_refuse hv size e⟩)
  · exact Or.inl (Or.inl ⟨_, rfl⟩)
  · exact Or.inr ⟨u, p, hpos, hmapped, mallocOn_ok rfl (hmapped p (within_first (pageCount_pos hpos)))⟩

theorem Outcome.realloc (hv : ∀ q, v.mapped q = true → q < PAGES) (size : Word) (mremap : ℕ → ℕ → ℕ → Except Fault (Vm × ℕ))
    {ptr : ℕ} {header : Word} (hload : v.load (ptr - 8) = .ok header)
    (h : Outcome v (size + 8).toNat (mremap (ptr - 8) header.toNat (size + 8).toNat)) :
    Nothing (reallocOn v mremap ptr size) ∨ Placed size (reallocOn v mremap ptr size) := by
  have hcall : reallocOn v mremap ptr size =
      reallocOn v (fun _ _ _ => mremap (ptr - 8) header.toNat (size + 8).toNat) ptr size := by
    unfold reallocOn
    rw [hload, ok_bind, ok_bind]
  rw [hcall]
  generalize mremap (ptr - 8) header.toNat (size + 8).toNat = r at h
  rcases h with ⟨e⟩ | - | ⟨u, p, hpos, hmapped⟩
  · have hrefused := reallocOn_refuse hv hload size e
    rw [hrefused]
    split_ifs
    · exact Or.inl (Or.inr ⟨_, rfl⟩)
    · exact Or.inl (Or.inl ⟨_, rfl⟩)
  · unfold reallocOn
    rw [hload]
    exact Or.inl (Or.inl ⟨_, rfl⟩)
  · exact Or.inr ⟨u, p, hpos, hmapped, reallocOn_ok hload rfl (hmapped p (within_first (pageCount_pos hpos)))⟩

/-- The header of a block can be read. -/
theorem load_block {b : ℕ} (hpos : 0 < (load64 v.bytes (PAGE * b)).toNat)
    (hmapped : ∀ q, Within b (pageCount (load64 v.bytes (PAGE * b)).toNat) q → v.mapped q = true) :
    v.load (PAGE * b + 8 - 8) = .ok (load64 v.bytes (PAGE * b)) := by
  rw [Nat.add_sub_cancel]
  exact Vm.load_page (hmapped b (within_first (pageCount_pos hpos)))

variable {c : Call}

/-- A call comes back without a pointer, or with one and its pages. -/
theorem Call.granted_cases (hv : ∀ q, v.mapped q = true → q < PAGES) (hc : c.OnBlock v) (size : Word) (grant : Option ℕ) :
    Nothing (c.granted v size grant) ∨ Placed size (c.granted v size grant) := by
  cases c with
  | malloc => exact Outcome.malloc hv size (fun length => mmap v length grant) (mmap_outcome v _ grant)
  | realloc ptr =>
    obtain ⟨b, rfl, hpos, hmapped⟩ := hc
    exact Outcome.realloc hv size (fun a m n => mremap v a m n grant) (load_block hpos hmapped) (mremap_outcome v _ _ _ grant)

/-- For a length of one page, the kernel can grant one. -/
theorem Call.granted_page (hv : ∀ q, v.mapped q = true → q < PAGES) (hc : c.OnBlock v) (hroom : c.Room v)
    (hpos : 0 < (size + 8).toNat) (hone : pageCount (size + 8).toNat = 1) : ∃ grant, Placed size (c.granted v size grant) := by
  cases c with
  | malloc =>
    obtain ⟨p, hfree⟩ := hroom
    have hnew : ∀ q, Within p 1 q → (v.map p 1).mapped q = true := fun q hq => by simp [Vm.map, hq]
    refine ⟨some p, v.map p 1, p, hpos, by rwa [hone], ?_⟩
    have hcall : mmap v (size + 8).toNat (some p) = .ok (v.map p 1, PAGE * p) := by rw [mmap_some hpos, hone, if_pos hfree]
    exact @mallocOn_ok size (fun length => mmap v length (some p)) _ p hcall (hnew p (within_first Nat.one_pos))
  | realloc ptr =>
    obtain ⟨b, rfl, hblock, hmapped⟩ := hc
    set n := pageCount (load64 v.bytes (PAGE * b)).toNat with hn
    have hfirst : b < PAGES := hv b (hmapped b (within_first (pageCount_pos hblock)))
    have hnew : ∀ q, Within b 1 q → (v.remap b n b 1).mapped q = true := fun q hq => by simp [Vm.remap, hq]
    have hcan : v.CanRemap b n b 1 := by
      have hnpos : 0 < n := pageCount_pos hblock
      exact Or.inl ⟨rfl, by omega, fun k hk => absurd hk (by omega)⟩
    refine ⟨some b, v.remap b n b 1, b, hpos, by rwa [hone], ?_⟩
    have hcall : mremap v (PAGE * b + 8 - 8) (load64 v.bytes (PAGE * b)).toNat (size + 8).toNat (some b) =
        .ok (v.remap b n b 1, PAGE * b) := by
      rw [Nat.add_sub_cancel, mremap_some hblock hpos hmapped, hone, if_pos hcan]
    exact @reallocOn_ok v size (fun a m k => mremap v a m k (some b)) _ _ (load_block hblock hmapped) _ b hcall
      (hnew b (within_first Nat.one_pos))

/-- Without a free page nothing is granted. -/
theorem Call.nothing_of_full (hv : ∀ q, v.mapped q = true → q < PAGES) (hroom : ¬ c.Room v) (size : Word) (grant : Option ℕ) :
    Nothing (c.granted v size grant) := by
  cases c with
  | realloc ptr => exact absurd trivial hroom
  | malloc =>
    have hcall : (∃ e, mmap v (size + 8).toNat grant = refuse v e) ∨ mmap v (size + 8).toNat grant = .error .kernel := by
      unfold mmap
      split_ifs with hzero
      · exact Or.inl ⟨⟨EINVAL, by decide⟩, rfl⟩
      · cases grant with
        | none => exact Or.inl ⟨⟨ENOMEM, by decide⟩, rfl⟩
        | some p =>
          have hpos := pageCount_pos (Nat.pos_of_ne_zero hzero)
          have hfull : ¬ v.Free p (pageCount (size + 8).toNat) := fun hfree =>
            hroom ⟨p, (Nat.add_le_add_left hpos p).trans hfree.1, fun k hk => hfree.2 k (by omega)⟩
          exact Or.inr (if_neg hfull)
    show Nothing (mallocOn (fun _ => mmap v (size + 8).toNat grant) size)
    rcases hcall with ⟨e, he⟩ | hkernel
    · rw [he]
      exact Or.inl ⟨_, mallocOn_refuse hv size e⟩
    · rw [hkernel]
      exact Or.inl ⟨_, rfl⟩

/-- **Sizes that are backed.** Whatever the address space, and for a new block as well as for one that is resized: what the kernel
can grant for a size is always enough for it exactly if the size is at most 2^64 - 8 or the kernel has nothing to grant. -/
theorem backed_sizes (v : UserVm) (c : Call) (hc : c.OnBlock v.1) (size : Word) :
    (∀ grant, Backed size (c.granted v.1 size grant)) ↔ size.toNat ≤ 2 ^ 64 - 8 ∨ ¬ c.Room v.1 := by
  have hsum := toNat_add_eight size
  constructor
  · intro hbacked
    by_contra hn
    rw [not_or, not_not] at hn
    have hlt := size.isLt
    have hlen : 0 < (size + 8).toNat ∧ (size + 8).toNat < 8 := by omega
    obtain ⟨grant, hplaced⟩ := Call.granted_page v.2 hc hn.2 hlen.1 (by unfold pageCount PAGE; omega)
    exact hn.1 (hplaced.backed_iff.mp (hbacked grant))
  · intro h grant
    rcases h with hle | hfull
    · rcases Call.granted_cases v.2 hc size grant with hnothing | hplaced
      · exact hnothing.backed
      · exact hplaced.backed_iff.mpr hle
    · exact (Call.nothing_of_full v.2 hfull size grant).backed

theorem backed_sizes_malloc : (∀ grant, Backed 100 (Call.malloc.granted noPages.1 100 grant)) ∧
    ¬ ∀ grant, Backed (-1) (Call.malloc.granted noPages.1 (-1) grant) := by
  have hroom : Call.malloc.Room noPages.1 := ⟨0, by decide, fun _ _ => rfl⟩
  refine ⟨(backed_sizes noPages .malloc trivial 100).mpr (Or.inl (by decide)), fun h => ?_⟩
  rcases (backed_sizes noPages .malloc trivial (-1)).mp h with hle | hfull
  · exact absurd hle (by decide)
  · exact hfull hroom

/-- `malloc` of 2^64 - 1 bytes returns the address 4104, and there is no page behind the first one. -/
theorem malloc_max :
    (∃ v, Call.malloc.granted noPages.1 (-1) (some 1) = .ok (v, 4104) ∧ v.mapped (4104 / PAGE) = true ∧
        v.mapped (4104 / PAGE + 1) = false) ∧
      ¬ ∀ (v : UserVm) (c : Call) (size : Word) (grant : Option ℕ), c.OnBlock v.1 → Backed size (c.granted v.1 size grant) := by
  have hone : pageCount ((-1 : Word) + 8).toNat = 1 := by decide
  have hfree : noPages.1.Free 1 1 := ⟨by decide, fun _ _ => rfl⟩
  have hmmap : mmap noPages.1 ((-1 : Word) + 8).toNat (some 1) = .ok (noPages.1.map 1 1, PAGE * 1) := by
    rw [mmap_some (by decide), hone, if_pos hfree]
  have hmapped : (noPages.1.map 1 1).mapped 1 = true := by decide
  have hcall := @mallocOn_ok (-1) (fun length => mmap noPages.1 length (some 1)) _ 1 hmmap hmapped
  refine ⟨⟨_, hcall, by decide, by decide⟩, fun h => ?_⟩
  have hbacked : Backed (-1) (mallocOn (fun length => mmap noPages.1 length (some 1)) (-1)) :=
    h noPages .malloc (-1) (some 1) trivial
  rw [hcall] at hbacked
  exact absurd (hbacked (by decide) PAGE (by decide)).1 (by decide)

end

end Memory
end OsLabs
