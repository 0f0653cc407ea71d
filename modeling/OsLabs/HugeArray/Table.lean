/-
# The array, read in any order

What `main` reads of the array, with the handler's statements one by one. The load of an element whose page is not there raises
`SIGSEGV`; when the handler has returned, the load is executed again. Between two faults the one page of the array that is mapped
is that of `ptr`, and it has the roots of its own indices.

Key definitions: `step`, `Holds`, `Inv`.
Key theorem: `table_read`.
-/
import OsLabs.Lib.Run
import OsLabs.HugeArray.Handler

namespace OsLabs
namespace HugeArray

open Run
open Function (update)

/-- Where `HandleSigsegv` is. -/
inductive At
  | enter
  | map
  -- in `CalculateSqrts`
  | fill (sqrtPos : Word) (start : CInt) (i : ℕ)

inductive PC
  -- before the next read
  | idle
  -- at the load of an element
  | access (i : ℕ)
  -- in the handler, for this load
  | handler (i : ℕ) (here : At)

/-- `values` are the elements that have been read. -/
structure State where
  process : Process
  pc : PC
  values : List (ℕ × Double)

/-- The next read, or the next step. -/
inductive Event
  | read (i : ℕ)
  | run

inductive Fault
  -- by a fault in the handler
  | killed
  -- there is nothing to run, or no such element
  | client
  deriving DecidableEq, Repr

section

variable (T : Table) (sqrt : CInt → Double) (s : State)

/-- `&SQRTS[i]`. -/
def address (i : ℕ) : Word := T.SQRTS + BitVec.ofNat 64 (8 * i)

def runStep : Except Fault State :=
  match s.pc with
  | .idle => .error .client
  | .access i =>
    if (s.process.page (T.pageOf (address T i))).any Prot.read then
      .ok { s with pc := .idle, values := s.values ++ [(i, s.process.cell ((address T i).toNat / 8))] }
    else .ok { s with pc := .handler i .enter }
  | .handler i .enter => .ok { s with process := dropOld T s.process, pc := .handler i .map }
  | .handler i .map =>
    let p := mapNew T s.process (address T i) true
    .ok { s with process := p, pc := .handler i (.fill p.ptr (index T p.ptr) 0) }
  | .handler i (.fill sqrtPos start j) =>
    if j < T.perPage then
      match store T s.process (sqrtPos + BitVec.ofNat 64 (8 * j)) (sqrt (start + BitVec.ofNat 32 j)) with
      | .ok p => .ok { s with process := p, pc := .handler i (.fill sqrtPos start (j + 1)) }
      | .error _ => .error .killed
    else .ok { s with pc := .access i }

def step : Event → Except Fault State
  | .read i =>
    match s.pc with
    | .idle => if i < MAX_SQRTS then .ok { s with pc := .access i } else .error .client
    | _ => .error .client
  | .run => runStep T sqrt s

end

def init (p : Process) : State := ⟨p, .idle, []⟩

/-! ### The steps of the handler are the handler -/

section

variable {T : Table} {sqrt : CInt → Double} {s : State}

/-- What the process is when the handler has come back. -/
def resumed (s : State) (pc : PC) : Except Process Process → Except Fault State
  | .ok p => .ok { s with process := p, pc := pc }
  | .error _ => .error .killed

theorem run_fill (i : ℕ) (pos : Word) (start : CInt) : ∀ (n j : ℕ) (p : Process), j + n = T.perPage →
    run (step T sqrt) { s with process := p, pc := .handler i (.fill pos start j) } (List.replicate (n + 1) .run) =
      resumed s (.access i) (calculateSqrts T sqrt pos start n j p)
  | 0, j, p, hj => by
    have hstep : step T sqrt { s with process := p, pc := .handler i (.fill pos start j) } .run =
        .ok { s with process := p, pc := .access i } := if_neg (by omega)
    rw [List.replicate_succ, run_cons_ok _ hstep]
    rfl
  | n + 1, j, p, hj => by
    rw [List.replicate_succ]
    cases hs : store T p (pos + BitVec.ofNat 64 (8 * j)) (sqrt (start + BitVec.ofNat 32 j)) with
    | ok p' =>
      have hstep : step T sqrt { s with process := p, pc := .handler i (.fill pos start j) } .run =
          .ok { s with process := p', pc := .handler i (.fill pos start (j + 1)) } := by
        simp only [step, runStep, if_pos (show j < T.perPage by omega), hs]
      rw [run_cons_ok _ hstep, run_fill i pos start n (j + 1) p' (by omega), calculateSqrts, hs]
      rfl
    | error p' =>
      have hstep : step T sqrt { s with process := p, pc := .handler i (.fill pos start j) } .run = .error .killed := by
        simp only [step, runStep, if_pos (show j < T.perPage by omega), hs]
      rw [run_cons_error _ hstep, calculateSqrts, hs]
      rfl

/-- A fault: the handler is run, and the load is executed again. -/
theorem run_handler (i : ℕ) : run (step T sqrt) { s with pc := .handler i .enter } (List.replicate (T.perPage + 3) .run) =
    resumed s (.access i) (handleSigsegv T sqrt s.process (address T i) true) := by
  have hfill := @run_fill T sqrt s i (mapNew T (dropOld T s.process) (address T i) true).ptr
    (index T (mapNew T (dropOld T s.process) (address T i) true).ptr) T.perPage 0
    (mapNew T (dropOld T s.process) (address T i) true) (Nat.zero_add _)
  exact hfill

end

/-! ### Elements, their pages and their cells -/

namespace Table

variable (T : Table) {i j q : ℕ}

/-- An address in a page of the array. -/
theorem toNat_at (hq : ¬ T.Outside q) (hj : j < T.perPage) :
    (BitVec.ofNat 64 (T.pageSize * q) + BitVec.ofNat 64 (8 * j)).toNat = T.pageSize * q + 8 * j := by
  have huser : T.pageSize * q < 2 ^ 47 := T.user_of_inside hq
  have hj : 8 * j < T.pageSize := Nat.mul_lt_mul_of_pos_left hj (by decide)
  have hsmall : T.pageSize ≤ 2 ^ 30 := (Nat.mul_le_mul_left 8 T.perPage_le).trans (by decide)
  rw [← BitVec.ofNat_add, BitVec.toNat_ofNat]
  omega

theorem pageOf_at (hq : ¬ T.Outside q) (hj : j < T.perPage) :
    T.pageOf (BitVec.ofNat 64 (T.pageSize * q) + BitVec.ofNat 64 (8 * j)) = q := by
  have hj' : 8 * j < T.pageSize := Nat.mul_lt_mul_of_pos_left hj (by decide)
  rw [pageOf, T.toNat_at hq hj, Nat.mul_add_div T.pageSize_pos, Nat.div_eq_of_lt hj', Nat.add_zero]

theorem cell_at (hq : ¬ T.Outside q) (hj : j < T.perPage) :
    (BitVec.ofNat 64 (T.pageSize * q) + BitVec.ofNat 64 (8 * j)).toNat / 8 = T.perPage * q + j := by
  rw [T.toNat_at hq hj, pageSize, Nat.mul_assoc, ← Nat.mul_add, Nat.mul_div_cancel_left _ (by decide)]

/-- The page of an element. -/
def home (i : ℕ) : ℕ := T.base + i / T.perPage

theorem home_inside (hi : i < MAX_SQRTS) : ¬ T.Outside (T.home i) := by
  have hlt : i / T.perPage < T.pages := Nat.div_lt_of_lt_mul (by rwa [Nat.mul_comm, T.pages_mul])
  unfold Outside home
  generalize i / T.perPage = k at hlt
  omega

/-- An element's address by its page and its place there. -/
theorem address_eq (i : ℕ) : address T i =
    BitVec.ofNat 64 (T.pageSize * T.home i) + BitVec.ofNat 64 (8 * (i % T.perPage)) := by
  have hsplit : T.pageSize * T.base + 8 * i = T.pageSize * T.home i + 8 * (i % T.perPage) := by
    have hdiv := Nat.div_add_mod i T.perPage
    calc T.pageSize * T.base + 8 * i = T.pageSize * T.base + 8 * (T.perPage * (i / T.perPage) + i % T.perPage) := by rw [hdiv]
      _ = T.pageSize * T.home i + 8 * (i % T.perPage) := by rw [home, pageSize]; ring
  rw [address, SQRTS, ← BitVec.ofNat_add, hsplit, BitVec.ofNat_add]

theorem pageOf_address (hi : i < MAX_SQRTS) : T.pageOf (address T i) = T.home i := by
  rw [address_eq, T.pageOf_at (T.home_inside hi) (Nat.mod_lt _ T.perPage_pos)]

theorem pgStart_address (hi : i < MAX_SQRTS) : pgStart T (address T i) = BitVec.ofNat 64 (T.pageSize * T.home i) := by
  apply BitVec.eq_of_toNat_eq
  have huser : T.pageSize * T.home i < 2 ^ 47 := T.user_of_inside (T.home_inside hi)
  rw [pgStart_toNat, T.pageOf_address hi, BitVec.toNat_ofNat]
  omega

/-- The `int` for a page of the array is the index of its first element. -/
theorem index_page (hq : ¬ T.Outside q) :
    index T (BitVec.ofNat 64 (T.pageSize * q)) = BitVec.ofNat 32 (T.perPage * (q - T.base)) := by
  have hin : T.base ≤ q ∧ q < T.base + T.pages := by
    unfold Outside at hq
    omega
  obtain ⟨d, rfl⟩ : ∃ d, q = T.base + d := ⟨q - T.base, by omega⟩
  have hlt : T.perPage * d < 2 ^ 27 := by
    calc T.perPage * d < T.perPage * T.pages := Nat.mul_lt_mul_of_pos_left (by omega) T.perPage_pos
      _ = MAX_SQRTS := by rw [Nat.mul_comm, T.pages_mul]
  have hdist : BitVec.ofNat 64 (T.pageSize * (T.base + d)) - T.SQRTS = BitVec.ofNat 64 (8 * (T.perPage * d)) := by
    rw [Nat.mul_add, BitVec.ofNat_add, SQRTS, BitVec.add_comm, BitVec.add_sub_cancel, pageSize, Nat.mul_assoc]
  have hsign : (BitVec.ofNat 64 (8 * (T.perPage * d))).msb = false := by
    rw [BitVec.msb_eq_false_iff_two_mul_lt, BitVec.toNat_ofNat]
    omega
  apply BitVec.eq_of_toNat_eq
  rw [index, hdist, BitVec.sshiftRight_eq_of_msb_false hsign, BitVec.toNat_setWidth, BitVec.toNat_ushiftRight, BitVec.toNat_ofNat,
    BitVec.toNat_ofNat, Nat.add_sub_cancel_left, Nat.shiftRight_eq_div_pow]
  omega

end Table

/-! ### The invariant -/

/-- The root that `CalculateSqrts` computes for an index. -/
def root (sqrt : CInt → Double) (i : ℕ) : Double := sqrt (BitVec.ofNat 32 i)

/-- Of the array the page `o` is mapped and no other. -/
def Only (T : Table) (p : Process) (o : Option ℕ) : Prop :=
  ∀ q, ¬ T.Outside q → p.page q = if o = some q then some .all else none

/-- The first `n` cells of the page `q` of the array have their roots. -/
def Filled (T : Table) (sqrt : CInt → Double) (p : Process) (q n : ℕ) : Prop :=
  ∀ j < n, p.cell (T.perPage * q + j) = root sqrt (T.perPage * (q - T.base) + j)

/-- `ptr` is the page of the array that is mapped, if there is one, and this page is filled. -/
inductive Holds (T : Table) (sqrt : CInt → Double) (p : Process) : Prop
  | empty (hptr : p.ptr = NULL) (honly : Only T p none)
  | page (q : ℕ) (hq : ¬ T.Outside q) (hptr : p.ptr = BitVec.ofNat 64 (T.pageSize * q)) (honly : Only T p (some q))
      (hfilled : Filled T sqrt p q T.perPage)

/-- What holds of the process at each place. -/
def Here (T : Table) (sqrt : CInt → Double) (p : Process) : PC → Prop
  | .idle => Holds T sqrt p
  | .access i => i < MAX_SQRTS ∧ Holds T sqrt p
  | .handler i .enter => i < MAX_SQRTS ∧ Holds T sqrt p
  | .handler i .map => i < MAX_SQRTS ∧ Only T p none
  | .handler i (.fill pos start j) => i < MAX_SQRTS ∧ j ≤ T.perPage ∧ pos = BitVec.ofNat 64 (T.pageSize * T.home i) ∧
      start = BitVec.ofNat 32 (T.perPage * (T.home i - T.base)) ∧ p.ptr = pos ∧ Only T p (some (T.home i)) ∧
      Filled T sqrt p (T.home i) j

/-- What every event preserves. -/
structure Inv (T : Table) (sqrt : CInt → Double) (s : State) : Prop where
  here : Here T sqrt s.process s.pc
  values : ∀ r ∈ s.values, r.1 < MAX_SQRTS ∧ r.2 = root sqrt r.1

section

variable {T : Table} {sqrt : CInt → Double} {s : State} {p : Process} {q i j : ℕ}

theorem pageOf_start (hq : ¬ T.Outside q) : T.pageOf (BitVec.ofNat 64 (T.pageSize * q)) = q := by
  have hpage := T.pageOf_at hq T.perPage_pos
  rwa [Nat.mul_zero, BitVec.add_zero] at hpage

/-- The page of an array is one that `munmap` takes. -/
theorem hasOld_page (hq : ¬ T.Outside q) (hptr : p.ptr = BitVec.ofNat 64 (T.pageSize * q)) : HasOld T p := by
  have huser : T.pageSize * q < 2 ^ 47 := T.user_of_inside hq
  have hnat : p.ptr.toNat = T.pageSize * q := by
    rw [hptr, BitVec.toNat_ofNat]
    omega
  have hqpos : 0 < q := by
    have := T.first
    unfold Table.Outside at hq
    omega
  refine ⟨fun hnull => ?_, ?_⟩
  · have hpos := Nat.mul_pos T.pageSize_pos hqpos
    rw [hnull] at hnat
    exact absurd hnat.symm hpos.ne'
  · rw [hnat, Nat.mul_mod_right]

/-- `munmap` takes the page of `ptr` away. -/
theorem Holds.dropOld (h : Holds T sqrt p) : Only T (HugeArray.dropOld T p) none := by
  rw [dropOld_eq]
  rcases h with ⟨hptr, honly⟩ | ⟨q, hq, hptr, honly, -⟩
  · rwa [if_neg fun hold : HasOld T p => hold.1 hptr]
  · rw [if_pos (hasOld_page hq hptr), hptr, pageOf_start hq]
    intro q' hq'
    show update p.page q none q' = none
    by_cases hsame : q' = q
    · rw [hsame, Function.update_self]
    · have hother : some q ≠ some q' := fun he => hsame (Option.some.inj he).symm
      rw [Function.update_of_ne hsame, honly q' hq', if_neg hother]

/-- The new page is the one of the element, and `ptr` its start. -/
theorem mapNew_eq (hi : i < MAX_SQRTS) : mapNew T p (address T i) true =
    { page := update p.page (T.home i) (some .all)
      cell := fun c => if c / T.perPage = T.home i then 0 else p.cell c
      ptr := BitVec.ofNat 64 (T.pageSize * T.home i) } := by
  have hin := T.home_inside hi
  unfold mapNew mmapFixed
  rw [T.pgStart_address hi, pageOf_start hin, if_pos ⟨rfl, T.user_of_inside hin⟩]

theorem Only.map (h : Only T p none) (q : ℕ) {p' : Process} (hp : p'.page = update p.page q (some .all)) : Only T p' (some q) := by
  intro q' hq'
  rw [hp]
  by_cases hsame : q' = q
  · rw [hsame, Function.update_self, if_pos rfl]
  · have hother : some q ≠ some q' := fun he => hsame (Option.some.inj he).symm
    rw [Function.update_of_ne hsame, h q' hq', if_neg hother, if_neg nofun]

/-- A root goes to its cell. -/
theorem store_eq (hq : ¬ T.Outside q) (honly : Only T p (some q)) (hj : j < T.perPage) (v : Double) :
    store T p (BitVec.ofNat 64 (T.pageSize * q) + BitVec.ofNat 64 (8 * j)) v =
      .ok { p with cell := update p.cell (T.perPage * q + j) v } := by
  unfold store
  rw [T.pageOf_at hq hj, T.cell_at hq hj, honly q hq, if_pos rfl]
  rfl

theorem Filled.succ (h : Filled T sqrt p q j) :
    Filled T sqrt { p with cell := update p.cell (T.perPage * q + j) (root sqrt (T.perPage * (q - T.base) + j)) } q (j + 1) := by
  intro k hk
  show update p.cell _ _ (T.perPage * q + k) = _
  by_cases hkj : k = j
  · rw [hkj, Function.update_self]
  · rw [Function.update_of_ne (by omega), h k (by omega)]

/-- What the cell of an element has, when its page is filled. -/
theorem Filled.element (h : Filled T sqrt p (T.home i) T.perPage) (hi : i < MAX_SQRTS) :
    p.cell ((address T i).toNat / 8) = root sqrt i := by
  have hmod := Nat.mod_lt i T.perPage_pos
  have hindex : T.perPage * (T.home i - T.base) + i % T.perPage = i := by
    rw [Table.home, Nat.add_sub_cancel_left, Nat.div_add_mod]
  rw [T.address_eq, T.cell_at (T.home_inside hi) hmod, h _ hmod, hindex]

/-- An element can be read exactly if its page is the one that is mapped, and then it has its root. -/
theorem Holds.access (h : Holds T sqrt p) (hi : i < MAX_SQRTS)
    (hread : (p.page (T.pageOf (address T i))).any Prot.read = true) : p.cell ((address T i).toNat / 8) = root sqrt i := by
  rw [T.pageOf_address hi] at hread
  rcases h with ⟨-, honly⟩ | ⟨q, hq, -, honly, hfilled⟩
  · rw [honly _ (T.home_inside hi), if_neg nofun] at hread
    exact absurd hread nofun
  · rw [honly _ (T.home_inside hi)] at hread
    by_cases hsame : some q = some (T.home i)
    · obtain rfl := Option.some.inj hsame
      exact hfilled.element hi
    · rw [if_neg hsame] at hread
      exact absurd hread nofun

/-! ### The steps -/

/-- The element that is being read. -/
def PC.element : PC → Option ℕ
  | .idle => none
  | .access i => some i
  | .handler i _ => some i

/-- How many steps are left of a read. -/
def left (T : Table) (s : State) : ℕ :=
  match s.pc with
  | .idle => 0
  | .access i => if (s.process.page (T.pageOf (address T i))).any Prot.read then 1 else T.perPage + 5
  | .handler _ .enter => T.perPage + 4
  | .handler _ .map => T.perPage + 3
  | .handler _ (.fill _ _ j) => T.perPage - j + 2

/-- A step of a read of `i`: it is done, or it goes on with one step less left. -/
structure Goes (T : Table) (sqrt : CInt → Double) (i : ℕ) (s s' : State) : Prop where
  inv : Inv T sqrt s'
  left : left T s = left T s' + 1
  reads : s'.pc = .idle ∧ s'.values = s.values ++ [(i, root sqrt i)] ∨ s'.pc.element = some i ∧ s'.values = s.values

/-- The load of an element: it is read, or the handler is called. -/
theorem Inv.load (h : Inv T sqrt s) (hpc : s.pc = .access i) : Sat (Goes T sqrt i s) (fun _ => False) (runStep T sqrt s) := by
  have hhere := h.here
  rw [hpc] at hhere
  obtain ⟨hi, hholds⟩ := hhere
  simp only [runStep, hpc]
  split_ifs with hread
  · have hvalue := hholds.access hi hread
    rw [hvalue]
    refine ⟨⟨hholds, fun r hr => ?_⟩, by simp [left, hpc, hread], Or.inl ⟨rfl, rfl⟩⟩
    rcases List.mem_append.mp hr with hold | hnew
    · exact h.values r hold
    · rw [List.mem_singleton.mp hnew]
      exact ⟨hi, rfl⟩
  · exact ⟨⟨⟨hi, hholds⟩, h.values⟩, by simp [left, hpc, hread], Or.inr ⟨rfl, rfl⟩⟩

/-- A root, or the end of the handler: then the element can be read. -/
theorem Inv.fill (h : Inv T sqrt s) {pos : Word} {start : CInt} (hpc : s.pc = .handler i (.fill pos start j)) :
    Sat (Goes T sqrt i s) (fun _ => False) (runStep T sqrt s) := by
  have hhere := h.here
  rw [hpc] at hhere
  obtain ⟨hi, hj, rfl, rfl, hptr, honly, hfilled⟩ := hhere
  have hin := T.home_inside hi
  simp only [runStep, hpc]
  split_ifs with hlt
  · rw [store_eq hin honly hlt, ← BitVec.ofNat_add]
    refine ⟨⟨⟨hi, hlt, rfl, rfl, hptr, honly, hfilled.succ⟩, h.values⟩, ?_, Or.inr ⟨rfl, rfl⟩⟩
    simp only [left, hpc]
    omega
  · obtain rfl : j = T.perPage := by omega
    have hread : (s.process.page (T.pageOf (address T i))).any Prot.read = true := by
      rw [T.pageOf_address hi, honly _ hin, if_pos rfl]
      rfl
    exact ⟨⟨⟨hi, .page _ hin hptr honly hfilled⟩, h.values⟩, by simp [left, hpc, hread], Or.inr ⟨rfl, rfl⟩⟩

theorem Inv.run (h : Inv T sqrt s) (hi : s.pc.element = some i) : Sat (Goes T sqrt i s) (fun _ => False) (runStep T sqrt s) := by
  have hhere := h.here
  cases hpc : s.pc with
  | idle =>
    rw [hpc] at hi
    exact absurd hi nofun
  | access k =>
    rw [hpc] at hi
    obtain rfl := Option.some.inj hi
    exact h.load hpc
  | handler k place =>
    rw [hpc] at hi hhere
    obtain rfl := Option.some.inj hi
    cases place with
    | enter =>
      simp only [runStep, hpc]
      exact ⟨⟨⟨hhere.1, hhere.2.dropOld⟩, h.values⟩, by simp [left, hpc], Or.inr ⟨rfl, rfl⟩⟩
    | map =>
      simp only [runStep, hpc, mapNew_eq hhere.1]
      have hin := T.home_inside hhere.1
      refine ⟨⟨⟨hhere.1, Nat.zero_le _, rfl, T.index_page hin, rfl, hhere.2.map _ rfl, fun j hj => absurd hj (Nat.not_lt_zero j)⟩,
        h.values⟩, by simp [left, hpc], Or.inr ⟨rfl, rfl⟩⟩
    | fill pos start j => exact h.fill hpc

/-- The read comes to its end, with the root. -/
theorem Inv.completes (h : Inv T sqrt s) (hi : s.pc.element = some i) :
    Sat (fun s' => s'.pc = .idle ∧ s'.values = s.values ++ [(i, root sqrt i)]) (fun _ => False)
      (Run.run (step T sqrt) s (List.replicate (left T s) .run)) := by
  induction hn : left T s generalizing s with
  | zero =>
    have hrun := h.run hi
    cases hs : runStep T sqrt s with
    | ok s' =>
      rw [hs] at hrun
      have := hrun.left
      omega
    | error x =>
      rw [hs] at hrun
      exact hrun.elim
  | succ n ih =>
    have hrun := h.run hi
    cases hs : runStep T sqrt s with
    | ok s' =>
      rw [hs] at hrun
      have hleft : left T s' = n := by
        have := hrun.left
        omega
      rw [List.replicate_succ, run_cons_ok _ (show step T sqrt s .run = .ok s' from hs)]
      rcases hrun.reads with ⟨hidle, hvalues⟩ | ⟨hbusy, hvalues⟩
      · have hdone : n = 0 := by rw [← hleft, left, hidle]
        rw [hdone]
        exact ⟨hidle, hvalues⟩
      · have hrest := ih hrun.inv hbusy hleft
        rwa [hvalues] at hrest
    | error x =>
      rw [hs] at hrun
      exact hrun.elim

theorem Inv.step (h : Inv T sqrt s) (e : Event) : Sat (Inv T sqrt) (fun x => x ≠ .killed) (HugeArray.step T sqrt s e) := by
  cases e with
  | read i =>
    have hhere := h.here
    cases hpc : s.pc with
    | idle =>
      rw [hpc] at hhere
      simp only [HugeArray.step, hpc]
      split_ifs with hi
      · exact ⟨⟨hi, hhere⟩, h.values⟩
      · exact nofun
    | access k | handler k place =>
      simp only [HugeArray.step, hpc]
      exact nofun
  | run =>
    cases hi : s.pc.element with
    | some i => exact (h.run hi).mono (fun _ hgoes => hgoes.inv) fun _ hx => hx.elim
    | none =>
      cases hpc : s.pc with
      | idle =>
        simp only [HugeArray.step, runStep, hpc]
        exact nofun
      | access i => rw [hpc] at hi; exact absurd hi nofun
      | handler i place => rw [hpc] at hi; exact absurd hi nofun

/-! ### Every order of reads -/

/-- Between two faults. -/
def PC.between : PC → Prop
  | .handler _ _ => False
  | _ => True

/-- Of the array one page at most is mapped. -/
theorem Only.unique {o : Option ℕ} (h : Only T p o) {q' : ℕ} (hq : ¬ T.Outside q) (hq' : ¬ T.Outside q')
    (hm : (p.page q).isSome = true) (hm' : (p.page q').isSome = true) : q = q' := by
  have hone : ∀ {r : ℕ}, ¬ T.Outside r → (p.page r).isSome = true → o = some r := fun {r} hr hmap => by
    by_contra hn
    rw [h r hr, if_neg hn] at hmap
    exact absurd hmap nofun
  exact Option.some.inj ((hone hq hm).symm.trans (hone hq' hm'))

theorem Inv.only (h : Inv T sqrt s) : ∃ o, Only T s.process o := by
  have hholds : Holds T sqrt s.process → ∃ o, Only T s.process o := fun h => by
    rcases h with ⟨-, honly⟩ | ⟨q, -, -, honly, -⟩
    · exact ⟨none, honly⟩
    · exact ⟨some q, honly⟩
  have hhere := h.here
  rcases hpc : s.pc with - | i | ⟨i, - | - | ⟨pos, start, j⟩⟩
  all_goals rw [hpc] at hhere
  · exact hholds hhere
  · exact hholds hhere.2
  · exact hholds hhere.2
  · exact ⟨none, hhere.2⟩
  · exact ⟨some _, hhere.2.2.2.2.2.1⟩

/-- The page that is mapped is that of `ptr`. -/
theorem Holds.mapped_iff (h : Holds T sqrt p) (hq : ¬ T.Outside q) :
    (p.page q).isSome = true ↔ p.ptr ≠ NULL ∧ q = T.pageOf p.ptr := by
  rcases h with ⟨hptr, honly⟩ | ⟨r, hr, hptr, honly, -⟩
  · rw [honly q hq, if_neg nofun]
    exact iff_of_false nofun fun hn => hn.1 hptr
  · have hnull := (hasOld_page hr hptr).1
    rw [honly q hq, hptr, pageOf_start hr]
    by_cases hsame : some r = some q
    · rw [if_pos hsame]
      exact iff_of_true rfl ⟨hptr ▸ hnull, (Option.some.inj hsame).symm⟩
    · rw [if_neg hsame]
      exact iff_of_false nofun fun hn => hsame (congrArg some hn.2.symm)

/-- **The array.** Whatever the page size, the place of the array and the other mappings, and for every order of reads: in every
state one page of the array at most is mapped; between two faults it is that of `ptr`, and none if that is `NULL`; what has been
read of an element is its root; and every read comes to its end. -/
theorem table_read (T : Table) (sqrt : CInt → Double) (p : Process) (hptr : p.ptr = NULL)
    (hnone : ∀ q, ¬ T.Outside q → p.page q = none) (es : List Event) :
    Sat (fun s =>
        (∀ q q', ¬ T.Outside q → ¬ T.Outside q' → (s.process.page q).isSome = true → (s.process.page q').isSome = true → q = q') ∧
        (s.pc.between → ∀ q, ¬ T.Outside q →
          ((s.process.page q).isSome = true ↔ s.process.ptr ≠ NULL ∧ q = T.pageOf s.process.ptr)) ∧
        (∀ r ∈ s.values, r.2 = root sqrt r.1) ∧
        ∀ i < MAX_SQRTS, s.pc = .idle → ∃ n, Sat (fun s' => s'.pc = .idle ∧ s'.values = s.values ++ [(i, root sqrt i)])
          (fun _ => False) (run (HugeArray.step T sqrt) s (.read i :: List.replicate n .run)))
      (fun x => x ≠ .killed) (run (HugeArray.step T sqrt) (init p) es) := by
  have hinit : Inv T sqrt (init p) :=
    ⟨.empty hptr fun q hq => (hnone q hq).trans (if_neg nofun).symm, fun r hr => absurd hr List.not_mem_nil⟩
  apply (run_sat (P := fun _ _ => True) (fun s e h _ => h.step e) es hinit (along_true es _)).mono _ fun _ => id
  intro s h
  obtain ⟨o, honly⟩ := h.only
  refine ⟨fun q q' hq hq' => honly.unique hq hq', fun hpc q hq => ?_, fun r hr => (h.values r hr).2, fun i hi hpc => ?_⟩
  · have hhere := h.here
    rcases hat : s.pc with - | i | ⟨i, place⟩
    · rw [hat] at hhere
      exact hhere.mapped_iff hq
    · rw [hat] at hhere
      exact hhere.2.mapped_iff hq
    · rw [hat] at hpc
      exact hpc.elim
  · have hhere := h.here
    rw [hpc] at hhere
    have hstep : HugeArray.step T sqrt s (.read i) = .ok { s with pc := .access i } := by
      simp only [HugeArray.step, hpc, if_pos hi]
    have hnext : Inv T sqrt { s with pc := .access i } := ⟨⟨hi, hhere⟩, h.values⟩
    refine ⟨left T { s with pc := .access i }, ?_⟩
    rw [run_cons_ok _ hstep]
    exact hnext.completes rfl

/-- Two elements of the array to a page, and the numbers themselves for their roots. -/
def pairs : Table := ⟨1, 1, by decide, by decide, by decide⟩

/-- Elements of two pages are read, each with a fault before it. -/
def readPages : List Event := .read 1 :: List.replicate 7 .run ++ .read 2 :: List.replicate 7 .run

theorem table_read_pages : ∃ s, run (HugeArray.step pairs (BitVec.setWidth 64)) (init ⟨fun _ => none, fun _ => 0, NULL⟩) readPages = .ok s ∧
    s.values.map Prod.fst = [1, 2] ∧ (∀ r ∈ s.values, r.2 = root (BitVec.setWidth 64) r.1) ∧ root (BitVec.setWidth 64) 2 ≠ 0 ∧
    ∀ q q', ¬ pairs.Outside q → ¬ pairs.Outside q' → (s.process.page q).isSome = true → (s.process.page q').isSome = true → q = q' := by
  have hread := table_read pairs (BitVec.setWidth 64) ⟨fun _ => none, fun _ => 0, NULL⟩ rfl (fun _ _ => rfl) readPages
  have hvalues : (run (HugeArray.step pairs (BitVec.setWidth 64)) (init ⟨fun _ => none, fun _ => 0, NULL⟩) readPages).toOption.map
      (fun s => s.values.map Prod.fst) = some [1, 2] := by decide +kernel
  cases hs : run (HugeArray.step pairs (BitVec.setWidth 64)) (init ⟨fun _ => none, fun _ => 0, NULL⟩) readPages with
  | error x =>
    rw [hs] at hvalues
    cases hvalues
  | ok s =>
    rw [hs] at hread hvalues
    exact ⟨s, rfl, Option.some.inj hvalues, hread.2.2.1, by decide, hread.1⟩

end

end HugeArray
end OsLabs
