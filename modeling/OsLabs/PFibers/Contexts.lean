/-
# A stopped fiber's context

A fiber that does not run should be found where it stopped: `Kept`. The code
changes `CurrentFiber` and the registers at different moments, and `fiber_sched` goes by
`CurrentFiber` alone. From `CurrentFiber = to` in `FiberYield` on, until
`SwitchFiberContext` has loaded the last register, it takes the registers of the one fiber
for the other's.

The invariant `Inv` is about what each fiber has still to do, its `chain` of
statements: the one at which it goes on may hold records that are not in the list (`hold`),
that of a `FiberSpawn` under way or one that is being freed, and the return addresses under it hold
none (`Plain`). A statement of the running fiber is then a change of its own chain and of
records that the other chains do not depend on (`Inv.next`). Of pointers into the list it says nothing:
others may have edited the list meanwhile.

Key definitions: `Kept`, `Resumed`, `PC.Window`, `Inv`.
-/
import OsLabs.PFibers.Nodes

namespace OsLabs
namespace PFibers
namespace Steps

open Fibers (Addr NULL Main Fiber Fault Mem startMem)
open Run State

/-- The fibers that do not run have in their records the context at which they stopped,
and their stacks have not changed since. -/
def Kept (s : State) : Prop :=
  ∀ a k r, a ≠ s.running → s.stopped a = some k → s.mem.heap.lookup a = some r →
    r.context = k.ctx ∧ r.stack = k.ctx.rsp.block ∧ ∀ i < k.ctx.rsp.height, s.words r.stack i = k.words i

/-- A fiber that gets the processor goes on where it stopped; after `SwitchFiberContext` the
`ret` to there is still to come. -/
def Resumed (s s' : State) : Prop :=
  s'.running ≠ s.running → ∃ k, s.stopped s'.running = some k ∧ s'.regs = k.ctx.regs ∧
    ((s'.rip = .swRet ∧ s'.rsp = k.ctx.rsp) ∨
      ∃ h, k.ctx.rsp = ⟨s'.rsp.block, h + 1⟩ ∧ s'.rsp.height = h ∧ s'.rip = k.words h)

/-- Between the entry of `SwitchFiberContext` and the load of its last register. -/
def PC.Switching : PC → Prop
  | .pushfq | .popSaved _ | .save _ | .load _ | .pushSaved | .popfq _ | .loadRsi => True
  | _ => False

/-- Between `CurrentFiber = to` and the load of the last register. -/
def PC.Window : PC → Prop
  | .yieldSwitch _ _ => True
  | pc => pc.Switching

/-- The context of the fiber that stops is being saved. -/
def PC.Saving : PC → Prop
  | .pushfq | .popSaved _ | .save _ => True
  | _ => False

/-- `rsp` is already that of the fiber that is switched to. -/
def PC.Loaded : PC → Prop
  | .pushSaved | .popfq _ | .loadRsi => True
  | _ => False

instance : DecidablePred PC.Switching := fun pc => by
  cases pc <;> unfold PC.Switching <;> infer_instance

instance : DecidablePred PC.Window := fun pc => by
  cases pc <;> unfold PC.Window PC.Switching <;> infer_instance

/-- The function of `fiber.c`, or of the window and behind it. -/
inductive Func
  | user
  | trampoline
  | init
  | spawn
  | free
  | yield
  | join
  | switch

def PC.func : PC → Func
  | .user => .user
  | .trampCall | .trampFinish | .trampYield | .trampAssert => .trampoline
  | .initTest | .initNext | .initF | .initCur => .init
  | .spawnTest _ _ | .spawnInit _ _ | .spawnMalloc _ _ | .spawnF _ _ _ | .spawnArgs _ _ | .spawnFinished _ | .spawnStack _
  | .spawnRsp _ | .spawnNext _ | .spawnTail _ | .spawnWhile _ _ | .spawnStep _ _ | .spawnLink _ _ => .spawn
  | .freePrev | .freeCur _ | .freeWhile _ _ | .freeIf _ _ | .freeUnlink _ _ | .freeStack _ _ | .freeFiber _ _ | .freeNext _
  | .freeMove _ | .freeStep _ _ => .free
  | .yieldInit | .yieldFree | .yieldFrom | .yieldTo _ | .yieldTest _ _ | .yieldSet _ _ | .yieldEnd => .yield
  | .joinInit | .joinFree | .joinTest => .join
  | .yieldSwitch _ _ | .pushfq | .popSaved _ | .save _ | .load _ | .pushSaved | .popfq _ | .loadRsi | .swRet => .switch

theorem func_switch {pc : PC} : pc.func = .switch ↔ pc.Window ∨ pc = .swRet := by
  cases pc <;> simp [PC.func, PC.Window, PC.Switching]

theorem PC.Switching.window {pc : PC} (h : pc.Switching) : pc.Window := by
  cases pc <;> first | exact h | exact absurd h id

theorem PC.Loaded.switching {pc : PC} (h : pc.Loaded) : pc.Switching := by
  cases pc <;> first | exact h | exact absurd h id

theorem PC.Saving.switching {pc : PC} (h : pc.Saving) : pc.Switching := by
  cases pc <;> first | exact h | exact absurd h id

theorem PC.Saving.not_loaded {pc : PC} (h : pc.Saving) : ¬ pc.Loaded := by
  cases pc <;> first | exact id | exact absurd h id

/-! ### What a fiber has still to do -/

/-- The words on a stack, the last one first. -/
def frames (w : ℕ → PC) : ℕ → List PC
  | 0 => []
  | h + 1 => w h :: frames w h

theorem frames_congr {w w' : ℕ → PC} : ∀ {h : ℕ}, (∀ i < h, w' i = w i) → frames w' h = frames w h
  | 0, _ => rfl
  | h + 1, hw => by
    rw [frames, frames, hw h (Nat.lt_succ_self h), frames_congr fun i hi => hw i (Nat.lt_succ_of_lt hi)]

/-- A fiber that runs or has stopped before. -/
def Known (s : State) (a : Addr) : Prop := a = s.running ∨ (s.stopped a).isSome

/-- A call of `SwitchFiberContext` returns to the end of `FiberYield`. -/
def PC.back : PC → PC
  | .yieldSwitch _ _ => .yieldEnd
  | pc => pc

theorem PC.back_eq {pc : PC} (h : ¬ pc.Window) : pc.back = pc := by
  cases pc <;> first | rfl | exact absurd trivial h

/-- The statements and return addresses with which `a` goes on. -/
def chain (s : State) (a : Addr) : List PC :=
  if a = s.running ∧ ¬ s.rip.Switching then s.rip.back :: frames (s.words s.rsp.block) s.rsp.height
  else ((s.stopped a).map fun k => frames k.words k.ctx.rsp.height).getD []

/-- The same behind the `ret`s of `SwitchFiberContext`. -/
def todo (s : State) (a : Addr) : List PC := (chain s a).dropWhile (· = .swRet)

/-- A return address, which holds no record. -/
def Plain : PC → Prop
  | .user | .trampFinish | .trampAssert | .spawnMalloc _ _ | .yieldFree | .yieldFrom | .yieldEnd | .joinFree
  | .joinTest => True
  | _ => False

/-- A fiber that is in the list: no statement has it to itself. -/
def Shared (hold : Addr → Option Addr) (s : State) (a : Addr) : Prop := Known s a ∧ hold a = none

/-- The fiber `a` has the record `b` to itself. -/
def Holds (hold : Addr → Option Addr) (s : State) (a b : Addr) : Prop :=
  hold b = some a ∧ b ∈ s.mem.heap

/-- What the locals of a statement of the fiber `a` are, whatever the others do. -/
def Local (hold : Addr → Option Addr) (s : State) (a : Addr) : PC → Prop
  | .initNext => s.mem.currentFiber = NULL
  | .initF | .initCur => s.mem.currentFiber = NULL ∧ s.mem.next Main = some Main
  -- the new record is no fiber yet
  | .spawnF _ _ b | .spawnArgs _ b | .spawnFinished b => b ≠ NULL → Holds hold s a b ∧ ¬ Known s b
  | .spawnStack b => b ≠ NULL → Holds hold s a b ∧ ¬ Known s b ∧ s.mem.finished b = false
  | .spawnRsp b =>
    b ≠ NULL → Holds hold s a b ∧ ¬ Known s b ∧ s.mem.finished b = false ∧
      ∀ r, s.mem.heap.lookup b = some r → r.stack ≠ NULL → hold r.stack = some a ∧ r.stack ∈ s.mem.stackBlocks
  | .spawnNext b => Holds hold s a b ∧ Known s b ∧ s.mem.finished b = false
  | .spawnTail b | .spawnWhile b _ | .spawnStep b _ | .spawnLink b _ =>
    Holds hold s a b ∧ Known s b ∧ s.mem.finished b = false ∧ s.mem.next b = some a
  | .freeCur prev => prev = a
  | .freeIf _ c | .freeUnlink _ c | .freeMove c => c ≠ a
  -- `cur` is out of the list, and with its stack it is no fiber any more
  | .freeStack _ c => Holds hold s a c ∧ Known s c
  | .freeFiber _ c => Holds hold s a c ∧ ¬ Known s c
  | .freeStep prev c => prev = c
  | .yieldTo frm | .yieldTest frm _ => frm = a
  | .yieldSet frm dst => frm = a ∧ dst ≠ a
  | .yieldSwitch _ _ | .pushfq | .popSaved _ | .save _ | .load _ | .pushSaved | .popfq _ | .loadRsi | .swRet => False
  | _ => True

/-- How far `main` can be as long as there is no list of fibers. -/
def Early (s : State) : PC → Prop
  | .user => s.rsp.height = 0
  | .spawnTest _ _ | .spawnInit _ _ | .yieldInit | .joinInit => s.rsp.height = 1 ∧ s.words s.rsp.block 0 = .user
  | .initTest | .initNext | .initF | .initCur => True
  | _ => False

/-- A statement with the right locals, and under it plain return addresses. -/
def Fit (hold : Addr → Option Addr) (s : State) (a : Addr) : Prop :=
  ∃ p ps, todo s a = p :: ps ∧ (∀ q ∈ ps, Plain q) ∧ Local hold s a p

/-- `P` of the context that is being loaded. -/
def Loads (s : State) (P : Context → Prop) : Prop :=
  ∀ t, s.mem.heap.lookup s.mem.currentFiber = some t → P t.context

/-- How far the switch from the running fiber, with the record `r`, to `CurrentFiber` has come. `k`
is where the running fiber stops. -/
def Stage (s : State) (k : Stop) (r : Fiber Context) : PC → Prop
  | .pushfq => s.regs = k.ctx.regs ∧ s.rsp = k.ctx.rsp
  | .popSaved fl => s.regs = k.ctx.regs ∧ s.rsp = k.ctx.rsp ∧ fl = k.ctx.regs .flags
  | .save rest => s.regs = k.ctx.regs ∧ s.rsp = k.ctx.rsp ∧ r.context.regs .flags = k.ctx.regs .flags ∧
      ∃ done, savedRegs = done ++ rest ∧ ∀ x ∈ done, r.context.regs x = k.ctx.regs x
  | .load rest => r.context = k.ctx ∧ s.rsp = k.ctx.rsp ∧
      ∃ done, loadedRegs = done ++ rest ∧ Loads s fun t => ∀ x ∈ done, s.regs x = t.regs x
  | .pushSaved => r.context = k.ctx ∧ Loads s fun t => s.rsp = t.rsp ∧ ∀ x ∈ loadedRegs, s.regs x = t.regs x
  | .popfq fl => r.context = k.ctx ∧
      Loads s fun t => s.rsp = t.rsp ∧ (∀ x ∈ loadedRegs, s.regs x = t.regs x) ∧ fl = t.regs .flags
  | .loadRsi => r.context = k.ctx ∧
      Loads s fun t => s.rsp = t.rsp ∧ (∀ x ∈ loadedRegs, s.regs x = t.regs x) ∧ s.regs .flags = t.regs .flags
  | _ => False

/-- In the window: the running fiber is about to stop, or has, and `CurrentFiber` is another one. -/
structure Switch (s : State) : Prop where
  current : s.mem.currentFiber ≠ NULL
  ne : s.mem.currentFiber ≠ s.running
  call : ∀ frm dst, s.rip = .yieldSwitch frm dst → frm = s.running ∧ dst = s.mem.currentFiber
  rdi : s.rip.Saving → s.regs .rdi = s.running
  rsi : s.rip.Switching → s.regs .rsi = s.mem.currentFiber
  stage : s.rip.Switching → ∀ r, s.mem.heap.lookup s.running = some r →
    ∃ k, s.stopped s.running = some k ∧ r.stack = k.ctx.rsp.block ∧
      (∀ i < k.ctx.rsp.height, s.words r.stack i = k.words i) ∧ Stage s k r s.rip

/-- What every step preserves, as long as no tick comes in the window and the pointers into the list are fresh. -/
structure Inv (hold : Addr → Option Addr) (s : State) : Prop where
  heap : ∀ a ∈ s.mem.heap, a ≠ NULL ∧ a ∉ s.mem.stackBlocks
  holdIn : ∀ a x, hold a = some x → a ∈ s.mem.heap ∨ a ∈ s.mem.stackBlocks
  recs : ∀ a, Known s a → ∃ r, s.mem.heap.lookup a = some r ∧ Allocated s.mem r.stack ∧ hold r.stack = none
  start : s.mem.currentFiber = NULL → s.running = Main ∧ (∀ a, s.stopped a = none) ∧ Early s s.rip
  self : hold s.running = none
  ring : s.mem.currentFiber ≠ NULL → Cycle s.mem ∧ ∀ a, Shared hold s a ↔ a ∈ nodes s.mem
  runs : ¬ s.rip.Window → s.mem.currentFiber ≠ NULL → s.running = s.mem.currentFiber
  kept : Kept s
  inj : ∀ a b r t, Known s a → Known s b → s.mem.heap.lookup a = some r → s.mem.heap.lookup b = some t →
    r.stack = t.stack → a = b
  live : ∃ r, s.mem.heap.lookup s.running = some r ∧ (¬ s.rip.Loaded → s.rsp.block = r.stack)
  fits : ∀ a, Known s a → Fit hold s a
  switch : s.rip.Window → Switch s

theorem init_inv (g : Regs) : Inv (fun _ => none) (init g) := by
  have hM : ∀ a, Known (init g) a → a = Main := fun a ha => ha.resolve_right (by rintro ⟨⟩)
  have hmem : ∀ a, a ∈ (init g).mem.heap ↔ a = Main := fun a => by
    rw [AList.mem_keys]
    simp [init, startMem]
  have hmain : ∃ r, (init g).mem.heap.lookup Main = some r ∧ r.stack = NULL := ⟨_, rfl, rfl⟩
  obtain ⟨r, hr, hst⟩ := hmain
  refine ⟨fun a ha => ?_, fun _ _ h => absurd h (Option.some_ne_none _).symm, fun a ha => ?_, fun _ => ⟨rfl, fun _ => rfl, rfl⟩, rfl,
    fun h => absurd rfl h, fun _ h => absurd rfl h, fun a k r ha => ?_, fun a b r t ha hb _ _ _ => ?_,
    ⟨r, hr, fun _ => hst.symm⟩, fun a ha => ?_, fun h => absurd h id⟩
  · rw [(hmem a).mp ha]
    exact ⟨by decide, List.not_mem_nil⟩
  · rw [hM a ha]
    exact ⟨r, hr, Or.inl hst, rfl⟩
  · exact fun h => absurd h (Option.some_ne_none _).symm
  · rw [hM a ha, hM b hb]
  · rw [hM a ha]
    exact ⟨.user, [], rfl, fun q hq => absurd hq List.not_mem_nil, trivial⟩

/-! ### A statement of the running fiber -/

section

variable {hold hold' : Addr → Option Addr} {s s' : State} {a : Addr}

theorem chain_running (h : ¬ s.rip.Switching) :
    chain s s.running = s.rip.back :: frames (s.words s.rsp.block) s.rsp.height := if_pos ⟨rfl, h⟩

theorem chain_switching (h : s.rip.Switching) {k : Stop} (hk : s.stopped s.running = some k) :
    chain s s.running = frames k.words k.ctx.rsp.height := by
  unfold chain
  rw [if_neg fun hn => hn.2 h, hk]
  rfl

theorem chain_stopped (h : a ≠ s.running) {k : Stop} (hk : s.stopped a = some k) :
    chain s a = frames k.words k.ctx.rsp.height := by
  unfold chain
  rw [if_neg fun hn => h hn.1, hk]
  rfl

/-- What a fiber that does not run has still to do is in its stop. -/
theorem chain_congr (h : a ≠ s.running) (h' : a ≠ s'.running) (hs : s'.stopped a = s.stopped a) : chain s' a = chain s a := by
  unfold chain
  rw [if_neg fun hn => h' hn.1, if_neg fun hn => h hn.1, hs]

theorem todo_congr (h : a ≠ s.running) (h' : a ≠ s'.running) (hs : s'.stopped a = s.stopped a) : todo s' a = todo s a := by
  rw [todo, todo, chain_congr h h' hs]

/-- At a statement outside the window, and not at the `ret` of `SwitchFiberContext`. -/
theorem todo_running (hw : ¬ s.rip.Window) (hne : s.rip ≠ .swRet) :
    todo s s.running = s.rip :: frames (s.words s.rsp.block) s.rsp.height := by
  rw [todo, chain_running fun hs => hw hs.window, PC.back_eq hw, List.dropWhile_cons_of_neg (by simpa using hne)]

theorem Plain.local {q : PC} (h : Plain q) : Local hold s a q := by
  cases q <;> first | exact trivial | exact absurd h id

theorem Plain.not_window {q : PC} (h : Plain q) : ¬ q.Window ∧ q ≠ .swRet ∧ q.back = q := by
  cases q <;> first | exact absurd h id | exact ⟨id, by rintro ⟨⟩, rfl⟩

theorem Local.not_window {q : PC} (h : Local hold s a q) : ¬ q.Window ∧ q ≠ .swRet ∧ q.back = q := by
  cases q <;> first | exact absurd h id | exact ⟨id, by rintro ⟨⟩, rfl⟩

/-- The top of a fit chain. -/
theorem Local.top {p q : PC} {ps qs : List PC} (h : Local hold s a p) (hq : (q :: qs).dropWhile (· = .swRet) = p :: ps) :
    ¬ q.Window := by
  by_cases he : q = .swRet
  · rw [he]
    exact id
  · rw [List.dropWhile_cons_of_neg (by simpa using he), List.cons.injEq] at hq
    rw [hq.1]
    exact h.not_window.1

/-- What the fiber `a` holds at `b` is left alone. -/
def Left (hold' : Addr → Option Addr) (s s' : State) (a b : Addr) : Prop :=
  hold' b = some a ∧ s'.mem.heap.lookup b = s.mem.heap.lookup b ∧ (Known s' b ↔ Known s b) ∧
    (b ∈ s.mem.stackBlocks → b ∈ s'.mem.stackBlocks)

theorem finished_congr {m m' : Mem Context} (h : m'.heap.lookup a = m.heap.lookup a) : m'.finished a = m.finished a := by
  rw [Mem.finished, Mem.finished, h]

theorem next_congr {m m' : Mem Context} (h : m'.heap.lookup a = m.heap.lookup a) : m'.next a = m.next a := by
  rw [Mem.next, Mem.next, h]

/-- A fiber's locals stay what they are while others run: the records it holds stay as they are. -/
theorem Local.mono {p : PC} (h : Local hold s a p) (hheld : ∀ b, hold b = some a → Left hold' s s' a b)
    (hstart : s.mem.currentFiber = NULL → s'.mem = s.mem) : Local hold' s' a p := by
  have hholds : ∀ b, Holds hold s a b → Holds hold' s' a b := fun b hb => by
    obtain ⟨h1, h2, -⟩ := hheld b hb.1
    refine ⟨h1, ?_⟩
    rw [← AList.lookup_isSome, h2, AList.lookup_isSome]
    exact hb.2
  have hknown : ∀ b, Holds hold s a b → (Known s' b ↔ Known s b) := fun b hb => (hheld b hb.1).2.2.1
  have hfin : ∀ b, Holds hold s a b → s.mem.finished b = false → s'.mem.finished b = false := fun b hb hf =>
    (finished_congr (hheld b hb.1).2.1).trans hf
  have hnext : ∀ b, Holds hold s a b → s.mem.next b = some a → s'.mem.next b = some a := fun b hb hn =>
    (next_congr (hheld b hb.1).2.1).trans hn
  cases p with
  | initNext => exact (congrArg _ (hstart h)).trans h
  | initF | initCur => exact ⟨(congrArg _ (hstart h.1)).trans h.1, (congrArg (fun m => m.next Main) (hstart h.1)).trans h.2⟩
  | spawnF f args b | spawnArgs args b | spawnFinished b =>
    exact fun hb => ⟨hholds b (h hb).1, fun hk => (h hb).2 ((hknown b (h hb).1).mp hk)⟩
  | spawnStack b =>
    intro hb
    obtain ⟨h1, h2, h3⟩ := h hb
    exact ⟨hholds b h1, fun hk => h2 ((hknown b h1).mp hk), hfin b h1 h3⟩
  | spawnRsp b =>
    intro hb
    obtain ⟨h1, h2, h3, h4⟩ := h hb
    refine ⟨hholds b h1, fun hk => h2 ((hknown b h1).mp hk), hfin b h1 h3, fun r hr hst => ?_⟩
    rw [(hheld b h1.1).2.1] at hr
    obtain ⟨h5, h6⟩ := h4 r hr hst
    exact ⟨(hheld _ h5).1, (hheld _ h5).2.2.2 h6⟩
  | spawnNext b => exact ⟨hholds b h.1, (hknown b h.1).mpr h.2.1, hfin b h.1 h.2.2⟩
  | spawnTail b | spawnWhile b tail | spawnStep b tail | spawnLink b tail =>
    exact ⟨hholds b h.1, (hknown b h.1).mpr h.2.1, hfin b h.1 h.2.2.1, hnext b h.1 h.2.2.2⟩
  | freeStack prev c => exact ⟨hholds c h.1, (hknown c h.1).mpr h.2⟩
  | freeFiber prev c => exact ⟨hholds c h.1, fun hk => h.2 ((hknown c h.1).mp hk)⟩
  | _ => exact h

theorem Early.congr {p : PC} (h : Early s p) (hrsp : s'.rsp = s.rsp) (hwords : s'.words = s.words) : Early s' p := by
  unfold Early at h ⊢
  rwa [hrsp, hwords]

theorem Inv.record (h : Inv hold s) (ha : Known s a) : a ∈ s.mem.heap := by
  obtain ⟨r, hr, -⟩ := h.recs a ha
  exact Mem.mem_of_lookup hr

theorem Inv.ne_null (h : Inv hold s) (ha : Known s a) : a ≠ NULL := (h.heap a (h.record ha)).1

theorem Inv.stack (h : Inv hold s) {r : Fiber Context} (ha : Known s a) (hr : s.mem.heap.lookup a = some r) :
    Allocated s.mem r.stack ∧ hold r.stack = none := by
  obtain ⟨t, ht, h1, h2⟩ := h.recs a ha
  obtain rfl := Option.some.inj (hr.symm.trans ht)
  exact ⟨h1, h2⟩

/-- No stack is where a record is. -/
theorem Inv.stack_ne (h : Inv hold s) {r : Fiber Context} (ha : Known s a) (hr : s.mem.heap.lookup a = some r) {b : Addr}
    (hb : b ∈ s.mem.heap) : r.stack ≠ b := by
  obtain ⟨h1, h2⟩ := h.heap b hb
  rintro rfl
  exact (h.stack ha hr).1.elim h1 h2

theorem Inv.current (h : Inv hold s) (hc : s.mem.currentFiber ≠ NULL) : Shared hold s s.mem.currentFiber :=
  ((h.ring hc).2 _).mpr (h.ring hc).1.current_mem

/-- Where a link of the list leads. -/
theorem Inv.linked (h : Inv hold s) (hc : s.mem.currentFiber ≠ NULL) {r : Fiber Context} (ha : Shared hold s a)
    (hr : s.mem.heap.lookup a = some r) : Shared hold s r.next := by
  obtain ⟨hcy, hn⟩ := h.ring hc
  exact (hn _).mpr (hcy.next_mem ((hn a).mp ha) hr)

/-- What a statement of the running fiber may do to the records: those of the fibers keep their
context and stack, and those that another fiber holds are left alone. -/
structure Edit (hold hold' : Addr → Option Addr) (s s' : State) : Prop where
  heap : ∀ a ∈ s'.mem.heap, a ≠ NULL ∧ a ∉ s'.mem.stackBlocks
  holdIn : ∀ a x, hold' a = some x → a ∈ s'.mem.heap ∨ a ∈ s'.mem.stackBlocks
  running : s'.running = s.running
  stops : ∀ a k, s'.stopped a = some k → s.stopped a = some k
  recs : ∀ a, Known s' a → ∃ r r', s.mem.heap.lookup a = some r ∧ s'.mem.heap.lookup a = some r' ∧
    r'.context = r.context ∧ r'.stack = r.stack ∧ Allocated s'.mem r.stack ∧ hold' r.stack = none
  self : hold' s.running = none
  others : ∀ b x, hold b = some x → x ≠ s.running → Left hold' s s' x b
  ring : s.mem.currentFiber ≠ NULL → Cycle s'.mem ∧ ∀ a, Shared hold' s' a ↔ a ∈ nodes s'.mem

theorem Edit.known (h : Edit hold hold' s s') (ha : Known s' a) : Known s a := by
  rcases ha with rfl | ha
  · exact Or.inl h.running
  · obtain ⟨k, hk⟩ := Option.isSome_iff_exists.mp ha
    exact Or.inr (by rw [h.stops a k hk]; rfl)

/-- **One statement.** The invariant is kept by a statement of the running fiber, outside the
window, that edits the records so, stays on its stack and leaves the fiber a fit chain. -/
theorem Inv.next (h : Inv hold s) (hw : ¬ s.rip.Window) (hw' : ¬ s'.rip.Window) (hcur : s'.mem.currentFiber = s.mem.currentFiber)
    (hblock : s'.rsp.block = s.rsp.block) (hwords : ∀ b, b ≠ s.rsp.block → s'.words b = s.words b)
    (hedit : Edit hold hold' s s') (hstart : s.mem.currentFiber = NULL → Early s' s'.rip)
    (hfit : Fit hold' s' s.running) : Inv hold' s' := by
  have hrun := hedit.running
  have hself : Known s s.running := Or.inl rfl
  have hstop : ∀ a, a ≠ s.running → Known s' a → s'.stopped a = s.stopped a := fun a har ha => by
    obtain ⟨k, hk⟩ := Option.isSome_iff_exists.mp (ha.resolve_left (by rwa [hrun]))
    rw [hk, hedit.stops a k hk]
  obtain ⟨r₀, hr₀, hb₀⟩ := h.live
  have hb₀ := hb₀ fun hl => hw hl.switching.window
  obtain ⟨r₁, r₂, hr₁, hr₂, -, hst₁, -⟩ := hedit.recs s.running (Or.inl hrun.symm)
  obtain rfl := Option.some.inj (hr₀.symm.trans hr₁)
  refine ⟨hedit.heap, hedit.holdIn, fun a ha => ?_, fun hc => ?_, hrun ▸ hedit.self, fun hc => hedit.ring (hcur ▸ hc),
    fun _ hc => ?_, fun a k r' ha hk hr' => ?_, fun a b r' t' ha hb hr' ht' hst => ?_, ?_, fun a ha => ?_, fun hwin => absurd hwin hw'⟩
  · obtain ⟨r, r', -, hr', -, hst, h1, h2⟩ := hedit.recs a ha
    exact ⟨r', hr', hst ▸ h1, hst ▸ h2⟩
  · rw [hcur] at hc
    obtain ⟨h1, h2, -⟩ := h.start hc
    refine ⟨hrun.trans h1, fun a => ?_, hstart hc⟩
    cases hk : s'.stopped a with
    | none => rfl
    | some k => cases (h2 a).symm.trans (hedit.stops a k hk)
  · rw [hcur] at hc ⊢
    rw [hrun]
    exact h.runs hw hc
  · rw [hrun] at ha
    obtain ⟨r, t, hr, ht, hctx, hst, -⟩ := hedit.recs a (Or.inr (by rw [hk]; rfl))
    obtain rfl := Option.some.inj (hr'.symm.trans ht)
    have hk := hedit.stops a k hk
    obtain ⟨h1, h2, h3⟩ := h.kept a k r ha hk hr
    have hne : r.stack ≠ s.rsp.block := fun he =>
      ha (h.inj a _ r r₀ (Or.inr (by rw [hk]; rfl)) hself hr hr₀ (he.trans hb₀))
    rw [hctx, hst, hwords _ hne]
    exact ⟨h1, h2, h3⟩
  · obtain ⟨r, u, hr, hu, -, h1, -⟩ := hedit.recs a ha
    obtain ⟨t, v, ht, hv, -, h2, -⟩ := hedit.recs b hb
    obtain rfl := Option.some.inj (hr'.symm.trans hu)
    obtain rfl := Option.some.inj (ht'.symm.trans hv)
    exact h.inj a b r t (hedit.known ha) (hedit.known hb) hr ht (by rw [← h1, ← h2, hst])
  · rw [hrun, hblock]
    exact ⟨r₂, hr₂, fun _ => by rw [hst₁, hb₀]⟩
  · by_cases har : a = s.running
    · rw [har]
      exact hfit
    · have hka := hedit.known ha
      obtain ⟨p, ps, hch, hps, hloc⟩ := h.fits a hka
      refine ⟨p, ps, ?_, hps, hloc.mono (fun b hb => hedit.others b a hb har) fun hc => ?_⟩
      · rw [todo_congr har (by rwa [hrun]) (hstop a har ha), hch]
      · rw [Known, (h.start hc).2.1 a] at hka
        exact absurd hka (by simpa using har)

theorem Edit.congr (h : Edit hold hold' s s') {s'' : State} (hm : s''.mem = s'.mem) (hr : s''.running = s'.running)
    (hs : s''.stopped = s'.stopped) : Edit hold hold' s s'' := by
  have hknown : ∀ a, Known s'' a ↔ Known s' a := fun a => by rw [Known, Known, hr, hs]
  refine ⟨by rw [hm]; exact h.heap, by rw [hm]; exact h.holdIn, hr.trans h.running, by rw [hs]; exact h.stops, fun a ha => ?_, h.self,
    fun b x hb hx => ?_, fun hc => ?_⟩
  · rw [hm]
    exact h.recs a ((hknown a).mp ha)
  · obtain ⟨h1, h2, h3, h4⟩ := h.others b x hb hx
    exact ⟨h1, by rw [hm, h2], (hknown b).trans h3, by rw [hm]; exact h4⟩
  · simp only [hm, Shared, hknown]
    exact h.ring hc

/-- The list is the same as long as its links are. -/
theorem Inv.same_ring (h : Inv hold s) (hc : s.mem.currentFiber ≠ NULL) (hcur : s'.mem.currentFiber = s.mem.currentFiber)
    (hnext : ∀ a, Shared hold s a → s'.mem.next a = s.mem.next a) (hshared : ∀ a, Shared hold' s' a ↔ Shared hold s a) :
    Cycle s'.mem ∧ ∀ a, Shared hold' s' a ↔ a ∈ nodes s'.mem := by
  obtain ⟨hcy, hn⟩ := h.ring hc
  obtain ⟨hcy', hn'⟩ := hcy.congr hcur fun a ha => hnext a ((hn a).mpr ha)
  exact ⟨hcy', fun a => by rw [hshared, hn, hn']⟩

/-- No edit. -/
theorem Inv.edit (h : Inv hold s) : Edit hold hold s s := by
  refine ⟨h.heap, h.holdIn, rfl, fun _ _ hk => hk, fun a ha => ?_, h.self, fun b x hb _ => ⟨hb, rfl, Iff.rfl, id⟩, h.ring⟩
  obtain ⟨r, hr, h1, h2⟩ := h.recs a ha
  exact ⟨r, r, hr, hr, rfl, rfl, h1, h2⟩

theorem mem_put {m : Mem Context} {x : Addr} {r r' : Fiber Context} (hx : m.heap.lookup x = some r) :
    a ∈ (m.put x r').heap ↔ a ∈ m.heap := by
  rw [← AList.lookup_isSome, Mem.lookup_put, ← AList.lookup_isSome]
  split_ifs with ha
  · rw [ha, hx]
    exact iff_of_true rfl rfl
  · rfl

/-- A field of a record that no other fiber holds, its context, its stack and the links of the list apart. -/
theorem Inv.edit_put (h : Inv hold s) {x : Addr} {r r' : Fiber Context} (hx : s.mem.heap.lookup x = some r)
    (hctx : r'.context = r.context) (hst : r'.stack = r.stack) (hown : ∀ y, hold x = some y → y = s.running)
    (hlink : s.mem.currentFiber ≠ NULL → Shared hold s x → r'.next = r.next) :
    Edit hold hold s { s with mem := s.mem.put x r' } := by
  refine ⟨fun a ha => h.heap a ((mem_put hx).mp ha), fun a y ha => (h.holdIn a y ha).imp_left (mem_put hx).mpr, rfl, fun _ _ hk => hk,
    fun a ha => ?_, h.self, fun b y hb hy => ⟨hb, ?_, Iff.rfl, id⟩, fun hc => h.same_ring hc rfl (fun a ha => ?_) fun _ => Iff.rfl⟩
  · obtain ⟨t, ht, h1, h2⟩ := h.recs a ha
    by_cases hax : a = x
    · obtain rfl := Option.some.inj (hx.symm.trans (hax ▸ ht))
      exact ⟨r, r', ht, Mem.lookup_put.trans (if_pos hax), hctx, hst, h1, h2⟩
    · exact ⟨t, t, ht, (Mem.lookup_put.trans (if_neg hax)).trans ht, rfl, rfl, h1, h2⟩
  · refine Mem.lookup_put.trans (if_neg ?_)
    rintro rfl
    exact hy (hown y hb)
  · show (s.mem.put x r').next a = _
    rw [Mem.next_put]
    split_ifs with hax
    · subst hax
      rw [hlink hc ha, Fibers.next_of_lookup hx]
    · rfl

/-- Outside the window, and not at the `ret` of `SwitchFiberContext`, the running fiber is at a
statement with the right locals, on a stack of plain return addresses. -/
theorem Inv.here (h : Inv hold s) (hw : ¬ s.rip.Window) (hne : s.rip ≠ .swRet) :
    Local hold s s.running s.rip ∧ ∀ q ∈ frames (s.words s.rsp.block) s.rsp.height, Plain q := by
  obtain ⟨p, ps, hch, hps, hloc⟩ := h.fits _ (Or.inl rfl)
  rw [todo_running hw hne, List.cons.injEq] at hch
  rw [hch.1, hch.2]
  exact ⟨hloc, hps⟩

/-- A fit chain for a fiber at the statement `pc`. -/
theorem fit_at {pc : PC} (hpc : s'.rip = pc) (hloc : Local hold' s' s'.running pc)
    (hps : ∀ q ∈ frames (s'.words s'.rsp.block) s'.rsp.height, Plain q) : Fit hold' s' s'.running := by
  obtain ⟨hwin, hne, -⟩ := hloc.not_window
  refine ⟨pc, _, ?_, hps, hloc⟩
  rw [todo_running (by rwa [hpc]) (by rwa [hpc]), hpc]

/-- `s₁` is `s` with other records, registers and history, at the same place of the same stack. -/
structure SamePlace (s s₁ : State) : Prop where
  current : s₁.mem.currentFiber = s.mem.currentFiber
  rsp : s₁.rsp = s.rsp
  words : s₁.words = s.words

variable {s₁ : State}

/-- A statement that edits the records and goes on at `pc`. -/
theorem Inv.goes (h : Inv hold s) (hw : ¬ s.rip.Window) (hne : s.rip ≠ .swRet) (hp : SamePlace s s₁)
    (hedit : Edit hold hold' s s₁) {g : Regs} {pc : PC} (hstart : s.mem.currentFiber = NULL → Early s pc)
    (hloc : Local hold' (s₁.goto g pc) s.running pc) : Inv hold' (s₁.goto g pc) := by
  have hps := (h.here hw hne).2
  rw [← hp.rsp, ← hp.words] at hps
  refine h.next hw hloc.not_window.1 hp.current (by rw [← hp.rsp]; rfl) (fun b _ => by rw [← hp.words]; rfl)
    (hedit.congr rfl rfl rfl) (fun hc => ?_) ?_
  · exact (hstart hc).congr hp.rsp hp.words
  · rw [← hedit.running] at hloc ⊢
    exact fit_at rfl hloc hps

/-- A call pushes a return address. -/
theorem frames_call (g : Regs) (back pc : PC) :
    frames ((s.call g back pc).words s.rsp.block) (s.rsp.height + 1) = back :: frames (s.words s.rsp.block) s.rsp.height := by
  have htop : (s.call g back pc).words s.rsp.block s.rsp.height = back := if_pos ⟨rfl, rfl⟩
  have hbelow : ∀ i < s.rsp.height, (s.call g back pc).words s.rsp.block i = s.words s.rsp.block i := fun i hi =>
    if_neg fun hn => absurd hn.2 (Nat.ne_of_lt hi)
  rw [frames, htop, frames_congr hbelow]

/-- A call. -/
theorem Inv.calls (h : Inv hold s) (hw : ¬ s.rip.Window) (hne : s.rip ≠ .swRet) (g : Regs) {back pc : PC} (hback : Plain back)
    (hstart : s.mem.currentFiber = NULL → Early (s.call g back pc) pc) (hloc : Local hold s s.running pc) :
    Inv hold (s.call g back pc) := by
  have hps := (h.here hw hne).2
  have hwords : ∀ b, b ≠ s.rsp.block → (s.call g back pc).words b = s.words b := fun b hb => by
    funext i
    exact if_neg fun hn => hb hn.1
  have hloc' : Local hold (s.call g back pc) s.running pc :=
    hloc.mono (fun b hb => ⟨hb, rfl, Iff.rfl, id⟩) fun _ => rfl
  refine h.next hw hloc.not_window.1 rfl rfl hwords (h.edit.congr rfl rfl rfl) hstart ?_
  refine fit_at rfl hloc' fun q hq => ?_
  change q ∈ frames ((s.call g back pc).words s.rsp.block) (s.rsp.height + 1) at hq
  rw [frames_call] at hq
  rcases List.mem_cons.mp hq with rfl | hq
  · exact hback
  · exact hps q hq

theorem pop_ok (h : s.pop = .ok s') :
    ∃ k, s.rsp.height = k + 1 ∧ s' = { s with rsp := ⟨s.rsp.block, k⟩, rip := s.words s.rsp.block k } := by
  unfold pop at h
  split at h
  · cases h
  · next k hk => exact ⟨k, hk, (Except.ok.inj h).symm⟩

/-- A `ret`, after an edit of the records. -/
theorem Inv.returns (h : Inv hold s) (hw : ¬ s.rip.Window) (hne : s.rip ≠ .swRet) (hp : SamePlace s s₁)
    (hedit : Edit hold hold' s s₁) (hstart : s.mem.currentFiber = NULL → Early s' s'.rip) {g : Regs}
    (hs : s₁.leave g = .ok s') : Inv hold' s' := by
  obtain ⟨k, hk, rfl⟩ := pop_ok hs
  have hps := (h.here hw hne).2
  have hk : s.rsp.height = k + 1 := by rw [← hp.rsp]; exact hk
  rw [hk] at hps
  have hplain : Plain (s.words s.rsp.block k) := hps _ List.mem_cons_self
  have hrip : s₁.words s₁.rsp.block k = s.words s.rsp.block k := by rw [hp.words, hp.rsp]
  refine h.next hw ?_ hp.current (by rw [← hp.rsp]) (fun b _ => by rw [← hp.words]) (hedit.congr rfl rfl rfl) hstart ?_
  · show ¬ (s₁.words s₁.rsp.block k).Window
    rw [hrip]
    exact hplain.not_window.1
  · rw [← hedit.running]
    refine fit_at hrip hplain.local fun q hq => hps q (List.mem_cons_of_mem _ ?_)
    have hq : q ∈ frames (s₁.words s₁.rsp.block) k := hq
    rwa [hp.words, hp.rsp] at hq

/-! ### A change of the running fiber -/

/-- Each fiber has still to do what it had, and of the records only contexts have changed: the
processor may have gone from one fiber to another. -/
structure Handover (hold : Addr → Option Addr) (s s' : State) : Prop where
  known : ∀ a, Known s' a ↔ Known s a
  todo : ∀ a, Known s a → todo s' a = todo s a
  bare : ∀ a, (s'.mem.heap.lookup a).map Fiber.bare = (s.mem.heap.lookup a).map Fiber.bare
  held : ∀ a x, hold a = some x → s'.mem.heap.lookup a = s.mem.heap.lookup a
  blocks : s'.mem.stackBlocks = s.mem.stackBlocks
  unfinished : s'.unfinished = s.unfinished

theorem Handover.back (h : Handover hold s s') {r' : Fiber Context} (hr' : s'.mem.heap.lookup a = some r') :
    ∃ r, s.mem.heap.lookup a = some r ∧ r'.bare = r.bare := by
  have hbare := h.bare a
  rw [hr'] at hbare
  obtain ⟨r, hr, he⟩ := Option.map_eq_some_iff.mp hbare.symm
  exact ⟨r, hr, he.symm⟩

theorem Handover.forth (h : Handover hold s s') {r : Fiber Context} (hr : s.mem.heap.lookup a = some r) :
    ∃ r', s'.mem.heap.lookup a = some r' ∧ r'.bare = r.bare := by
  have hbare := h.bare a
  rw [hr] at hbare
  obtain ⟨r', hr', he⟩ := Option.map_eq_some_iff.mp hbare
  exact ⟨r', hr', he⟩

theorem Handover.mem (h : Handover hold s s') : a ∈ s'.mem.heap ↔ a ∈ s.mem.heap := by
  rw [← AList.lookup_isSome, ← AList.lookup_isSome, ← Option.isSome_map (f := Fiber.bare), h.bare, Option.isSome_map]

theorem Handover.next (h : Handover hold s s') : s'.mem.next = s.mem.next := by
  have hmap : ∀ x : Option (Fiber Context), x.map Fiber.next = (x.map Fiber.bare).map Fiber.next := fun x => by cases x <;> rfl
  funext a
  rw [Mem.next, Mem.next, hmap, hmap, h.bare]

theorem Handover.finished (h : Handover hold s s') (a : Addr) : s'.mem.finished a = s.mem.finished a := by
  have hany : ∀ x : Option (Fiber Context), x.any Fiber.finished = (x.map Fiber.bare).any Fiber.finished := fun x => by
    cases x <;> rfl
  rw [Mem.finished, Mem.finished, hany, hany, h.bare]

theorem Handover.shared (h : Handover hold s s') (a : Addr) : Shared hold s' a ↔ Shared hold s a := and_congr_left' (h.known a)

/-- The invariant is kept if the fiber that runs then is at its place. -/
theorem Inv.handover (h : Inv hold s) (hh : Handover hold s s') (hc : s.mem.currentFiber ≠ NULL)
    (hcur : Shared hold s s'.mem.currentFiber) (hself : hold s'.running = none)
    (hruns : ¬ s'.rip.Window → s'.running = s'.mem.currentFiber) (hkept : Kept s')
    (hlive : ∃ r, s'.mem.heap.lookup s'.running = some r ∧ (¬ s'.rip.Loaded → s'.rsp.block = r.stack))
    (hswitch : s'.rip.Window → Switch s') : Inv hold s' := by
  obtain ⟨hcy, hn⟩ := h.ring hc
  refine ⟨fun a ha => hh.blocks ▸ h.heap a (hh.mem.mp ha), fun a x ha => ?_, fun a ha => ?_, fun hz => absurd hz (h.ne_null hcur.1),
    hself, fun _ => ?_, fun hw _ => hruns hw, hkept, fun a b r' t' ha hb hr' ht' hst => ?_, hlive, fun a ha => ?_, hswitch⟩
  · rw [hh.mem, hh.blocks]
    exact h.holdIn a x ha
  · obtain ⟨r, hr, h1, h2⟩ := h.recs a ((hh.known a).mp ha)
    obtain ⟨r', hr', he⟩ := hh.forth hr
    rw [← (Fiber.of_bare he).2.1] at h1 h2
    exact ⟨r', hr', by rwa [Allocated, hh.blocks], h2⟩
  · obtain ⟨hcy', hn'⟩ := hcy.enter ((hn _).mp hcur) hh.next
    exact ⟨hcy', fun a => by rw [hh.shared, hn, hn']⟩
  · obtain ⟨r, hr, he⟩ := hh.back hr'
    obtain ⟨t, ht, he'⟩ := hh.back ht'
    have hst : r.stack = t.stack := (Fiber.of_bare he).2.1.symm.trans (hst.trans (Fiber.of_bare he').2.1)
    exact h.inj a b r t ((hh.known a).mp ha) ((hh.known b).mp hb) hr ht hst
  · obtain ⟨p, ps, hch, hps, hloc⟩ := h.fits a ((hh.known a).mp ha)
    exact ⟨p, ps, (hh.todo a ((hh.known a).mp ha)).trans hch, hps,
      hloc.mono (fun b hb => ⟨hb, hh.held b a hb, hh.known b, by rw [hh.blocks]; exact id⟩) fun hn => absurd hn hc⟩

end

end Steps
end PFibers
end OsLabs
