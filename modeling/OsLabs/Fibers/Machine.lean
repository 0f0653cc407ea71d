/-
# The machine that runs fibers

The processor runs one fiber at a time, on that fiber's stack. An event is
what the running code does next: work on its registers, one of the three
calls, the return of the fiber's function into `FiberTrampoline`, or, in
`pfibers`, a tick of `SIGALRM`, which runs `fiber_sched`. Each call is one
event here; `OsLabs/PFibers/Steps.lean` takes them statement by statement.

`ρ` is the registers other than the stack pointer that are kept of a stopped
fiber (the six callee-saved ones in `fibers`, all of them in `pfibers`). The
stack pointer is kept as the stack it points into and where the return
address on top of it leads.

Key definitions: `State`, `step`.
Key theorem: `fiberYield_spec`.
-/
import OsLabs.Lib.Run
import OsLabs.Fibers.Api

namespace OsLabs
namespace Fibers

open Mem

/-- Where the return address on top of a stopped fiber's stack leads: to
`FiberTrampoline` if the fiber never ran, into its user code, or behind the
last `FiberYield` of `FiberTrampoline`, to `assert(0)`. -/
inductive Point
  | trampoline
  | user
  | final
  deriving DecidableEq, Repr

structure Rsp where
  stack : Addr
  ret : Point

/-- The registers kept of a stopped fiber. -/
structure Context (ρ : Type) where
  rsp : Rsp
  regs : ρ

variable {ρ : Type}

/-- `joined` is what `FiberTryJoin` returned, if that was the last event. -/
structure State (ρ : Type) where
  mem : Mem (Context ρ)
  stack : Addr
  regs : ρ
  joined : Option Bool

/-- `PrepareStack`: the new stack holds the address of `FiberTrampoline`. -/
def prepareStack (k : Context ρ) (stack : Addr) : Context ρ := { k with rsp := ⟨stack, .trampoline⟩ }

/-- The registers `fibers/fiber_asm.S` keeps besides `rsp`. -/
structure Saved where
  rbx : ℕ
  rbp : ℕ
  r12 : ℕ
  r13 : ℕ
  r14 : ℕ
  r15 : ℕ
  deriving DecidableEq, Repr

/-- What the running code does next. -/
inductive Event (ρ : Type)
  | work (regs : ρ)
  | spawn (f args fiber stack : Addr) (junk : Context ρ)
  | yield
  | tryJoin
  | ret
  | tick

/-- The code behind the return address `ret` goes on. -/
def goOn (ret : Point) (s : State ρ) : Except Fault (State ρ) :=
  match ret with
  | .trampoline => do
    -- `CurrentFiber->f(CurrentFiber->args);`
    let _ ← s.mem.get s.mem.currentFiber
    pure s
  | .user => .ok s
  | .final => .error .assertion

/-- `SwitchFiberContext(from, to)` (`frm` and `dst` here), called with the return address `ret`. -/
def switchFiberContext (frm dst : Addr) (ret : Point) (s : State ρ) : Except Fault (State ρ) := do
  let r ← s.mem.get frm
  let m := s.mem.put frm { r with context := ⟨⟨s.stack, ret⟩, s.regs⟩ }
  let t ← m.get dst
  goOn t.context.rsp.ret { s with mem := m, stack := t.context.rsp.stack, regs := t.context.regs }

def fiberYield (lib : Lib) (ret : Point) (s : State ρ) : Except Fault (State ρ) := do
  let m ← initMainFiber lib s.mem
  let m ← freeFinishedFibers m
  let r ← m.get m.currentFiber
  let frm := m.currentFiber
  let dst := r.next
  if dst = frm then goOn ret { s with mem := m }
  else switchFiberContext frm dst ret { s with mem := { m with currentFiber := dst } }

/-- The end of `FiberTrampoline`, after the fiber's function has returned. -/
def fiberReturn (lib : Lib) (s : State ρ) : Except Fault (State ρ) := do
  let r ← s.mem.get s.mem.currentFiber
  fiberYield lib .final { s with mem := s.mem.put s.mem.currentFiber { r with finished := true } }

/-- The handler of `SIGALRM`, when it interrupts user code. -/
def fiberSched (s : State ρ) : Except Fault (State ρ) := do
  let c ← s.mem.get s.mem.currentFiber
  if c.next = s.mem.currentFiber then pure s
  else
    let m := s.mem.put s.mem.currentFiber { c with context := ⟨⟨s.stack, .user⟩, s.regs⟩ }
    let m := { m with currentFiber := c.next }
    let t ← m.get m.currentFiber
    goOn t.context.rsp.ret { s with mem := m, stack := t.context.rsp.stack, regs := t.context.regs }

def step (lib : Lib) (s : State ρ) : Event ρ → Except Fault (State ρ)
  | .work regs => .ok { s with regs := regs, joined := none }
  | .spawn f args fiber stack junk => do
    let m ← fiberSpawn lib prepareStack f args fiber stack junk s.mem
    pure { s with mem := m, joined := none }
  | .yield => fiberYield lib .user { s with joined := none }
  | .tryJoin => do
    let (m, b) ← fiberTryJoin lib s.mem
    pure { s with mem := m, joined := some b }
  | .ret => fiberReturn lib { s with joined := none }
  | .tick => fiberSched { s with joined := none }

/-- The process starts in `main`, on the process's own stack (`NULL` here, as
`Main.stack`), with a zero `Main` record. -/
def init (zero : Context ρ) (regs : ρ) : State ρ :=
  { mem := startMem zero
    stack := NULL
    regs := regs
    joined := none }

/-- What `malloc` and the main fiber promise: a `malloc` that succeeds returns
an address that is not in use, and `main` does not return. -/
def Fair (s : State ρ) : Event ρ → Prop
  | .spawn _ _ fiber stack _ => (fiber = NULL ∨ fiber ∉ s.mem.heap) ∧ (stack = NULL ∨ stack ∉ s.mem.stackBlocks)
  | .ret => s.stack ≠ NULL
  | _ => True

/-- A `FiberSpawn` in which a `malloc` fails. -/
def MallocFails : Event ρ → Prop
  | .spawn f _ fiber stack _ => f ≠ NULL ∧ (fiber = NULL ∨ stack = NULL)
  | _ => False

/-- An event of the cooperative library, which knows no ticks. -/
def Cooperative (s : State ρ) : Event ρ → Prop
  | .tick => False
  | e => Fair s e

instance decFair (s : State ρ) : DecidablePred (Fair s)
  | .spawn _ _ fiber stack _ => inferInstanceAs (Decidable ((fiber = NULL ∨ fiber ∉ s.mem.heap) ∧ (stack = NULL ∨ stack ∉ s.mem.stackBlocks)))
  | .ret => inferInstanceAs (Decidable (s.stack ≠ NULL))
  | .work _ | .yield | .tryJoin | .tick => inferInstanceAs (Decidable True)

instance decMallocFails : DecidablePred fun e : Event ρ => MallocFails e
  | .spawn f _ fiber stack _ => inferInstanceAs (Decidable (f ≠ NULL ∧ (fiber = NULL ∨ stack = NULL)))
  | .ret | .work _ | .yield | .tryJoin | .tick => inferInstanceAs (Decidable False)

instance decCooperative (s : State ρ) : DecidablePred (Cooperative s)
  | .tick => inferInstanceAs (Decidable False)
  | .spawn f args fiber stack junk => inferInstanceAs (Decidable (Fair s (.spawn f args fiber stack junk)))
  | .ret => inferInstanceAs (Decidable (s.stack ≠ NULL))
  | .work _ | .yield | .tryJoin => inferInstanceAs (Decidable True)

/-! ### The invariant -/

/-- The fiber at `a` was stopped on its own stack, and behind its last
`FiberYield` only if it has finished. -/
def Stopped (m : Mem (Context ρ)) (a : Addr) : Prop :=
  ∀ r, m.heap.lookup a = some r →
    r.context.rsp.stack = r.stack ∧ (r.context.rsp.ret = .final → r.finished = true)

/-- The processor is on the stack of `CurrentFiber`, which has not finished,
and the others of the list were stopped in order. -/
structure Running (s : State ρ) (l : List Addr) : Prop where
  stack : s.mem.stackOf s.mem.currentFiber = some s.stack
  alive : s.mem.finished s.mem.currentFiber = false
  stopped : ∀ a ∈ l, Stopped s.mem a

/-- The fibers of `l` that have not finished. -/
def waiting (m : Mem (Context ρ)) (l : List Addr) : List Addr := l.filter fun a => !m.finished a

/-- What every event preserves: `l` is the list behind `CurrentFiber`, empty
before the first call. -/
def Inv (s : State ρ) (l : List Addr) : Prop :=
  (Unstarted s.mem ∧ s.stack = NULL ∧ l = []) ∨ (WF s.mem l ∧ Running s l)

/-- The fiber that runs; before the first call it is the one that will be `Main`. -/
def State.fiber (s : State ρ) : Addr := if s.mem.currentFiber = NULL then Main else s.mem.currentFiber

theorem init_inv (zero : Context ρ) (regs : ρ) : Inv (init zero regs) [] := Or.inl ⟨startMem_unstarted zero, rfl, rfl⟩

/-- The first step of a call: from then on the list is there, with the same
fibers in the same order. -/
theorem Inv.start (lib : Lib) {s : State ρ} {l : List Addr} (h : Inv s l) :
    ∃ m, initMainFiber lib s.mem = .ok m ∧ WF m l ∧ Running { s with mem := m } l ∧
      m.currentFiber = s.fiber ∧ m.stackBlocks = s.mem.stackBlocks ∧ (∀ a, a ∈ m.heap ↔ a ∈ s.mem.heap) ∧
      ∀ a ∈ l, m.core a = s.mem.core a := by
  rcases h with ⟨hu, hst, rfl⟩ | ⟨hwf, hrun⟩
  · obtain ⟨m, h1, h2, h3, h4, -⟩ := initMainFiber_unstarted lib hu
    have hmain := h2.main
    rw [← h3] at hmain
    refine ⟨m, h1, h2, ⟨by rw [hst]; exact hmain.1, hmain.2, by simp⟩, ?_, h4.trans hu.blocks.symm, fun a => ?_,
      by simp⟩
    · simp [State.fiber, hu.current, h3]
    · rw [h2.live, hu.live, h3]; simp
  · exact ⟨s.mem, initMainFiber_started lib hwf.current_ne, hwf, hrun, by simp [State.fiber, hwf.current_ne],
      rfl, fun a => Iff.rfl, fun a _ => rfl⟩

theorem Running.fiber {s : State ρ} {l : List Addr} (h : WF s.mem l) : s.fiber = s.mem.currentFiber := by
  simp [State.fiber, h.current_ne]

/-- The running fiber has a record, and has not finished. -/
theorem Inv.alive {s : State ρ} {l : List Addr} (h : Inv s l) :
    s.fiber ∈ s.mem.heap ∧ s.mem.finished s.fiber = false ∧ s.mem.stackOf s.fiber = some s.stack := by
  rcases h with ⟨hu, hst, -⟩ | ⟨hwf, hrun⟩
  · have hM : s.fiber = Main := by simp [State.fiber, hu.current]
    rw [hM, hst]
    exact ⟨(hu.live _).mpr rfl, hu.main.2, hu.main.1⟩
  · rw [Running.fiber hwf]
    exact ⟨(hwf.live _).mpr List.mem_cons_self, hrun.alive, hrun.stack⟩

theorem Stopped.of_core {m m' : Mem (Context ρ)} {a : Addr} (h : Stopped m a) (hc : m'.core a = m.core a) :
    Stopped m' a := by
  intro r' hr'
  unfold core at hc
  rw [hr', Option.map_some, eq_comm, Option.map_eq_some_iff] at hc
  obtain ⟨r, hr, he⟩ := hc
  cases r; cases r'
  simp only [Fiber.mk.injEq] at he
  obtain ⟨rfl, -, -, -, rfl, rfl⟩ := he
  have hs := h _ hr
  exact hs

/-! ### Handing the processor over -/

section

variable {s : State ρ} {m : Mem (Context ρ)} {l : List Addr}

/-- A write that leaves links, stacks and `Main`'s flag alone. -/
theorem WF.put {κ : Type} {m : Mem κ} (h : WF m l) {a : Addr} {r r' : Fiber κ} (hr : m.heap.lookup a = some r)
    (hnext : r'.next = r.next) (hstack : r'.stack = r.stack) (hfin : a = Main → r'.finished = r.finished) :
    WF (m.put a r') l := by
  have hn : ∀ b, (m.put a r').next b = m.next b := fun b => by
    by_cases hb : b = a
    · rw [hb, next_of_lookup hr, next_put, if_pos rfl, hnext]
    · rw [next_put, if_neg hb]
  have hs : ∀ b, (m.put a r').stackOf b = m.stackOf b := fun b => by
    unfold stackOf
    rw [lookup_put]
    split_ifs with hb
    · rw [hb, hr, Option.map_some, Option.map_some, hstack]
    · rfl
  have hl : ∀ b, b ∈ (m.put a r').heap ↔ b ∈ m.heap := fun b => by
    simp only [Mem.put, AList.mem_insert, or_iff_right_iff_imp]
    rintro rfl
    exact mem_of_lookup hr
  refine ⟨⟨links_congr (fun b _ => hn b) h.ring.links, h.ring.nodup⟩, fun b => (hl b).trans (h.live b), ?_, ?_, ?_⟩
  · rw [hl]; exact h.null
  · refine ⟨by rw [hs]; exact h.main.1, ?_⟩
    by_cases hM : a = Main
    · have := h.main.2
      rw [finished_eq (hM ▸ hr), ← hfin hM] at this
      rw [finished_eq (r := r') (by rw [lookup_put, if_pos hM.symm]), this]
    · rw [Mem.finished, lookup_put, if_neg (fun he => hM he.symm)]
      exact h.main.2
  · refine ⟨h.blocks.nodup, h.blocks.null, fun st => ?_, fun b d st => ?_⟩
    · rw [put_stackBlocks, h.blocks.mem_iff]
      simp only [hs]
    · rw [hs, hs]
      exact h.blocks.inj b d st

/-- The list seen from the next fiber on. -/
theorem WF.rotate {κ : Type} {m : Mem κ} {d : Addr} (h : WF m (d :: l)) :
    WF { m with currentFiber := d } (l ++ [m.currentFiber]) where
  ring := h.ring.rotate
  live a := (h.live a).trans Ring.mem_rotate.symm
  null := h.null
  main := h.main
  blocks := ⟨h.blocks.nodup, h.blocks.null, h.blocks.mem_iff, h.blocks.inj⟩

/-- Whose turn it is after `c`, when `q` waits: the head of `q`, and then the
rest of `q` and `c`. -/
def turn (c : Addr) : List Addr → Addr × List Addr
  | [] => (c, [])
  | d :: q => (d, q ++ [c])

/-- `CurrentFiber` stops with the return address `ret` on its stack, and the
next fiber, which has not finished, goes on. -/
theorem handOver {d : Addr} {r : Fiber (Context ρ)} (ret : Point) (h : WF s.mem (d :: l))
    (hr : s.mem.heap.lookup s.mem.currentFiber = some r) (hstk : r.stack = s.stack)
    (hret : ret = .final → r.finished = true) (hd : s.mem.finished d = false)
    (hstop : ∀ a ∈ d :: l, Stopped s.mem a) :
    ∃ t, ({ s.mem.put s.mem.currentFiber { r with context := ⟨⟨s.stack, ret⟩, s.regs⟩ } with
          currentFiber := d } : Mem (Context ρ)).get d = .ok t ∧
      s.mem.heap.lookup d = some t ∧
      ∃ s', goOn t.context.rsp.ret { s with
          mem := { s.mem.put s.mem.currentFiber { r with context := ⟨⟨s.stack, ret⟩, s.regs⟩ } with
            currentFiber := d }
          stack := t.context.rsp.stack, regs := t.context.regs } = .ok s' ∧
        s'.mem = { s.mem.put s.mem.currentFiber { r with context := ⟨⟨s.stack, ret⟩, s.regs⟩ } with
            currentFiber := d } ∧ s'.joined = s.joined ∧
        WF s'.mem (l ++ [s.mem.currentFiber]) ∧ Running s' (l ++ [s.mem.currentFiber]) := by
  set c := s.mem.currentFiber with hc
  set r' : Fiber (Context ρ) := { r with context := ⟨⟨s.stack, ret⟩, s.regs⟩ } with hr'
  set m' : Mem (Context ρ) := { s.mem.put c r' with currentFiber := d } with hm'
  have hput : WF (s.mem.put c r') (d :: l) := h.put hr rfl rfl fun _ => rfl
  have hwf : WF m' (l ++ [c]) := hput.rotate
  obtain ⟨t, ht, htn, htg⟩ := h.lookup (a := d) (by simp)
  have hdc : d ≠ c := fun he => (List.nodup_cons.mp h.ring.nodup).1 (by simp [hc, he])
  have hlook : ∀ a, m'.heap.lookup a = if a = c then some r' else s.mem.heap.lookup a := fun a => lookup_put
  have ht' : m'.heap.lookup d = some t := by rw [hlook, if_neg hdc, ht]
  obtain ⟨hts, htf⟩ := hstop d List.mem_cons_self t ht
  rw [finished_eq ht] at hd
  set s' : State ρ := { s with mem := m', stack := t.context.rsp.stack, regs := t.context.regs } with hs'
  have hgo : goOn t.context.rsp.ret s' = .ok s' := by
    have hnf : t.context.rsp.ret ≠ .final := fun he => by rw [htf he] at hd; cases hd
    have hg : s'.mem.get s'.mem.currentFiber = .ok t := get_ok htn ht'
    unfold goOn
    cases hp : t.context.rsp.ret with
    | trampoline => simp only [hg, ok_bind, pure_eq]
    | user => rfl
    | final => exact absurd hp hnf
  refine ⟨t, get_ok htn ht', ht, s', hgo, rfl, rfl, hwf, ⟨?_, ?_, fun a ha ra hra => ?_⟩⟩
  · show m'.stackOf d = some t.context.rsp.stack
    rw [stackOf, ht', Option.map_some, hts]
  · show m'.finished d = false
    rw [finished_eq ht', hd]
  · have hra' : m'.heap.lookup a = some ra := hra
    rw [hlook] at hra'
    split_ifs at hra' with hac
    · cases hra'
      exact ⟨hstk.symm, hret⟩
    · refine hstop a ?_ ra hra'
      simp only [List.mem_append, List.mem_cons, List.not_mem_nil, or_false] at ha ⊢
      exact ha.elim Or.inr fun he => absurd he hac

/-- What a call or a tick that may hand the processor over does to the memory:
no record that stays changes its flag or its stack, and a stack goes only with
a finished fiber of `l`. -/
structure Kept (m m' : Mem (Context ρ)) (l : List Addr) : Prop where
  finished : ∀ a ∈ m'.heap, m'.finished a = m.finished a
  stackOf : ∀ a ∈ m'.heap, m'.stackOf a = m.stackOf a
  freed : ∀ st ∈ m.stackBlocks, st ∉ m'.stackBlocks → ∃ a ∈ l, m.finished a = true ∧ m.stackOf a = some st

/-- A stopped fiber's context is all that stopping it writes. -/
theorem finished_stop {m : Mem (Context ρ)} {c d : Addr} {r : Fiber (Context ρ)} (k : Context ρ)
    (hr : m.heap.lookup c = some r) (a : Addr) :
    ({ m.put c { r with context := k } with currentFiber := d } : Mem (Context ρ)).finished a = m.finished a ∧
    ({ m.put c { r with context := k } with currentFiber := d } : Mem (Context ρ)).stackOf a = m.stackOf a := by
  unfold Mem.finished Mem.stackOf
  simp only [lookup_put]
  split_ifs with ha
  · subst ha
    simp [hr]
  · exact ⟨rfl, rfl⟩

/-- **Yielding.** After the sweep the turn goes to the head of the waiting
fibers, and the caller, if it has not finished, waits behind them. -/
theorem fiberYield_spec (lib : Lib) (ret : Point) (h : WF s.mem l)
    (hstk : s.mem.stackOf s.mem.currentFiber = some s.stack)
    (hret : ret = .final → s.mem.finished s.mem.currentFiber = true) (hstop : ∀ a ∈ l, Stopped s.mem a)
    (hlast : waiting s.mem l = [] → ret = .user ∧ s.mem.finished s.mem.currentFiber = false) :
    ∃ s', fiberYield lib ret s = .ok s' ∧ s'.joined = s.joined ∧
      s'.mem.currentFiber = (turn s.mem.currentFiber (waiting s.mem l)).1 ∧
      WF s'.mem (turn s.mem.currentFiber (waiting s.mem l)).2 ∧
      Running s' (turn s.mem.currentFiber (waiting s.mem l)).2 ∧ Kept s.mem s'.mem l := by
  obtain ⟨m', hfree, hwf, hcur, hcore, hblk⟩ := freeFinishedFibers_spec h
  change WF m' (waiting s.mem l) at hwf
  obtain ⟨r, hr, -, hget⟩ := hwf.lookup List.mem_cons_self
  have hkeep : ∀ a ∈ m'.heap, m'.finished a = s.mem.finished a ∧ m'.stackOf a = s.mem.stackOf a :=
    fun a ha => ⟨finished_of_core (hcore a ha), stackOf_of_core (hcore a ha)⟩
  have hc := hkeep _ (mem_of_lookup hr)
  have hnext : r.next = (waiting s.mem l).headD m'.currentFiber := by
    have := hwf.ring.next_head
    rw [next_of_lookup hr] at this
    exact Option.some.inj this
  have hstop' : ∀ a ∈ waiting s.mem l, Stopped m' a := fun a ha =>
    (hstop a (List.mem_filter.mp ha).1).of_core (hcore a ((hwf.live a).mpr (List.mem_cons_of_mem _ ha)))
  cases hq : waiting s.mem l with
  | nil =>
    rw [hq] at hwf hnext
    obtain ⟨rfl, halive⟩ := hlast hq
    refine ⟨{ s with mem := m' }, ?_, rfl, hcur, hwf, ⟨?_, ?_, by simp [turn]⟩, ?_⟩
    · simp [fiberYield, initMainFiber_started lib h.current_ne, hfree, hget, hnext, goOn]
    · show m'.stackOf m'.currentFiber = _
      rw [hc.2, hcur, hstk]
    · show m'.finished m'.currentFiber = _
      rw [hc.1, hcur, halive]
    · exact ⟨fun a ha => (hkeep a ha).1, fun a ha => (hkeep a ha).2, hblk⟩
  | cons d q =>
    rw [hq] at hwf hnext hstop'
    have hdm : d ∈ m'.heap := (hwf.live d).mpr (by simp)
    have hd : m'.finished d = false := by
      have hmem : d ∈ waiting s.mem l := by rw [hq]; exact List.mem_cons_self
      rw [(hkeep d hdm).1]
      simpa using (List.mem_filter.mp hmem).2
    have hdc : d ≠ m'.currentFiber := fun he => (List.nodup_cons.mp hwf.ring.nodup).1 (by simp [he])
    have hrs : r.stack = s.stack := by
      have := hc.2
      rw [hcur, hstk, ← hcur, stackOf, hr] at this
      exact Option.some.inj this
    have hrf : ret = .final → r.finished = true := fun he => by
      rw [← finished_eq hr, hc.1, hcur, hret he]
    obtain ⟨t, htg, ht, s', hgo, hmem, hj, hwf', hrun⟩ :=
      handOver (s := { s with mem := m' }) ret hwf hr hrs hrf hd hstop'
    refine ⟨s', ?_, hj, by rw [hmem]; rfl, hcur ▸ hwf', hcur ▸ hrun, ?_⟩
    · simp only [fiberYield, initMainFiber_started lib h.current_ne, hfree, hget, hnext, ok_bind,
        List.headD_cons, if_neg hdc, switchFiberContext]
      have hget' : ({ m' with currentFiber := d } : Mem (Context ρ)).get m'.currentFiber = .ok r := hget
      rw [hget', ok_bind]
      change (({ m'.put m'.currentFiber _ with currentFiber := d } : Mem (Context ρ)).get d >>= _) = _
      rw [htg, ok_bind]
      exact hgo
    · have hst := fun a => finished_stop (d := d) ⟨⟨s.stack, ret⟩, s.regs⟩ hr a
      have hin : ∀ a, a ∈ s'.mem.heap → a ∈ m'.heap := fun a ha => by
        rw [hmem] at ha
        simp only [Mem.put, AList.mem_insert] at ha
        exact ha.elim (fun he => he ▸ mem_of_lookup hr) id
      refine ⟨fun a ha => ?_, fun a ha => ?_, fun st h1 h2 => hblk st h1 ?_⟩
      · rw [hmem, (hst a).1, (hkeep a (hin a ha)).1]
      · rw [hmem, (hst a).2, (hkeep a (hin a ha)).2]
      · rw [hmem] at h2; exact h2

end

end Fibers
end OsLabs
