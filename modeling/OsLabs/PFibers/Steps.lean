/-
# `pfibers`, statement by statement

The machine of `OsLabs/Fibers/Machine.lean` takes each call at one go. Here a tick of
`SIGALRM` may fall between any two statements of `fiber.c` and any two
instructions of `SwitchFiberContext`. `PC` says which comes next, with the values
of the C locals that are still to be used; the return addresses under it are on the
running fiber's stack. `fiber_sched` itself is one event, as `SIGALRM` is masked
while it runs.

`malloc` returns any address that is not in use, also one that was freed before. An access
to a record or a stack that is not allocated is `Fault.dangling`, and the run ends there.
Of `struct Context` the field `rip` is left out: a stopped fiber's `rip` is on its
stack.

Three fields of `State` record what happened, and no step reads them: which fiber's
code the processor runs (`running`), where each of the others last stopped, for as long
as it has its stack (`stopped`), and which were spawned and have not finished (`unfinished`).

Key definitions: `exec`, `fiberSched`, `step`.
-/
import OsLabs.PFibers.Tick

namespace OsLabs
namespace PFibers
/-- Sets one register. -/
def Regs.set (g : Regs) (x : Reg) (v : ℕ) : Regs := fun y => if y = x then v else g y

namespace Steps

open Fibers (Addr NULL Main Fiber Fault Mem startMem)

/-- The `movq`s of `SwitchFiberContext` that save a register, in their order. -/
def savedRegs : List Reg := [.r8, .r9, .r10, .r11, .r12, .r13, .r14, .r15, .rdi, .rsi, .rbp, .rbx, .rdx, .rax, .rcx]

/-- The `movq`s that load one before `rsp`; `rsi` points to the context and comes last. -/
def loadedRegs : List Reg := [.r8, .r9, .r10, .r11, .r12, .r13, .r14, .r15, .rdi, .rbp, .rbx, .rdx, .rax, .rcx]

/-- The next statement or instruction. -/
inductive PC
  | user
  -- `FiberTrampoline`
  | trampCall
  | trampFinish
  | trampYield
  | trampAssert
  -- `InitMainFiber`
  | initTest
  | initNext
  | initF
  | initCur
  -- `FiberSpawn`
  | spawnTest (f args : Addr)
  | spawnInit (f args : Addr)
  | spawnMalloc (f args : Addr)
  | spawnF (f args fiber : Addr)
  | spawnArgs (args fiber : Addr)
  | spawnFinished (fiber : Addr)
  | spawnStack (fiber : Addr)
  | spawnRsp (fiber : Addr)
  | spawnNext (fiber : Addr)
  | spawnTail (fiber : Addr)
  | spawnWhile (fiber tail : Addr)
  | spawnStep (fiber tail : Addr)
  | spawnLink (fiber tail : Addr)
  -- `FreeFinishedFibers`
  | freePrev
  | freeCur (prev : Addr)
  | freeWhile (prev cur : Addr)
  | freeIf (prev cur : Addr)
  | freeUnlink (prev cur : Addr)
  | freeStack (prev cur : Addr)
  | freeFiber (prev cur : Addr)
  | freeNext (prev : Addr)
  | freeMove (cur : Addr)
  | freeStep (prev cur : Addr)
  -- `FiberYield`
  | yieldInit
  | yieldFree
  | yieldFrom
  | yieldTo (frm : Addr)
  | yieldTest (frm dst : Addr)
  | yieldSet (frm dst : Addr)
  | yieldSwitch (frm dst : Addr)
  | yieldEnd
  -- `FiberTryJoin`
  | joinInit
  | joinFree
  | joinTest
  -- `SwitchFiberContext`; a pushed flags word is carried along until it is popped
  | pushfq
  | popSaved (fl : ℕ)
  | save (rest : List Reg)
  | load (rest : List Reg)
  | pushSaved
  | popfq (fl : ℕ)
  | loadRsi
  | swRet
  deriving DecidableEq, Repr

/-- A stack pointer: how many words are on which stack. The process's own stack,
on which `main` runs, is `NULL`, as `Main.stack`. -/
structure Rsp where
  block : Addr
  height : ℕ
  deriving DecidableEq, Repr

/-- `struct Context`. -/
structure Context where
  regs : Regs
  rsp : Rsp

/-- Where a fiber stopped: its registers and its stack. -/
structure Stop where
  ctx : Context
  words : ℕ → PC

/-- What the user code does next. -/
inductive Action
  | work
  | spawn (f args : Addr)
  | yield
  | tryJoin
  | ret

/-- What the code does not determine: the registers after a C statement, the address that `malloc` returns
and what its memory holds, and what user code does. -/
structure Choice where
  regs : Regs
  malloc : Addr
  junk : Fiber Context
  action : Action

inductive Event
  | exec (o : Choice)
  | tick

structure State where
  mem : Mem Context
  /-- The words on each stack, from the bottom. -/
  words : Addr → ℕ → PC
  regs : Regs
  rsp : Rsp
  rip : PC
  running : Addr
  stopped : Addr → Option Stop
  unfinished : List Addr

variable {κ : Type}

namespace State

/-- Goes on at `pc`, with other registers. -/
def goto (s : State) (g : Regs) (pc : PC) : State := { s with regs := g, rip := pc }

/-- Puts a word on a stack. -/
def write (s : State) (block : Addr) (i : ℕ) (pc : PC) : State :=
  { s with words := fun b j => if b = block ∧ j = i then pc else s.words b j }

/-- Pushes a return address. -/
def push (s : State) (pc : PC) : State :=
  { s.write s.rsp.block s.rsp.height pc with rsp := ⟨s.rsp.block, s.rsp.height + 1⟩ }

/-- `ret`. -/
def pop (s : State) : Except Fault State :=
  match s.rsp.height with
  | 0 => .error (.dangling s.rsp.block)
  | h + 1 => .ok { s with rsp := ⟨s.rsp.block, h⟩, rip := s.words s.rsp.block h }

/-- Calls the function that begins at `pc`, to return to `back`. -/
def call (s : State) (g : Regs) (back pc : PC) : State := (s.push back).goto g pc

/-- Returns from a C function. -/
def leave (s : State) (g : Regs) : Except Fault State := { s with regs := g }.pop

/-- The stack is allocated, or is the process's own. -/
def Allocated (m : Mem κ) (block : Addr) : Prop := block = NULL ∨ block ∈ m.stackBlocks

instance (m : Mem κ) (block : Addr) : Decidable (Allocated m block) := inferInstanceAs (Decidable (_ ∨ _))

/-- What `malloc` returns: `a`, unless it is in use. -/
def malloc (m : Mem κ) (a : Addr) : Addr := if a ∈ m.heap ∨ a ∈ m.stackBlocks then NULL else a

end State

open State

/-- The next statement or instruction of the running code. -/
def exec (o : Choice) (s : State) : Except Fault State :=
  let m := s.mem
  let cur := m.currentFiber
  let go (pc : PC) : Except Fault State := .ok (s.goto o.regs pc)
  let goWith (m : Mem Context) (pc : PC) : Except Fault State := .ok ({ s with mem := m }.goto o.regs pc)
  let call (back pc : PC) : Except Fault State := .ok (s.call o.regs back pc)
  match s.rip with
  | .user =>
    match o.action with
    | .work => go .user
    | .spawn f args => call .user (.spawnTest f args)
    | .yield => call .user .yieldInit
    | .tryJoin => call .user .joinInit
    -- `main` has nobody to return to while the run lasts
    | .ret => if s.rsp.height = 0 then go .user else s.leave o.regs
  | .trampCall => do
    -- `CurrentFiber->f(CurrentFiber->args);`
    let _ ← m.get cur
    call .trampFinish .user
  | .trampFinish => do
    let r ← m.get cur
    .ok ({ s with mem := m.put cur { r with finished := true }
                  unfinished := s.unfinished.erase cur }.goto o.regs .trampYield)
  | .trampYield => call .trampAssert .yieldInit
  | .trampAssert => .error .assertion
  | .initTest => if cur ≠ NULL then s.leave o.regs else go .initNext
  | .initNext => do
    let r ← m.get Main
    goWith (m.put Main { r with next := Main }) .initF
  | .initF => do
    let r ← m.get Main
    goWith (m.put Main { r with f := NULL }) .initCur
  | .initCur => { s with mem := { m with currentFiber := Main }, unfinished := [Main] }.leave o.regs
  | .spawnTest f args => if f = NULL then s.leave o.regs else go (.spawnInit f args)
  | .spawnInit f args => call (.spawnMalloc f args) .initTest
  | .spawnMalloc f args =>
    let fiber := malloc m o.malloc
    if fiber = NULL then go (.spawnF f args NULL)
    else goWith (m.put fiber o.junk) (.spawnF f args fiber)
  | .spawnF f args fiber => do
    let r ← m.get fiber
    goWith (m.put fiber { r with f := f }) (.spawnArgs args fiber)
  | .spawnArgs args fiber => do
    let r ← m.get fiber
    goWith (m.put fiber { r with args := args }) (.spawnFinished fiber)
  | .spawnFinished fiber => do
    let r ← m.get fiber
    goWith (m.put fiber { r with finished := false }) (.spawnStack fiber)
  | .spawnStack fiber => do
    let r ← m.get fiber
    let stack := malloc m o.malloc
    if stack = NULL then goWith (m.put fiber { r with stack := NULL }) (.spawnRsp fiber)
    else goWith { m.put fiber { r with stack := stack } with stackBlocks := stack :: m.stackBlocks } (.spawnRsp fiber)
  | .spawnRsp fiber => do
    let r ← m.get fiber
    -- `PrepareStack` stores through the stack
    if r.stack = NULL then .error .null
    else if r.stack ∉ m.stackBlocks then .error (.dangling r.stack)
    else
      let ctx := { r.context with rsp := ⟨r.stack, 1⟩ }
      let s := s.write r.stack 0 .trampCall
      let stop := ⟨ctx, s.words r.stack⟩
      .ok ({ s with mem := m.put fiber { r with context := ctx }
                    stopped := fun a => if a = fiber then some stop else s.stopped a }.goto o.regs (.spawnNext fiber))
  | .spawnNext fiber => do
    let r ← m.get fiber
    goWith (m.put fiber { r with next := cur }) (.spawnTail fiber)
  | .spawnTail fiber => go (.spawnWhile fiber cur)
  | .spawnWhile fiber tail => do
    let r ← m.get tail
    if r.next ≠ cur then go (.spawnStep fiber tail) else go (.spawnLink fiber tail)
  | .spawnStep fiber tail => do
    let r ← m.get tail
    go (.spawnWhile fiber r.next)
  | .spawnLink fiber tail => do
    let r ← m.get tail
    { s with mem := m.put tail { r with next := fiber }, unfinished := fiber :: s.unfinished }.leave o.regs
  | .freePrev => go (.freeCur cur)
  | .freeCur prev => do
    let r ← m.get prev
    go (.freeWhile prev r.next)
  | .freeWhile prev c => if c ≠ cur then go (.freeIf prev c) else s.leave o.regs
  | .freeIf prev c => do
    let r ← m.get c
    if r.finished then go (.freeUnlink prev c) else go (.freeMove c)
  | .freeUnlink prev c => do
    let r ← m.get c
    let p ← m.get prev
    goWith (m.put prev { p with next := r.next }) (.freeStack prev c)
  | .freeStack prev c => do
    let r ← m.get c
    let m ← m.freeStack r.stack
    .ok ({ s with mem := m
                  stopped := fun a => if a = c then none else s.stopped a }.goto o.regs (.freeFiber prev c))
  | .freeFiber prev c => do
    let m ← m.free c
    goWith m (.freeNext prev)
  | .freeNext prev => do
    let r ← m.get prev
    go (.freeWhile prev r.next)
  | .freeMove c => go (.freeStep c c)
  | .freeStep prev c => do
    let r ← m.get c
    go (.freeWhile prev r.next)
  | .yieldInit => call .yieldFree .initTest
  | .yieldFree => call .yieldFrom .freePrev
  | .yieldFrom => go (.yieldTo cur)
  | .yieldTo frm => do
    let r ← m.get cur
    go (.yieldTest frm r.next)
  | .yieldTest frm dst => if dst = frm then s.leave o.regs else go (.yieldSet frm dst)
  | .yieldSet frm dst => goWith { m with currentFiber := dst } (.yieldSwitch frm dst)
  | .yieldSwitch frm dst =>
    let s := s.call ((o.regs.set .rdi frm).set .rsi dst) .yieldEnd .pushfq
    let stop := ⟨⟨s.regs, s.rsp⟩, s.words s.rsp.block⟩
    .ok { s with stopped := fun a => if a = s.running then some stop else s.stopped a }
  | .yieldEnd => s.leave o.regs
  | .joinInit => call .joinFree .initTest
  | .joinFree => call .joinTest .freePrev
  | .joinTest => do
    let r ← m.get cur
    s.leave (o.regs.set .rax (if r.next = cur then 1 else 0))
  | .pushfq => .ok { s with rip := .popSaved (s.regs .flags) }
  | .popSaved fl => do
    let r ← m.get (s.regs .rdi)
    let ctx := { r.context with regs := r.context.regs.set .flags fl }
    .ok { s with mem := m.put (s.regs .rdi) { r with context := ctx }, rip := .save savedRegs }
  | .save (x :: xs) => do
    let r ← m.get (s.regs .rdi)
    let ctx := { r.context with regs := r.context.regs.set x (s.regs x) }
    .ok { s with mem := m.put (s.regs .rdi) { r with context := ctx }, rip := .save xs }
  | .save [] => do
    let r ← m.get (s.regs .rdi)
    let ctx := { r.context with rsp := s.rsp }
    .ok { s with mem := m.put (s.regs .rdi) { r with context := ctx }, rip := .load loadedRegs }
  | .load (x :: xs) => do
    let t ← m.get (s.regs .rsi)
    .ok { s with regs := s.regs.set x (t.context.regs x), rip := .load xs }
  | .load [] => do
    let t ← m.get (s.regs .rsi)
    .ok { s with rsp := t.context.rsp, rip := .pushSaved }
  | .pushSaved => do
    let t ← m.get (s.regs .rsi)
    .ok { s with rip := .popfq (t.context.regs .flags) }
  | .popfq fl => .ok { s with regs := s.regs.set .flags fl, rip := .loadRsi }
  | .loadRsi => do
    let t ← m.get (s.regs .rsi)
    .ok { s with regs := s.regs.set .rsi (t.context.regs .rsi), rip := .swRet, running := s.regs .rsi }
  | .swRet => s.pop

/-- The handler of `SIGALRM`. -/
def fiberSched (s : State) : Except Fault State := do
  let cur := s.mem.currentFiber
  let c ← s.mem.get cur
  if c.next = cur then .ok s
  else
    let s := s.push s.rip
    let ctx := ⟨s.regs, s.rsp⟩
    let m := s.mem.put cur { c with context := ctx }
    let m := { m with currentFiber := c.next }
    let t ← m.get c.next
    if ¬ Allocated m t.context.rsp.block then .error (.dangling t.context.rsp.block)
    else
      let stop := ⟨ctx, s.words s.rsp.block⟩
      -- `rip` is popped from the new stack
      { s with
        mem := m
        regs := t.context.regs
        rsp := t.context.rsp
        running := c.next
        stopped := fun a => if a = s.running then some stop else s.stopped a }.pop

/-- Both the code and the handler run on the stack of the running fiber. -/
def step (s : State) (e : Event) : Except Fault State :=
  if ¬ Allocated s.mem s.rsp.block then .error (.dangling s.rsp.block)
  else match e with
    | .exec o => exec o s
    | .tick => fiberSched s

/-- The process starts in `main`, with a zero `Main` record. -/
def init (g : Regs) : State where
  mem := startMem ⟨fun _ => 0, ⟨NULL, 0⟩⟩
  words := fun _ _ => .user
  regs := g
  rsp := ⟨NULL, 0⟩
  rip := .user
  running := Main
  stopped := fun _ => none
  unfinished := []

end Steps
end PFibers
end OsLabs
