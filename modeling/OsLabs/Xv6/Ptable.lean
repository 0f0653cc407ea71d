/-
# The process table

`proc.c` on several processors: the scheduler of each, `fork`, `exit`, `wait`, `sleep`, `wakeup`, `kill` and `yield`. All of them work under
`ptable.lock`, which a process takes before it switches to the scheduler and the scheduler, or the next process, lets go. An event is what
one processor does from one switch, `acquire` or `release` to the next; whoever finds the lock taken spins.

`fork` is not all under the lock: it allocates, copies and sets `parent` between its two critical sections, and the process may be
interrupted there.

`born`, `reaped` and `allocs` are histories: the processes that were made runnable, those that `wait` returned, and how many pids `allocproc`
has given.

`Micro` is what the critical sections are made of. An invariant of it is one of every run (`run_micro`).

Key definitions: `State`, `step`, `Micro`.
Key theorem: `run_micro`.
-/
import OsLabs.Lib.Run
import OsLabs.Alarm.Table

namespace OsLabs
namespace Xv6
namespace Ptable

open Function (update)
open Alarm (NPROC ProcState initproc)
open Run (Sat run run_sat along_true)

inductive Chan
  /-- The address of a process, for `wait`. -/
  | proc (p : Fin NPROC)
  | other (n : ℕ)
  deriving DecidableEq

/-- Where a process that has switched away goes on. -/
inductive Cont
  | forkret
  | yield
  | sleep
  /-- `sleep` on `ptable.lock` itself, in the loop of `wait`. -/
  | wait
  /-- After the `sched` of `exit`. -/
  | exit
  deriving DecidableEq

/-- What a process is about to do in `fork`, for the child at `np`. -/
inductive Task
  | none
  | kalloc (np : Fin NPROC)
  | copyuvm (np : Fin NPROC)
  | start (np : Fin NPROC)
  deriving DecidableEq

structure Slot where
  state : ProcState
  pid : Word
  parent : Option (Fin NPROC)
  chan : Option Chan
  killed : Bool
  /-- The page. -/
  kstack : Option ℕ
  cont : Cont
  task : Task

/-- Where a processor is. -/
inductive Cpu
  /-- In front of the `acquire` of `scheduler`. -/
  | scheduler
  /-- In the loop of `scheduler`, with the lock. -/
  | scan (n : ℕ)
  /-- On the stack of a process. -/
  | run (p : Fin NPROC)
  /-- On the stack of a process, with the lock, after the switch to it. -/
  | enter (p : Fin NPROC)
  /-- On the stack of a process, with the lock, before the switch away. -/
  | leave (p : Fin NPROC)
  deriving DecidableEq

structure State (ι : Type) where
  procs : Fin NPROC → Slot
  nextpid : Word
  lock : Option ι
  cpu : ι → Cpu
  born : List Word
  reaped : List Word
  allocs : ℕ

inductive Panic
  | initExiting
  | zombieExit
  deriving DecidableEq

inductive Act
  /-- The processor goes on, in the scheduler or after a switch. -/
  | turn
  | yield
  | sleep (chan : ℕ)
  /-- Also by an interrupt. -/
  | wakeup (chan : ℕ)
  | wait
  | exit
  | kill (pid : Word)
  | fork
  /-- `fork` goes on, with what `kalloc` returns or whether there is memory for the copy. -/
  | forks (page : Option ℕ)
  deriving DecidableEq

section

variable {ι : Type} [DecidableEq ι]

def State.set (s : State ι) (p : Fin NPROC) (x : Slot) : State ι := { s with procs := update s.procs p x }

/-- `wakeup1`. -/
def wakeup1 (chan : Chan) (procs : Fin NPROC → Slot) : Fin NPROC → Slot := fun p =>
  if (procs p).state = .sleeping ∧ (procs p).chan = some chan then { procs p with state := .runnable } else procs p

/-- The first of the table with `P`. -/
def first (P : Fin NPROC → Bool) : Option (Fin NPROC) := (List.finRange NPROC).find? P

def acquire (s : State ι) (c : ι) (p : Fin NPROC) : State ι := { s with lock := some c, cpu := update s.cpu c (.enter p) }

/-- `sched`: the processor is about to leave the process. -/
def sched (s : State ι) (c : ι) (p : Fin NPROC) (x : Slot) : State ι := { s.set p x with cpu := update s.cpu c (.leave p) }

def release (s : State ι) (c : ι) (p : Fin NPROC) : State ι := { s with lock := none, cpu := update s.cpu c (.run p) }

/-- `sleep` tidies up. -/
def clear (s : State ι) (p : Fin NPROC) : State ι := s.set p { s.procs p with chan := none }

/-- The loop of `wait`, with the lock. -/
def wait (s : State ι) (c : ι) (p : Fin NPROC) : State ι :=
  match first fun q => (s.procs q).parent = some p ∧ (s.procs q).state = .zombie with
  | some q =>
    let x := { s.procs q with state := .unused, pid := 0, parent := none, killed := false, kstack := none }
    release { s.set q x with reaped := s.reaped ++ [(s.procs q).pid] } c p
  | none =>
    if (first fun q => (s.procs q).parent = some p) = none ∨ (s.procs p).killed = true then release s c p
    else sched s c p { s.procs p with state := .sleeping, chan := some (.proc p), cont := .wait }

/-- The children of `p` are passed to `initproc`. -/
def adopt (p : Fin NPROC) (procs : Fin NPROC → Slot) : Fin NPROC → Slot := fun q =>
  if (procs q).parent = some p then { procs q with parent := some initproc } else procs q

/-- The critical section of `exit`; `initproc` is woken once for all the zombies that it gets. -/
def exit (s : State ι) (c : ι) (p : Fin NPROC) : State ι :=
  let s := match (s.procs p).parent with
    | some q => { s with procs := wakeup1 (.proc q) s.procs }
    | none => s
  let zombie := first fun q => (s.procs q).parent = some p ∧ (s.procs q).state = .zombie
  let s := { s with procs := adopt p s.procs }
  let s := if zombie = none then s else { s with procs := wakeup1 (.proc initproc) s.procs }
  sched s c p { s.procs p with state := .zombie, cont := .exit }

def kill (s : State ι) (pid : Word) : State ι :=
  match first fun q => (s.procs q).pid = pid with
  | some q =>
    let x := s.procs q
    s.set q { x with killed := true, state := if x.state = .sleeping then .runnable else x.state }
  | none => s

/-- The critical section of `allocproc`. -/
def fork (s : State ι) (p : Fin NPROC) : State ι :=
  match first fun q => (s.procs q).state = .unused with
  | none => s
  | some q =>
    { (s.set q { s.procs q with state := .embryo, pid := s.nextpid }).set p { s.procs p with task := .kalloc q } with
      nextpid := s.nextpid + 1, allocs := s.allocs + 1 }

/-- The rest of `allocproc` and `fork`; `page` is one that nobody uses. -/
def forks (s : State ι) (p : Fin NPROC) (page : Option ℕ) : State ι :=
  match (s.procs p).task with
  | .none => s
  | .kalloc q =>
    match page with
    | none => (s.set q { s.procs q with state := .unused }).set p { s.procs p with task := .none }
    | some k =>
      if (first fun r => (s.procs r).kstack = some k) = none then
        (s.set q { s.procs q with kstack := some k, cont := .forkret }).set p { s.procs p with task := .copyuvm q }
      else s
  | .copyuvm q =>
    match page with
    | none => (s.set q { s.procs q with kstack := none, state := .unused }).set p { s.procs p with task := .none }
    | some _ => (s.set q { s.procs q with parent := some p }).set p { s.procs p with task := .start q }
  | .start q =>
    if s.lock = none then
      { (s.set q { s.procs q with state := .runnable }).set p { s.procs p with task := .none } with
        born := s.born ++ [(s.procs q).pid] }
    else s

/-- The processor goes on by itself. -/
def turn (s : State ι) (c : ι) : Except Panic (State ι) :=
  match s.cpu c with
  | .scheduler => .ok (if s.lock = none then { s with lock := some c, cpu := update s.cpu c (.scan 0) } else s)
  | .scan n =>
    if h : n < NPROC then
      let p : Fin NPROC := ⟨n, h⟩
      if (s.procs p).state = .runnable then
        .ok { s.set p { s.procs p with state := .running } with cpu := update s.cpu c (.enter p) }
      else .ok { s with cpu := update s.cpu c (.scan (n + 1)) }
    else .ok { s with lock := none, cpu := update s.cpu c .scheduler }
  | .run _ => .ok s
  | .enter p =>
    match (s.procs p).cont with
    | .forkret => .ok (release s c p)
    | .yield => .ok (release s c p)
    | .sleep => .ok (release (clear s p) c p)
    | .wait => .ok (wait (clear s p) c p)
    | .exit => .error .zombieExit
  | .leave p => .ok { s with cpu := update s.cpu c (.scan (p + 1)) }

/-- What the process at `p` does on the processor `c`. -/
def act (s : State ι) (c : ι) (p : Fin NPROC) : Act → Except Panic (State ι)
  | .yield =>
    .ok (if s.lock = none then sched (acquire s c p) c p { s.procs p with state := .runnable, cont := .yield } else s)
  | .forks page => .ok (forks s p page)
  | a =>
    if s.lock = none ∧ (s.procs p).task = .none then
      match a with
      | .sleep n =>
        .ok (sched (acquire s c p) c p { s.procs p with state := .sleeping, chan := some (.other n), cont := .sleep })
      | .wait => .ok (wait (acquire s c p) c p)
      | .exit => if p = initproc then .error .initExiting else .ok (exit (acquire s c p) c p)
      | .kill pid => .ok (release (kill (acquire s c p) pid) c p)
      | .fork => .ok (release (fork (acquire s c p) p) c p)
      | _ => .ok s
    else .ok s

def step (s : State ι) (e : ι × Act) : Except Panic (State ι) :=
  match e.2 with
  | .turn => turn s e.1
  | .wakeup n => .ok (if s.lock = none then { s with procs := wakeup1 (.other n) s.procs } else s)
  | a =>
    match s.cpu e.1 with
    | .run p => act s e.1 p a
    | _ => .ok s

/-- After `userinit`, with `page` for the stack of the first process. -/
def boot (page : ℕ) : State ι where
  procs p :=
    { state := if p = initproc then .runnable else .unused
      pid := if p = initproc then 1 else 0
      parent := none
      chan := none
      killed := false
      kstack := if p = initproc then some page else none
      cont := .forkret
      task := .none }
  nextpid := 2
  lock := none
  cpu _ := .scheduler
  born := [1]
  reaped := []
  allocs := 1

end

/-! ### What a step is made of -/

section

variable {ι : Type} [DecidableEq ι]

/-- `p` sleeps in `wait`. -/
def Waits (s : State ι) (p : Fin NPROC) : Prop := (s.procs p).state = .sleeping ∧ (s.procs p).chan = some (.proc p)

/-- How the process at `p` may leave its processor. -/
inductive Leaves (s : State ι) (p : Fin NPROC) : Slot → Prop
  | yield : Leaves s p { s.procs p with state := .runnable, cont := .yield }
  | sleep (n : ℕ) : Leaves s p { s.procs p with state := .sleeping, chan := some (.other n), cont := .sleep }
  | wait (hkids : ∃ q, (s.procs q).parent = some p) (hzombies : ∀ q, (s.procs q).parent = some p → (s.procs q).state ≠ .zombie)
      (hkilled : (s.procs p).killed = false) :
      Leaves s p { s.procs p with state := .sleeping, chan := some (.proc p), cont := .wait }
  | exit (hinit : p ≠ initproc) (htask : (s.procs p).task = .none) (hkids : ∀ q, (s.procs q).parent ≠ some p)
      (hparent : ∀ q, (s.procs p).parent = some q → ¬ Waits s q) :
      Leaves s p { s.procs p with state := .zombie, cont := .exit }

/-- What a process does in `fork` without a look at the lock. -/
inductive Forks (s : State ι) (p : Fin NPROC) : State ι → Prop
  | nokalloc {q} (htask : (s.procs p).task = .kalloc q) :
      Forks s p ((s.set q { s.procs q with state := .unused }).set p { s.procs p with task := .none })
  | kalloc {q k} (htask : (s.procs p).task = .kalloc q) (hfree : ∀ r, (s.procs r).kstack ≠ some k) :
      Forks s p ((s.set q { s.procs q with kstack := some k, cont := .forkret }).set p { s.procs p with task := .copyuvm q })
  | nocopy {q} (htask : (s.procs p).task = .copyuvm q) :
      Forks s p ((s.set q { s.procs q with kstack := none, state := .unused }).set p { s.procs p with task := .none })
  | copy {q} (htask : (s.procs p).task = .copyuvm q) :
      Forks s p ((s.set q { s.procs q with parent := some p }).set p { s.procs p with task := .start q })
  | start {q} (htask : (s.procs p).task = .start q) :
      Forks s p { (s.set q { s.procs q with state := .runnable }).set p { s.procs p with task := .none } with
        born := s.born ++ [(s.procs q).pid] }

/-- The parts of the critical sections, each in a state as the lock protects it. -/
inductive Micro : State ι → State ι → Prop
  /-- A processor takes or lets go the lock, or looks further. -/
  | acquire {s c} (hc : s.cpu c = .scheduler) (hlock : s.lock = none) :
      Micro s { s with lock := some c, cpu := update s.cpu c (.scan 0) }
  | skip {s c n} (hc : s.cpu c = .scan n) (hn : n < NPROC) : Micro s { s with cpu := update s.cpu c (.scan (n + 1)) }
  | rest {s c n} (hc : s.cpu c = .scan n) : Micro s { s with lock := none, cpu := update s.cpu c .scheduler }
  | grab {s c p} (hc : s.cpu c = .run p) (hlock : s.lock = none) :
      Micro s (acquire s c p)
  | release {s c p} (hc : s.cpu c = .enter p) : Micro s (release s c p)
  /-- The two switches. -/
  | pick {s c n p} (hc : s.cpu c = .scan n) (hp : (s.procs p).state = .runnable) :
      Micro s { s.set p { s.procs p with state := .running } with cpu := update s.cpu c (.enter p) }
  | switch {s c} {p : Fin NPROC} (hc : s.cpu c = .leave p) : Micro s { s with cpu := update s.cpu c (.scan (p + 1)) }
  | leave {s c p x} (hc : s.cpu c = .enter p) (hx : Leaves s p x) : Micro s (sched s c p x)
  /-- Edits of the table. -/
  | clear {s c p} (hc : s.cpu c = .enter p) : Micro s (clear s p)
  | wakeup {s} (chan : Chan) : Micro s { s with procs := wakeup1 chan s.procs }
  | kill {s} (q : Fin NPROC) :
      Micro s (s.set q { s.procs q with
        killed := true, state := if (s.procs q).state = .sleeping then .runnable else (s.procs q).state })
  | adopt {s c p} (hc : s.cpu c = .enter p) (hp : p ≠ initproc) (htask : (s.procs p).task = .none)
      (hinit : (∃ q, (s.procs q).parent = some p ∧ (s.procs q).state = .zombie) → ¬ Waits s initproc) :
      Micro s { s with procs := adopt p s.procs }
  | reap {s c p q} (hc : s.cpu c = .enter p) (hq : (s.procs q).parent = some p ∧ (s.procs q).state = .zombie) :
      Micro s { s.set q { s.procs q with state := .unused, pid := 0, parent := none, killed := false, kstack := none } with
        reaped := s.reaped ++ [(s.procs q).pid] }
  | fork {s c p q} (hc : s.cpu c = .enter p) (htask : (s.procs p).task = .none) (hq : (s.procs q).state = .unused) :
      Micro s { (s.set q { s.procs q with state := .embryo, pid := s.nextpid }).set p { s.procs p with task := .kalloc q } with
        nextpid := s.nextpid + 1, allocs := s.allocs + 1 }
  | forks {s s' c p} (hc : s.cpu c = .run p) (h : Forks s p s') : Micro s s'

variable {s s' : State ι}

/-- Several of them. -/
abbrev Micros : State ι → State ι → Prop := Relation.ReflTransGen Micro

theorem first_some {P : Fin NPROC → Bool} {q : Fin NPROC} (h : first P = some q) : P q = true := List.find?_some h

theorem first_none {P : Fin NPROC → Bool} (h : first P = none) (q : Fin NPROC) : P q = false :=
  Bool.eq_false_iff.mpr (List.find?_eq_none.mp h q (List.mem_finRange q))

/-- The loop of `wait`. -/
theorem wait_micros {c : ι} {p : Fin NPROC} (hc : s.cpu c = .enter p) : Micros s (wait s c p) := by
  unfold wait
  cases hz : first fun q => (s.procs q).parent = some p ∧ (s.procs q).state = .zombie with
  | some q =>
    have hq := of_decide_eq_true (first_some hz)
    exact .tail (.single (.reap hc hq)) (.release hc)
  | none =>
    dsimp only
    split_ifs with hreturn
    · exact .single (.release hc)
    · rw [not_or, Bool.not_eq_true] at hreturn
      obtain ⟨q, hq⟩ := Option.ne_none_iff_exists'.mp hreturn.1
      refine .single (.leave hc (.wait ⟨q, of_decide_eq_true (first_some hq)⟩ (fun r hr hzombie => ?_) hreturn.2))
      exact of_decide_eq_false (first_none hz r) ⟨hr, hzombie⟩

@[simp] theorem acquire_cpu (s : State ι) (c : ι) (p : Fin NPROC) : (acquire s c p).cpu c = .enter p := Function.update_self ..

@[simp] theorem acquire_procs (s : State ι) (c : ι) (p : Fin NPROC) : (acquire s c p).procs = s.procs := rfl

/-- A critical section that ends in the same place. -/
theorem section_micros {c : ι} {p : Fin NPROC} (hc : s.cpu c = .run p) (hlock : s.lock = none)
    (h : Micros (acquire s c p) s') (hcpu : s'.cpu c = .enter p) : Micros s (release s' c p) :=
  .tail (.head (.grab hc hlock) h) (.release hcpu)

theorem wakeup1_parent (chan : Chan) (procs : Fin NPROC → Slot) (p : Fin NPROC) :
    (wakeup1 chan procs p).parent = (procs p).parent := by
  unfold wakeup1
  split_ifs <;> rfl

theorem wakeup1_zombie (chan : Chan) (procs : Fin NPROC → Slot) (p : Fin NPROC) :
    (wakeup1 chan procs p).state = .zombie ↔ (procs p).state = .zombie := by
  unfold wakeup1
  split_ifs with h
  · simp [h.1]
  · rfl

omit [DecidableEq ι] in
/-- Nobody sleeps where `wakeup1` was. -/
theorem not_waits_wakeup1 (s : State ι) (q : Fin NPROC) : ¬ Waits { s with procs := wakeup1 (.proc q) s.procs } q := by
  unfold Waits wakeup1
  dsimp only
  split_ifs with h
  · simp
  · exact h

omit [DecidableEq ι] in
theorem Waits.of_wakeup1 {chan : Chan} {q : Fin NPROC} (h : Waits { s with procs := wakeup1 chan s.procs } q) : Waits s q := by
  unfold Waits wakeup1 at h
  dsimp only at h
  split_ifs at h with hw
  · simp at h
  · exact h

omit [DecidableEq ι] in
/-- `initproc` may be woken before it gets the children. -/
theorem wakeup1_adopt (chan : Chan) (procs : Fin NPROC → Slot) (p : Fin NPROC) :
    wakeup1 chan (adopt p procs) = adopt p (wakeup1 chan procs) := by
  funext q
  unfold adopt
  rw [wakeup1_parent]
  unfold wakeup1
  split_ifs <;> simp_all

theorem adopt_parent {p : Fin NPROC} (hp : p ≠ initproc) (procs : Fin NPROC → Slot) (q : Fin NPROC) :
    (adopt p procs q).parent ≠ some p := by
  unfold adopt
  split_ifs with h
  · intro heq
    exact hp (Option.some.inj heq).symm
  · exact h

theorem adopt_parent_ne {p q : Fin NPROC} (procs : Fin NPROC → Slot) (h : (procs q).parent ≠ some p) : adopt p procs q = procs q :=
  if_neg h

theorem adopt_state (p : Fin NPROC) (procs : Fin NPROC → Slot) (q : Fin NPROC) : (adopt p procs q).state = (procs q).state := by
  unfold adopt
  split_ifs <;> rfl

theorem adopt_chan (p : Fin NPROC) (procs : Fin NPROC → Slot) (q : Fin NPROC) : (adopt p procs q).chan = (procs q).chan := by
  unfold adopt
  split_ifs <;> rfl

theorem adopt_task (p : Fin NPROC) (procs : Fin NPROC → Slot) (q : Fin NPROC) : (adopt p procs q).task = (procs q).task := by
  unfold adopt
  split_ifs <;> rfl

theorem wakeup1_task (chan : Chan) (procs : Fin NPROC → Slot) (q : Fin NPROC) : (wakeup1 chan procs q).task = (procs q).task := by
  unfold wakeup1
  split_ifs <;> rfl

/-- The rest of `exit`, when `initproc` is awake if it has to. -/
theorem adopt_micros {c : ι} {p : Fin NPROC} (hc : s.cpu c = .enter p) (hp : p ≠ initproc) (htask : (s.procs p).task = .none)
    (hself : (s.procs p).parent ≠ some p) (hparent : ∀ q, (s.procs p).parent = some q → ¬ Waits s q)
    (hinit : (∃ q, (s.procs q).parent = some p ∧ (s.procs q).state = .zombie) → ¬ Waits s initproc) :
    Micros s (sched { s with procs := adopt p s.procs } c p { adopt p s.procs p with state := .zombie, cont := .exit }) := by
  refine .tail (.single (.adopt hc hp htask hinit)) (.leave hc (.exit hp ?_ (adopt_parent hp _) fun q hq hw => ?_))
  · exact (adopt_task ..).trans htask
  · have hq' : (s.procs p).parent = some q := (congrArg Slot.parent (adopt_parent_ne s.procs hself)).symm.trans hq
    exact hparent q hq' ⟨(adopt_state ..).symm.trans hw.1, (adopt_chan ..).symm.trans hw.2⟩

theorem exit_micros {c : ι} {p : Fin NPROC} (hc : s.cpu c = .enter p) (hp : p ≠ initproc) (htask : (s.procs p).task = .none)
    (hself : (s.procs p).parent ≠ some p) : Micros s (exit s c p) := by
  -- First the parent.
  obtain ⟨t, ht, hcpu, htask, hself, hparent, hexit⟩ : ∃ t : State ι, Micros s t ∧ t.cpu c = .enter p ∧ (t.procs p).task = .none ∧
      (t.procs p).parent ≠ some p ∧ (∀ q, (t.procs p).parent = some q → ¬ Waits t q) ∧
      exit s c p =
        let t' := if (first fun q => (t.procs q).parent = some p ∧ (t.procs q).state = .zombie) = none
          then { t with procs := adopt p t.procs }
          else { t with procs := wakeup1 (.proc initproc) (adopt p t.procs) }
        sched t' c p { t'.procs p with state := .zombie, cont := .exit } := by
    cases hpar : (s.procs p).parent with
    | none => exact ⟨s, .refl, hc, htask, hself, by simp [hpar], by unfold exit; rw [hpar]⟩
    | some q =>
      refine ⟨_, .single (.wakeup (.proc q)), hc, (wakeup1_task ..).trans htask, ?_, ?_, by unfold exit; rw [hpar]⟩
      · rw [wakeup1_parent]
        exact hself
      · intro r hr
        obtain rfl : q = r := Option.some.inj (hpar.symm.trans ((wakeup1_parent ..).symm.trans hr))
        exact not_waits_wakeup1 s q
  rw [hexit]
  refine ht.trans ?_
  cases hz : first fun q => (t.procs q).parent = some p ∧ (t.procs q).state = .zombie with
  | none =>
    refine adopt_micros hcpu hp htask hself hparent fun hzombie => ?_
    obtain ⟨q, hq⟩ := hzombie
    exact absurd hq (of_decide_eq_false (first_none hz q))
  | some z =>
    refine .head (.wakeup (.proc initproc)) ?_
    have hmicros := adopt_micros (s := { t with procs := wakeup1 (.proc initproc) t.procs }) hcpu hp
      ((wakeup1_task ..).trans htask) (by rwa [wakeup1_parent])
      (fun q hq hw => hparent q ((wakeup1_parent ..).symm.trans hq) hw.of_wakeup1) (fun _ => not_waits_wakeup1 t _)
    simp only [← wakeup1_adopt] at hmicros
    exact hmicros

theorem kill_micros (s : State ι) (pid : Word) : Micros s (kill s pid) := by
  unfold kill
  cases first fun q => (s.procs q).pid = pid with
  | none => exact .refl
  | some q => exact .single (.kill q)

omit [DecidableEq ι] in
@[simp] theorem kill_cpu (s : State ι) (pid : Word) : (kill s pid).cpu = s.cpu := by
  unfold kill
  cases first fun q => (s.procs q).pid = pid <;> rfl

theorem fork_micros {c : ι} {p : Fin NPROC} (hc : s.cpu c = .enter p) (htask : (s.procs p).task = .none) :
    Micros s (fork s p) := by
  unfold fork
  cases hq : first fun q => (s.procs q).state = .unused with
  | none => exact .refl
  | some q => exact .single (.fork hc htask (of_decide_eq_true (first_some hq)))

omit [DecidableEq ι] in
@[simp] theorem fork_cpu (s : State ι) (p : Fin NPROC) : (fork s p).cpu = s.cpu := by
  unfold fork
  cases first fun q => (s.procs q).state = .unused <;> rfl

theorem forks_micros {c : ι} {p : Fin NPROC} (hc : s.cpu c = .run p) (page : Option ℕ) : Micros s (forks s p page) := by
  unfold forks
  cases htask : (s.procs p).task with
  | none => exact .refl
  | kalloc q =>
    cases page with
    | none => exact .single (.forks hc (.nokalloc htask))
    | some k =>
      dsimp only
      split_ifs with hfree
      · exact .single (.forks hc (.kalloc htask fun r => of_decide_eq_false (first_none hfree r)))
      · exact .refl
  | copyuvm q =>
    cases page with
    | none => exact .single (.forks hc (.nocopy htask))
    | some k => exact .single (.forks hc (.copy htask))
  | start q =>
    dsimp only
    split_ifs
    · exact .single (.forks hc (.start htask))
    · exact .refl

/-- A processor that goes on by itself; nobody comes back from `exit`. -/
theorem turn_micros {c : ι} (hcont : ∀ p, s.cpu c = .enter p → (s.procs p).cont ≠ .exit) :
    Sat (Micros s) (fun _ => False) (turn s c) := by
  unfold turn
  cases hc : s.cpu c with
  | scheduler =>
    show Micros s (if s.lock = none then _ else s)
    split_ifs with hlock
    · exact .single (.acquire hc hlock)
    · exact .refl
  | scan n =>
    dsimp only
    split_ifs with hn hp
    · exact .single (.pick hc hp)
    · exact .single (.skip hc hn)
    · exact .single (.rest hc)
  | run p => exact .refl
  | enter p =>
    dsimp only
    cases hk : (s.procs p).cont with
    | forkret => exact .single (.release hc)
    | yield => exact .single (.release hc)
    | sleep => exact .tail (.single (.clear hc)) (.release hc)
    | wait => exact .head (.clear hc) (wait_micros hc)
    | exit => exact hcont p hc hk
  | leave p => exact .single (.switch hc)

theorem act_micros {c : ι} {p : Fin NPROC} (hc : s.cpu c = .run p) (hself : (s.procs p).parent ≠ some p) (a : Act) :
    Sat (Micros s) (· = .initExiting) (act s c p a) := by
  have hsection : ∀ {f : State ι → State ι}, s.lock = none ∧ (s.procs p).task = .none →
      (∀ {t : State ι}, t.cpu c = .enter p → (t.procs p).task = .none → Micros t (f t)) → Micros s (f (acquire s c p)) :=
    fun h hf => .head (.grab hc h.1) (hf (acquire_cpu s c p) h.2)
  unfold act
  cases a with
  | yield =>
    show Micros s (if s.lock = none then _ else s)
    split_ifs with hlock
    · exact .tail (.single (.grab hc hlock)) (.leave (acquire_cpu s c p) .yield)
    · exact .refl
  | forks page => exact forks_micros hc page
  | turn => dsimp only; split_ifs <;> exact .refl
  | wakeup n => dsimp only; split_ifs <;> exact .refl
  | sleep n =>
    dsimp only
    split_ifs with h
    · exact .tail (.single (.grab hc h.1)) (.leave (acquire_cpu s c p) (.sleep n))
    · exact .refl
  | wait =>
    dsimp only
    split_ifs with h
    · exact hsection h fun hcpu _ => wait_micros hcpu
    · exact .refl
  | exit =>
    dsimp only
    split_ifs with h hp
    · rfl
    · exact .head (.grab hc h.1) (exit_micros (acquire_cpu s c p) hp h.2 hself)
    · exact .refl
  | kill pid =>
    dsimp only
    split_ifs with h
    · exact section_micros hc h.1 (kill_micros _ pid) (by simp)
    · exact .refl
  | fork =>
    dsimp only
    split_ifs with h
    · exact section_micros hc h.1 (fork_micros (acquire_cpu s c p) h.2) (by simp)
    · exact .refl

theorem step_micros (hcont : ∀ c p, s.cpu c = .enter p → (s.procs p).cont ≠ .exit) (hself : ∀ p, (s.procs p).parent ≠ some p)
    (e : ι × Act) : Sat (Micros s) (· = .initExiting) (step s e) := by
  obtain ⟨c, a⟩ := e
  have hact : Sat (Micros s) (· = .initExiting) (match s.cpu c with
      | .run p => act s c p a
      | _ => .ok s) := by
    cases hc : s.cpu c with
    | run p => exact act_micros hc (hself p) a
    | _ => exact .refl
  cases a with
  | turn => exact (turn_micros (hcont c)).mono (fun _ h => h) fun _ h => h.elim
  | wakeup n =>
    show Micros s (if s.lock = none then _ else s)
    split_ifs
    · exact .single (.wakeup (.other n))
    · exact .refl
  | _ => exact hact

/-- **The invariant rule for the table.** What the parts of the critical sections preserve holds in every run, and the run panics only
when `init` exits. -/
theorem run_micro {I : State ι → Prop} (hstep : ∀ s s', I s → Micro s s' → I s')
    (hcont : ∀ s, I s → ∀ c p, s.cpu c = .enter p → (s.procs p).cont ≠ .exit)
    (hself : ∀ s, I s → ∀ p, (s.procs p).parent ≠ some p) {s : State ι} (hs : I s) (es : List (ι × Act)) :
    Sat I (· = .initExiting) (run step s es) := by
  have hmicros : ∀ {s s'}, I s → Micros s s' → I s' := fun hI h => by
    induction h with
    | refl => exact hI
    | tail _ hlast ih => exact hstep _ _ ih hlast
  exact run_sat (fun s e hI _ => (step_micros (hcont s hI) (hself s hI) e).mono (fun _ h => hmicros hI h) fun _ h => h) es hs
    (along_true es s)

end

end Ptable
end Xv6
end OsLabs
