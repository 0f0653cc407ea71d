/-
# Processes that come and go

The process table of xv6, with what `fork`, `exec`, `exit` and `wait` do to the
alarm of a process. `allocproc` and `fork` clear it, `exec` does not: the new
program image is entered at a handler of the old one when the alarm comes
(`armed_exec`). And a delivery that stores outside the process's pages may hit the
table. If no process with an armed alarm calls `exec` and no delivery stores outside, each
handler that is entered was registered by the running program itself (`own_handler`).

Locks (`OsLabs/Xv6/Ptable.lean`) and the file system are left out, and a failed `exec` comes down to the
-1 that it returns.

Key definitions: `Table`, `act`.
-/
import OsLabs.Alarm.Machine
import OsLabs.Alarm.Push

namespace OsLabs
namespace Alarm

open Xv6 Run

/-- The maximum number of processes. -/
abbrev NPROC : ℕ := 64

inductive ProcState
  | unused
  | embryo
  | sleeping
  | runnable
  | running
  | zombie
  deriving DecidableEq, Repr

/-- An entry of the process table. `registered` records the handlers that the process
passed to `alarm` since its last successful `exec`. -/
structure Slot where
  state : ProcState
  pid : Word
  parent : Option (Fin NPROC)
  proc : Proc
  registered : List Word

structure Table where
  procs : Fin NPROC → Slot
  nextpid : Word

/-- `initproc`. -/
def initproc : Fin NPROC := 0

/-- What a process does, or what happens to it. -/
inductive Call
  /-- User code, and the system calls that are not modelled. -/
  | user (tf : Trapframe) (mem : Memory) (sz : Size)
  /-- Whether there is a page for the kernel stack, and memory for the copy. -/
  | fork (kstack copy : Bool)
  /-- A new image with its entry and stack pointer, or a failure. -/
  | exec (image : Option (Word × Word × Size × Memory))
  | alarm
  | exit
  /-- `wait` finds the child at `child`, if that is a zombie. -/
  | wait (child : Fin NPROC)
  | sleep
  /-- A tick in user mode. -/
  | tick (page : Option ℕ)
  /-- The scheduler picks the process. -/
  | sched
  | wakeup

/-- No alarm. -/
def Proc.clearAlarm (p : Proc) : Proc :=
  { p with alarmInterval := 0, alarmTicks := 0, alarmHandler := 0, alarmInHandler := false, alarmTf := none }

/-- `syscall` puts `v` in `eax`. -/
def Proc.returns (p : Proc) (v : Word) : Proc := { p with tf := { p.tf with eax := v } }

def Table.set (t : Table) (i : Fin NPROC) (s : Slot) : Table :=
  { t with procs := fun j => if j = i then s else t.procs j }

/-- `allocproc`: an entry in state `embryo`, if one is unused and there is a kernel
stack for it. -/
def allocproc (kstack : Bool) (t : Table) : Table × Option (Fin NPROC) :=
  match (List.finRange NPROC).find? fun i => (t.procs i).state = .unused with
  | none => (t, none)
  | some i =>
    let s := { t.procs i with state := .embryo, pid := t.nextpid, proc := (t.procs i).proc.clearAlarm, registered := [] }
    let t := { t with nextpid := t.nextpid + 1 }
    if kstack then (t.set i s, some i) else (t.set i { s with state := .unused }, none)

/-- The running process at `i` returns `v` from a system call. -/
def Table.ret (t : Table) (i : Fin NPROC) (v : Word) : Table :=
  t.set i { t.procs i with proc := (t.procs i).proc.returns v }

def fork (i : Fin NPROC) (kstack copy : Bool) (t : Table) : Table :=
  match allocproc kstack t with
  | (t, none) => t.ret i (-1)
  | (t, some j) =>
    let np := t.procs j
    let curproc := t.procs i
    if copy then
      let p := { np.proc with sz := curproc.proc.sz, mem := curproc.proc.mem, tf := curproc.proc.tf }
      let np := { np with state := .runnable, parent := some i, proc := (p.returns 0).clearAlarm }
      (t.set j np).ret i np.pid
    else (t.set j { np with state := .unused }).ret i (-1)

/-- `exec`; nothing of the alarm is touched when it commits to the new image. -/
def exec (i : Fin NPROC) (image : Option (Word × Word × Size × Memory)) (t : Table) : Table :=
  match image with
  | none => t.ret i (-1)
  | some (entry, sp, sz, mem) =>
    let s := t.procs i
    let p := { s.proc with sz := sz, mem := mem, tf := { s.proc.tf with eip := entry, esp := sp } }
    t.set i { s with proc := p.returns 0, registered := [] }

def alarm (i : Fin NPROC) (t : Table) : Table :=
  let s := t.procs i
  t.set i { s with
    proc := sysAlarm s.proc
    registered := ((alarmArgs s.proc).map Prod.snd).toList ++ s.registered }

/-- `exit` leaves the children to `initproc`; it frees the page of `alarm_tf`. -/
def exit (i : Fin NPROC) (t : Table) : Table :=
  let t := { t with procs := fun j => if (t.procs j).parent = some i then { t.procs j with parent := some initproc }
                                      else t.procs j }
  t.set i { t.procs i with state := .zombie }

def wait (i child : Fin NPROC) (t : Table) : Table :=
  let s := t.procs child
  if s.parent = some i ∧ s.state = .zombie then
    (t.set child { s with state := .unused, pid := 0, parent := none }).ret i s.pid
  else t

/-- What a store of a word at an address outside the pages of the process it is made for does to
the table; what was passed to `alarm` is history. -/
def Table.spill (hit : Word → Word → Table → Table) (a w : Word) (t : Table) : Table :=
  { hit a w t with procs := fun j => { (hit a w t).procs j with registered := (t.procs j).registered } }

/-- A tick of the running process at `i`, which then yields. -/
def tick (hit : Word → Word → Table → Table) (k : Kernel) (i : Fin NPROC) (page : Option ℕ) (t : Table) :
    Except Panic Table := do
  let s := t.procs i
  let r ← trapStore k s.proc.tf.cs page s.proc
  let t := t.set i { s with proc := r.proc }
  let t := if r.Spills then t.spill hit r.proc.tf.esp r.proc.tf.eip else t
  let s := t.procs i
  pure (t.set i { s with proc := (trapEnter { r with proc := s.proc }).proc, state := .runnable })

/-- The state in which a process makes a call. -/
def Call.needs : Call → ProcState
  | .sched => .runnable
  | .wakeup => .sleeping
  | _ => .running

/-- The process at `i` makes a call. `init` exiting is a panic. -/
def perform (hit : Word → Word → Table → Table) (k : Kernel) (i : Fin NPROC) (t : Table) : Call → Except Panic Table
  | .user tf mem sz =>
    .ok (t.set i { t.procs i with proc := work (t.procs i).proc tf mem sz })
  | .fork kstack copy => .ok (fork i kstack copy t)
  | .exec image => .ok (exec i image t)
  | .alarm => .ok (alarm i t)
  | .exit => if i = initproc then .error .trap else .ok (exit i t)
  | .wait child => .ok (wait i child t)
  | .sleep => .ok (t.set i { t.procs i with state := .sleeping })
  | .tick page => tick hit k i page t
  | .sched => .ok (t.set i { t.procs i with state := .running })
  | .wakeup => .ok (t.set i { t.procs i with state := .runnable })

/-- What the state of the process does not allow does not happen. -/
def act (hit : Word → Word → Table → Table) (k : Kernel) (t : Table) (e : Fin NPROC × Call) : Except Panic Table :=
  if (t.procs e.1).state = e.2.needs then perform hit k e.1 t e.2 else .ok t

/-- After `userinit`: one process, which has no alarm. -/
def boot (p : Proc) : Table where
  procs i :=
    { state := if i = initproc then .runnable else .unused
      pid := if i = initproc then 1 else 0
      parent := none
      proc := p.clearAlarm
      registered := [] }
  nextpid := 2

/-! ### Whose handler -/

/-- A tick that enters a handler enters one that the process passed to `alarm` since
its last successful `exec`. -/
def OwnHandler (hit : Word → Word → Table → Table) (k : Kernel) (t : Table) : Fin NPROC × Call → Prop
  | (i, .tick page) => (t.procs i).state = .running → Delivers (t.procs i).proc.tf.cs page (t.procs i).proc →
      Sat (fun t' => (t'.procs i).proc.tf.eip ∈ (t.procs i).registered) (fun _ => True) (act hit k t (i, .tick page))
  | _ => True

/-- A process that succeeds in `exec` has no alarm armed, and a word is pushed for a process
inside its own pages. -/
def Tame (t : Table) : Fin NPROC × Call → Prop
  | (i, .exec (some _)) => (t.procs i).state = .running → (t.procs i).proc.alarmInterval ≤ 0
  | (i, .tick page) => (t.procs i).state = .running → PushesOwn (t.procs i).proc.tf.cs page (t.procs i).proc
  | _ => True

/-- An armed alarm has a handler of the process's own. -/
def Slot.Own (s : Slot) : Prop := 0 < s.proc.alarmInterval → s.proc.alarmHandler ∈ s.registered

variable {hit : Word → Word → Table → Table} {k : Kernel} {t : Table} {i : Fin NPROC}

theorem set_own (h : ∀ j, (t.procs j).Own) {s : Slot} (hs : s.Own) (j : Fin NPROC) : ((t.set i s).procs j).Own := by
  show (if j = i then s else t.procs j).Own
  by_cases hj : j = i
  · rw [if_pos hj]
    exact hs
  · rw [if_neg hj]
    exact h j

theorem ret_own (h : ∀ j, (t.procs j).Own) (v : Word) (j : Fin NPROC) : ((t.ret i v).procs j).Own :=
  set_own h (s := { t.procs i with proc := (t.procs i).proc.returns v }) (h i) j

theorem clearAlarm_own {s : Slot} {p : Proc} (h : s.proc = p.clearAlarm) : s.Own := by
  intro harmed
  rw [h] at harmed
  exact absurd harmed (lt_irrefl 0)

theorem allocproc_own (h : ∀ j, (t.procs j).Own) (kstack : Bool) :
    ∀ j, ((allocproc kstack t).1.procs j).Own := by
  unfold allocproc
  split
  · exact h
  · split_ifs
    · exact set_own h (clearAlarm_own rfl)
    · exact set_own h (clearAlarm_own rfl)

/-- A child has no alarm, and nothing registered. -/
theorem fork_own (h : ∀ j, (t.procs j).Own) (kstack copy : Bool) : ∀ j, ((fork i kstack copy t).procs j).Own := by
  have halloc := allocproc_own h kstack
  unfold fork
  split
  · next t' heq =>
    rw [heq] at halloc
    exact ret_own halloc _
  · next t' j heq =>
    rw [heq] at halloc
    dsimp only
    split_ifs
    · refine ret_own (set_own halloc ?_) _
      exact clearAlarm_own rfl
    · refine ret_own (set_own halloc ?_) _
      exact halloc j

theorem exec_own (h : ∀ j, (t.procs j).Own) (image : Option (Word × Word × Size × Memory))
    (hdis : image ≠ none → (t.procs i).proc.alarmInterval ≤ 0) : ∀ j, ((exec i image t).procs j).Own := by
  cases image with
  | none => exact ret_own h _
  | some img =>
    refine set_own h fun harmed => ?_
    have harmed : 0 < (t.procs i).proc.alarmInterval := harmed
    have := hdis nofun
    omega

theorem alarm_own (h : ∀ j, (t.procs j).Own) : ∀ j, ((alarm i t).procs j).Own := by
  refine set_own h ?_
  unfold Slot.Own sysAlarm
  cases ha : alarmArgs (t.procs i).proc with
  | none => exact h i
  | some a => exact fun _ => List.mem_cons_self

theorem exit_own (h : ∀ j, (t.procs j).Own) : ∀ j, ((exit i t).procs j).Own := by
  have hparent : ∀ j, (if (t.procs j).parent = some i then { t.procs j with parent := some initproc }
      else t.procs j).Own := fun j => by
    split_ifs
    · exact h j
    · exact h j
  exact set_own hparent (hparent i)

theorem wait_own (h : ∀ j, (t.procs j).Own) (child : Fin NPROC) : ∀ j, ((wait i child t).procs j).Own := by
  unfold wait
  dsimp only
  split_ifs
  · refine ret_own (set_own h ?_) _
    exact h child
  · exact h

theorem set_set (t : Table) (i : Fin NPROC) (x y : Slot) : (t.set i x).set i y = t.set i y := by
  unfold Table.set
  congr 1
  funext j
  by_cases hj : j = i
  · rw [if_pos hj, if_pos hj]
  · rw [if_neg hj, if_neg hj]
    exact if_neg hj

/-- A tick that stores inside is the process's own affair. -/
theorem tick_own {page : Option ℕ} (h : PushesOwn (t.procs i).proc.tf.cs page (t.procs i).proc) :
    tick hit k i page t = (step k (t.procs i).proc (.tick page)).map fun p =>
      t.set i { t.procs i with proc := p, state := .runnable } := by
  simp only [step, trapTimer]
  unfold tick
  dsimp only
  cases hr : trapStore k (t.procs i).proc.tf.cs page (t.procs i).proc with
  | error x => rfl
  | ok r =>
    have hin : ¬ r.Spills := trapStore_own h hr
    have hself : (t.set i { t.procs i with proc := r.proc }).procs i = { t.procs i with proc := r.proc } := if_pos rfl
    show Except.ok _ = Except.ok _
    rw [if_neg hin, hself, set_set]

/-- A tick leaves the interval, and the handler. -/
theorem step_tick_keeps {p p' : Proc} {page : Option ℕ} (h : step k p (.tick page) = .ok p') :
    p'.alarmInterval = p.alarmInterval ∧ p'.alarmHandler = p.alarmHandler := by
  obtain ⟨-, -, hint, -, hhand, -⟩ := trapRestore_fields p.tf.cs p
  simp only [step] at h
  rcases trapTimer_cases k p.tf.cs page p with ⟨-, n, hok, -⟩ | ⟨-, a, -, hok⟩
  · rw [hok] at h
    obtain rfl := Except.ok.inj h
    exact ⟨hint, hhand⟩
  · rw [hok] at h
    unfold kstore at h
    split_ifs at h
    · obtain rfl := Except.ok.inj h
      exact ⟨hint, hhand⟩
    · cases h

theorem act_tick (h : ∀ j, (t.procs j).Own) {page : Option ℕ} (hstate : (t.procs i).state = .running)
    (hin : PushesOwn (t.procs i).proc.tf.cs page (t.procs i).proc) :
    OwnHandler hit k t (i, .tick page) ∧
    Sat (fun t' => ∀ j, (t'.procs j).Own) (fun _ => True) (act hit k t (i, .tick page)) := by
  have hact : act hit k t (i, .tick page) = (step k (t.procs i).proc (.tick page)).map fun p =>
      t.set i { t.procs i with proc := p, state := .runnable } := (if_pos hstate).trans (tick_own hin)
  simp only [OwnHandler, hact]
  cases hp : step k (t.procs i).proc (.tick page) with
  | error x => exact ⟨fun _ _ => trivial, trivial⟩
  | ok p =>
    obtain ⟨hint, hhand⟩ := step_tick_keeps hp
    refine ⟨fun _ hd => ?_, set_own h fun harmed => ?_⟩
    · have hself : (t.set i { t.procs i with proc := p, state := .runnable }).procs i =
          { t.procs i with proc := p, state := .runnable } := if_pos rfl
      show ((t.set i _).procs i).proc.tf.eip ∈ _
      rw [hself]
      show p.tf.eip ∈ _
      rw [(step_tick_delivers hd hp).2.2.1]
      exact h i hd.1.2.2
    · have harmed : 0 < p.alarmInterval := harmed
      show p.alarmHandler ∈ (t.procs i).registered
      rw [hhand]
      exact h i (hint ▸ harmed)

theorem act_own (hit : Word → Word → Table → Table) (k : Kernel) (t : Table) (e : Fin NPROC × Call)
    (h : ∀ j, (t.procs j).Own) (htame : Tame t e) :
    OwnHandler hit k t e ∧ Sat (fun t' => ∀ j, (t'.procs j).Own) (fun _ => True) (act hit k t e) := by
  obtain ⟨i, c⟩ := e
  by_cases hstate : (t.procs i).state = c.needs
  · cases c with
    | tick page => exact act_tick h hstate (htame hstate)
    | user tf mem sz =>
      refine ⟨trivial, ?_⟩
      rw [act, if_pos hstate]
      exact set_own h (s := { t.procs i with proc := work (t.procs i).proc tf mem sz }) (h i)
    | fork kstack copy =>
      refine ⟨trivial, ?_⟩
      rw [act, if_pos hstate]
      exact fork_own h kstack copy
    | exec image =>
      refine ⟨by cases image <;> trivial, ?_⟩
      rw [act, if_pos hstate]
      refine exec_own h image fun himage => ?_
      obtain ⟨img, rfl⟩ := Option.ne_none_iff_exists'.mp himage
      exact htame hstate
    | alarm =>
      refine ⟨trivial, ?_⟩
      rw [act, if_pos hstate]
      exact alarm_own h
    | exit =>
      refine ⟨trivial, ?_⟩
      rw [act, if_pos hstate]
      unfold perform
      split_ifs
      · exact trivial
      · exact exit_own h
    | wait child =>
      refine ⟨trivial, ?_⟩
      rw [act, if_pos hstate]
      exact wait_own h child
    | sleep =>
      refine ⟨trivial, ?_⟩
      rw [act, if_pos hstate]
      exact set_own h (s := { t.procs i with state := .sleeping }) (h i)
    | sched =>
      refine ⟨trivial, ?_⟩
      rw [act, if_pos hstate]
      exact set_own h (s := { t.procs i with state := .running }) (h i)
    | wakeup =>
      refine ⟨trivial, ?_⟩
      rw [act, if_pos hstate]
      exact set_own h (s := { t.procs i with state := .runnable }) (h i)
  · have hact : act hit k t (i, c) = .ok t := if_neg hstate
    refine ⟨?_, ?_⟩
    · cases c with
      | tick page => exact fun hrun => absurd hrun hstate
      | exec image => cases image <;> trivial
      | _ => exact trivial
    · rw [hact]
      exact h

/-- **A process's own handler.** In every run of the table from `boot` in which a
process with an armed alarm never succeeds in `exec` and nothing is pushed for a process outside its
own pages, each handler that is entered was passed to `alarm` by the same process since its last
successful `exec`, whatever such a store would hit. -/
theorem own_handler (hit : Word → Word → Table → Table) (k : Kernel) (p : Proc) (es : List (Fin NPROC × Call))
    (hes : Along (act hit k) Tame (boot p) es) : Along (act hit k) (OwnHandler hit k) (boot p) es := by
  have hboot : ∀ j, ((boot p).procs j).Own := fun j => clearAlarm_own rfl
  exact along_inv (act_own hit k) es hboot hes

instance decOwnHandler (hit : Word → Word → Table → Table) (k : Kernel) (t : Table) : DecidablePred (OwnHandler hit k t)
  | (i, .tick page) => inferInstanceAs (Decidable ((t.procs i).state = .running →
      Delivers (t.procs i).proc.tf.cs page (t.procs i).proc →
      Sat (fun t' => (t'.procs i).proc.tf.eip ∈ (t.procs i).registered) (fun _ => True) (act hit k t (i, .tick page))))
  | (_, .user _ _ _) | (_, .fork _ _) | (_, .exec _) | (_, .alarm) | (_, .exit) | (_, .wait _) | (_, .sleep)
  | (_, .sched) | (_, .wakeup) => inferInstanceAs (Decidable True)

instance decTame (t : Table) : DecidablePred (Tame t)
  | (i, .exec (some _)) => inferInstanceAs (Decidable ((t.procs i).state = .running → (t.procs i).proc.alarmInterval ≤ 0))
  | (i, .tick page) => inferInstanceAs (Decidable ((t.procs i).state = .running →
      PushesOwn (t.procs i).proc.tf.cs page (t.procs i).proc))
  | (_, .exec none) | (_, .user _ _ _) | (_, .fork _ _) | (_, .alarm) | (_, .exit) | (_, .wait _)
  | (_, .sleep) | (_, .sched) | (_, .wakeup) => inferInstanceAs (Decidable True)

/-- A store that hits the handlers. -/
def hitHandlers (_ w : Word) (t : Table) : Table :=
  { t with procs := fun j => { t.procs j with proc := { (t.procs j).proc with alarmHandler := w } } }

/-- `init` forks, and the child calls `alarm(1, 0x40)` and computes until the tick. -/
def forkAndArm : List (Fin NPROC × Call) :=
  [(0, .sched), (0, .fork true true), (1, .sched),
    (1, .user (armed 0x1f00).tf (fun a => if a = 0x1f04 then 1 else if a = 0x1f08 then 0x40 else 0) (armed 0x1f00).sz),
    (1, .alarm), (1, .tick (some 7))]

theorem own_handler_forkAndArm :
    Along (act hitHandlers someKernel) (OwnHandler hitHandlers someKernel) (boot (armed 0x2000)) forkAndArm :=
  own_handler hitHandlers someKernel (armed 0x2000) forkAndArm (by decide +kernel)

/-- The child calls `exec` before the tick. -/
def armAndExec : List (Fin NPROC × Call) :=
  forkAndArm.dropLast ++ [(1, .exec (some (0, 0x2000, (armed 0x1f00).sz, fun _ => 0))), (1, .tick (some 7))]

/-- The new image is entered at the old one's handler. -/
theorem armed_exec :
    ¬ Along (act hitHandlers someKernel) (OwnHandler hitHandlers someKernel) (boot (armed 0x2000)) armAndExec ∧
    (run (act hitHandlers someKernel) (boot (armed 0x2000)) armAndExec).map (fun t => (t.procs 1).proc.tf.eip) = .ok 0x40 := by
  decide +kernel

end Alarm
end OsLabs
