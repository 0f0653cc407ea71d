/-
# The pages of `alarm_tf`

`trap` obtains a page from `kalloc` at a process's first delivery, saves the interrupted frame in it at every delivery, and
looks at it at the ticks of the handler. `exit` gives the page back before it closes the files and leaves `alarm_tf` as it
is, until `allocproc` clears it for the next process of the slot. That it is not used in between rests on the test for user
mode, to which a process in `exit` does not return.

This holds of every run in which no delivery stores into the kernel (`alarm_pages`). But a page may be obtained
again while the `alarm_tf` of its last process still points to it, for as long as that closes its files or is a zombie.

The other pages that the kernel takes and gives back, for stacks, page tables and user memory, are events of their own.

Key definitions: `State`, `step`, `Contained`, `Fresh`.
-/
import OsLabs.Alarm.Table
import OsLabs.Lib.Pool

namespace OsLabs
namespace Alarm
namespace Pages

open Xv6 Run Lease Parties
open Function (update)

/-- Where the linker put `ptable.proc` and the end of the kernel, `end`. -/
structure Image extends Kernel where
  procs : ℕ
  last : ℕ
  table : data ≤ procs
  room : procs + NPROC * 144 ≤ last

/-- `&ptable.proc[i].alarm_tf`; a `struct proc` has 144 bytes. -/
def Image.alarmTf (im : Image) (i : Fin NPROC) : Word := BitVec.ofNat 32 (im.procs + i * 144 + 140)

/-- `kfree` takes `v` for a page. -/
def Image.IsPage (im : Image) (v : Word) : Prop :=
  v.toNat % PGSIZE = 0 ∧ im.last ≤ v.toNat ∧ v.toNat - KERNBASE < PHYSTOP

instance (im : Image) : DecidablePred im.IsPage := fun _ => inferInstanceAs (Decidable (_ ∧ _ ∧ _))

/-- What a process runs: user code, the kernel for it, or `exit`. -/
inductive Mode
  | user
  | kernel
  | exiting
  deriving DecidableEq, Repr

/-- An entry of the process table. Its `alarm_tf` is here and not in `proc`. -/
structure Slot where
  state : ProcState
  pid : ℕ
  parent : Option (Fin NPROC)
  killed : Bool
  mode : Mode
  proc : Proc
  alarmTf : Word

/-- The process table and the pages: the frames in them, `kmem.freelist`, and those that the rest of the kernel has taken.
`log` records what processes did with the pages of their `alarm_tf`. -/
structure State where
  procs : Fin NPROC → Slot
  nextpid : ℕ
  frames : Word → Trapframe
  freelist : List Word
  others : List Word
  log : List (Use ℕ Word)

/-- What a process does, or what happens to it. -/
inductive Call
  /-- User code. -/
  | user (tf : Trapframe) (mem : Memory) (sz : Size)
  | syscall
  /-- Another trap in user mode; a fault kills the process. -/
  | trap (fault : Bool)
  /-- The way back to user code, with `trap`'s test of `killed`. -/
  | leave
  | alarm
  /-- Whether there is a page for the kernel stack, and memory for the copy. -/
  | fork (kstack copy : Bool)
  /-- A new image with its entry and stack pointer, or a failure. -/
  | exec (image : Option (Word × Word × Size × Memory))
  | exit
  | kill (pid : ℕ)
  /-- `wait` finds the child at `child`, if that is a zombie. -/
  | wait (child : Fin NPROC)
  | sleep
  /-- The files are closed, and `exit` goes on. -/
  | close
  /-- A tick, in whichever mode. -/
  | tick
  | yield
  | sched
  | wakeup

inductive Event
  | act (i : Fin NPROC) (c : Call)
  /-- The rest of the kernel takes a page. -/
  | kalloc
  | kfree (page : Word)
  /-- It writes to a page that it has taken. -/
  | write (page : Word) (tf : Trapframe)

/-- How a run stops. -/
inductive Stop
  | panic
  /-- A delivery has stored into the kernel, and not into `alarm_tf`s only. -/
  | elsewhere
  deriving DecidableEq, Repr

def State.set (s : State) (i : Fin NPROC) (p : Slot) : State := { s with procs := update s.procs i p }

/-- The process at `i` returns `v` from a system call. -/
def State.ret (s : State) (i : Fin NPROC) (v : Word) : State :=
  s.set i { s.procs i with proc := (s.procs i).proc.returns v }

/-! ### Pages -/

/-- A page after `memset(v, 1, PGSIZE)` and `r->next = kmem.freelist`. -/
def junk (next : Word) : Trapframe where
  edi := next
  esi := 0x01010101
  ebp := 0x01010101
  ebx := 0x01010101
  edx := 0x01010101
  ecx := 0x01010101
  eax := 0x01010101
  gs := 0x0101
  fs := 0x0101
  es := 0x0101
  ds := 0x0101
  eip := 0x01010101
  cs := 0x0101
  eflags := 0x01010101
  esp := 0x01010101
  ss := 0x0101

def kfree (im : Image) (v : Word) (s : State) : Except Stop State :=
  if im.IsPage v then
    .ok { s with frames := update s.frames v (junk (s.freelist.head?.getD 0)), freelist := v :: s.freelist }
  else .error .panic

/-! ### The timer -/

/-- The process at `i` with the frame that its `alarm_tf` points to. -/
def State.view (s : State) (i : Fin NPROC) : Proc :=
  let a := (s.procs i).alarmTf
  { (s.procs i).proc with alarmTf := if a = 0 then none else some ⟨a.toNat, s.frames a⟩ }

/-- The code segment that a tick interrupts. -/
def State.cs (s : State) (i : Fin NPROC) : BitVec 16 :=
  if (s.procs i).mode = .user then (s.procs i).proc.tf.cs else kcode

/-- What `kalloc` returns. -/
def State.page (s : State) : Option ℕ := s.freelist.head?.map BitVec.toNat

/-- The test for the handler's end looks at the frame. -/
def State.reads (s : State) (i : Fin NPROC) : List (Use ℕ Word) :=
  let p := s.procs i
  if p.proc.alarmInHandler ∧ usermode (s.cs i) ∧ p.alarmTf ≠ 0 then [.uses p.pid p.alarmTf] else []

/-- The process is in the kernel when `trap` goes on. -/
def State.trapped (s : State) (i : Fin NPROC) (r : Trapped) : State :=
  let p := s.procs i
  let p' := { p with mode := if p.mode = .user then .kernel else p.mode, proc := { r.proc with alarmTf := none } }
  match r.delivered, r.proc.alarmTf with
  | true, some f =>
    let a := BitVec.ofNat 32 f.page
    { s with
      procs := update s.procs i { p' with alarmTf := a }
      frames := update s.frames a f.tf
      freelist := if p.alarmTf = 0 then s.freelist.tail else s.freelist
      log := s.log ++ s.reads i ++ (if p.alarmTf = 0 then [.obtains p.pid a] else []) ++ [.uses p.pid a] }
  | _, _ => { s with procs := update s.procs i p', log := s.log ++ s.reads i }

/-- The store of the word `w` at `a`, in each `alarm_tf` of the table. -/
def State.scribble (im : Image) (s : State) (a w : Word) : State :=
  { s with procs := fun j =>
      let old := store (fun _ => 0) (im.alarmTf j) (s.procs j).alarmTf
      { s.procs j with alarmTf := load (store old a w) (im.alarmTf j) } }

/-- The timer case of `trap`. A delivery's store may land in the kernel. -/
def tick (im : Image) (i : Fin NPROC) (s : State) : Except Stop State :=
  match trapTimer im.toKernel (s.cs i) s.page (s.view i) with
  | .error _ => .error .panic
  | .ok r =>
    if r.stored.all (·.toNat < KERNBASE) then .ok (s.trapped i r)
    else if r.stored.all fun b => (List.finRange NPROC).any fun j => b ∈ bytes (im.alarmTf j) then
      .ok ((s.trapped i r).scribble im r.proc.tf.esp (s.procs i).proc.tf.eip)
    else .error .elsewhere

/-! ### Processes -/

/-- `allocproc`; the context it sets up goes to user code. -/
def allocproc (kstack : Bool) (s : State) : State × Option (Fin NPROC) :=
  match (List.finRange NPROC).find? fun i => (s.procs i).state = .unused with
  | none => (s, none)
  | some i =>
    let p := { s.procs i with state := .embryo, pid := s.nextpid, mode := .user, proc := (s.procs i).proc.clearAlarm,
                              alarmTf := 0 }
    let s := { s with nextpid := s.nextpid + 1 }
    if kstack then (s.set i p, some i) else (s.set i { p with state := .unused }, none)

def fork (i : Fin NPROC) (kstack copy : Bool) (s : State) : State :=
  match allocproc kstack s with
  | (s, none) => s.ret i (-1)
  | (s, some j) =>
    let np := s.procs j
    let curproc := s.procs i
    if copy then
      let p := { np.proc with sz := curproc.proc.sz, mem := curproc.proc.mem, tf := curproc.proc.tf }
      let np := { np with state := .runnable, parent := some i, proc := (p.returns 0).clearAlarm, alarmTf := 0 }
      (s.set j np).ret i (BitVec.ofNat 32 np.pid)
    else (s.set j { np with state := .unused }).ret i (-1)

/-- `exec`; nothing of the alarm is touched. -/
def exec (i : Fin NPROC) (image : Option (Word × Word × Size × Memory)) (s : State) : State :=
  match image with
  | none => s.ret i (-1)
  | some (entry, sp, sz, mem) =>
    let p := (s.procs i).proc
    let p := { p with sz := sz, mem := mem, tf := { p.tf with eip := entry, esp := sp } }
    s.set i { s.procs i with proc := p.returns 0 }

/-- `exit`, up to the files. -/
def exit (im : Image) (i : Fin NPROC) (s : State) : Except Stop State :=
  let curproc := s.procs i
  if i = initproc then .error .panic
  else if curproc.alarmTf = 0 then .ok (s.set i { curproc with mode := .exiting })
  else do
    let s ← kfree im curproc.alarmTf s
    pure ({ s with log := s.log ++ [Use.frees curproc.pid curproc.alarmTf] }.set i { curproc with mode := .exiting })

/-- `exit` leaves the children to `initproc`. -/
def reparent (i : Fin NPROC) (s : State) : State :=
  { s with procs := fun j => if (s.procs j).parent = some i then { s.procs j with parent := some initproc } else s.procs j }

/-- The rest of `exit`. -/
def close (i : Fin NPROC) (s : State) : State :=
  let s := reparent i s
  s.set i { s.procs i with state := .zombie }

def kill (i : Fin NPROC) (pid : ℕ) (s : State) : State :=
  match (List.finRange NPROC).find? fun j => (s.procs j).pid = pid with
  | none => s.ret i (-1)
  | some j =>
    let p := s.procs j
    (s.set j { p with killed := true, state := if p.state = .sleeping then .runnable else p.state }).ret i 0

def wait (i child : Fin NPROC) (s : State) : State :=
  let p := s.procs child
  if p.parent = some i ∧ p.state = .zombie then
    (s.set child { p with state := .unused, pid := 0, parent := none, killed := false }).ret i (BitVec.ofNat 32 p.pid)
  else s

/-- The state and the mode in which a process makes a call. -/
def Call.ready (p : Slot) : Call → Bool
  | .sched => p.state = .runnable
  | .wakeup => p.state = .sleeping
  | .tick => p.state = .running
  | .user _ _ _ | .syscall | .trap _ => p.state = .running ∧ p.mode = .user
  | .sleep | .yield => p.state = .running ∧ p.mode ≠ .user
  | .close => p.state = .running ∧ p.mode = .exiting
  | _ => p.state = .running ∧ p.mode = .kernel

def perform (im : Image) (i : Fin NPROC) (s : State) : Call → Except Stop State
  | .user tf mem sz => .ok (s.set i { s.procs i with proc := work (s.procs i).proc tf mem sz })
  | .syscall => if (s.procs i).killed then exit im i s else .ok (s.set i { s.procs i with mode := .kernel })
  | .trap fault => .ok (s.set i { s.procs i with mode := .kernel, killed := (s.procs i).killed || fault })
  | .leave => if (s.procs i).killed then exit im i s else .ok (s.set i { s.procs i with mode := .user })
  | .alarm => .ok (s.set i { s.procs i with proc := sysAlarm (s.procs i).proc })
  | .fork kstack copy => .ok (fork i kstack copy s)
  | .exec image => .ok (exec i image s)
  | .exit => exit im i s
  | .kill pid => .ok (kill i pid s)
  | .wait child => .ok (wait i child s)
  | .sleep => .ok (s.set i { s.procs i with state := .sleeping })
  | .close => .ok (close i s)
  | .tick => tick im i s
  | .yield => .ok (s.set i { s.procs i with state := .runnable })
  | .sched => .ok (s.set i { s.procs i with state := .running })
  | .wakeup => .ok (s.set i { s.procs i with state := .runnable })

/-- What the process cannot do where it is does not happen. -/
def step (im : Image) (s : State) : Event → Except Stop State
  | .act i c => if c.ready (s.procs i) then perform im i s c else .ok s
  | .kalloc =>
    match s.freelist with
    | [] => .ok s
    | r :: rest => .ok { s with freelist := rest, others := r :: s.others }
  | .kfree page => if page ∈ s.others then kfree im page { s with others := s.others.erase page } else .ok s
  | .write page tf => if page ∈ s.others then .ok { s with frames := update s.frames page tf } else .ok s

/-- After `userinit`: one process, with no alarm. -/
def boot (p : Proc) (frames : Word → Trapframe) (freelist others : List Word) : State where
  procs i :=
    { state := if i = initproc then .runnable else .unused
      pid := if i = initproc then 1 else 0
      parent := none
      killed := false
      mode := .user
      proc := p.clearAlarm
      alarmTf := 0 }
  nextpid := 2
  frames := frames
  freelist := freelist
  others := others
  log := []

/-! ### What an event does to the pool -/

/-- In `exit`, or a zombie. -/
def Slot.exited (p : Slot) : Bool := p.mode = .exiting ∨ p.state = .zombie

def Slot.party (p : Slot) : Option (ℕ × Bool) := if p.state = .unused then none else some (p.pid, p.exited)

/-- The processes with their pages. -/
def State.pool (s : State) : Pool (Fin NPROC) Word where
  party i := (s.procs i).party
  ptr i := (s.procs i).alarmTf
  next := s.nextpid
  free := s.freelist
  others := s.others
  log := s.log

section

variable {im : Image} {s s' : State} {i : Fin NPROC}

theorem pool_set (s : State) (i : Fin NPROC) (p : Slot) : (s.set i p).pool =
    { s.pool with party := update s.pool.party i p.party, ptr := update s.pool.ptr i p.alarmTf } := by
  have hparty : (fun j => (update s.procs i p j).party) = update (fun j => (s.procs j).party) i p.party :=
    funext (Function.apply_update (fun _ => Slot.party) s.procs i p)
  have hptr : (fun j => (update s.procs i p j).alarmTf) = update (fun j => (s.procs j).alarmTf) i p.alarmTf :=
    funext (Function.apply_update (fun _ => Slot.alarmTf) s.procs i p)
  unfold State.pool State.set
  dsimp only
  rw [hparty, hptr]

/-- A change of a process that the pool does not see. -/
theorem pool_same {p : Slot} (hparty : p.party = (s.procs i).party) (hptr : p.alarmTf = (s.procs i).alarmTf) :
    (s.set i p).pool = s.pool := by
  have hp : update s.pool.party i p.party = s.pool.party := by
    rw [hparty]
    exact Function.update_eq_self i _
  have ha : update s.pool.ptr i p.alarmTf = s.pool.ptr := by
    rw [hptr]
    exact Function.update_eq_self i _
  rw [pool_set, hp, ha]

theorem pool_ret (s : State) (i : Fin NPROC) (v : Word) : (s.ret i v).pool = s.pool := pool_same rfl rfl

/-- A process that runs and is not in `exit`. -/
theorem party_running (hstate : (s.procs i).state = .running) (hmode : (s.procs i).mode ≠ .exiting) :
    s.pool.party i = some ((s.procs i).pid, false) := by
  simp [State.pool, Slot.party, Slot.exited, hstate, hmode]

theorem exit_quiet (hstate : (s.procs i).state = .running) (hmode : (s.procs i).mode ≠ .exiting)
    (h : exit im i s = .ok s') : Quiet 0 s.pool s'.pool := by
  have hparty := party_running hstate hmode
  have hexited : ({ s.procs i with mode := .exiting } : Slot).party = some ((s.procs i).pid, true) := by
    simp [Slot.party, Slot.exited, hstate]
  have hptr : update s.pool.ptr i (s.procs i).alarmTf = s.pool.ptr := Function.update_eq_self i _
  apply Relation.ReflTransGen.single
  unfold exit kfree at h
  dsimp only at h
  split_ifs at h with hinit htf hpage
  · cases h
    rw [pool_set, hexited, hptr]
    exact Step.closes hparty htf
  · cases h
    rw [pool_set, hexited]
    show Step 0 none s.pool
      { s.pool with party := _, ptr := update s.pool.ptr i (s.procs i).alarmTf, free := _, log := _ }
    rw [hptr]
    exact Step.frees hparty htf
  · cases h

theorem reparent_slot (i : Fin NPROC) (s : State) (j : Fin NPROC) : ((reparent i s).procs j).state = (s.procs j).state ∧
    ((reparent i s).procs j).mode = (s.procs j).mode ∧ ((reparent i s).procs j).party = (s.procs j).party ∧
    ((reparent i s).procs j).alarmTf = (s.procs j).alarmTf := by
  unfold reparent
  dsimp only
  split_ifs <;> exact ⟨rfl, rfl, rfl, rfl⟩

theorem close_pool (hstate : (s.procs i).state = .running) (hmode : (s.procs i).mode = .exiting) :
    (close i s).pool = s.pool := by
  have hparent : (reparent i s).pool = s.pool := by
    unfold State.pool
    congr 1
    · exact funext fun j => (reparent_slot i s j).2.2.1
    · exact funext fun j => (reparent_slot i s j).2.2.2
  obtain ⟨hstate', hmode', -, -⟩ := reparent_slot i s i
  rw [hstate] at hstate'
  rw [hmode] at hmode'
  have hparty : ({ (reparent i s).procs i with state := .zombie } : Slot).party = ((reparent i s).procs i).party := by
    simp [Slot.party, Slot.exited, hstate', hmode']
  exact (pool_same hparty rfl).trans hparent

theorem kill_pool (i : Fin NPROC) (pid : ℕ) (s : State) : (kill i pid s).pool = s.pool := by
  unfold kill
  split
  · exact pool_ret s i _
  · rw [pool_ret]
    refine pool_same ?_ rfl
    dsimp only [Slot.party, Slot.exited]
    split_ifs with hsleep h1 h2 h2 <;> simp_all

theorem wait_quiet (i child : Fin NPROC) (s : State) : Quiet 0 s.pool (wait i child s).pool := by
  unfold wait
  dsimp only
  split_ifs with hchild
  · have hparty : s.pool.party child = some ((s.procs child).pid, true) := by
      simp [State.pool, Slot.party, Slot.exited, hchild.2]
    have hptr : update s.pool.ptr child (s.procs child).alarmTf = s.pool.ptr := Function.update_eq_self child _
    rw [pool_ret, pool_set]
    dsimp only
    rw [hptr]
    exact Relation.ReflTransGen.single (Step.leaves hparty)
  · exact Relation.ReflTransGen.refl

theorem allocproc_none {kstack : Bool} (h : allocproc kstack s = (s', none)) : Quiet 0 s.pool s'.pool := by
  unfold allocproc at h
  split at h
  · cases h
    exact Relation.ReflTransGen.refl
  · next j hfind =>
    have hj : s.pool.party j = none := if_pos (by simpa using List.find?_some hfind)
    have hleft : update s.pool.party j none = s.pool.party := by
      rw [← hj]
      exact Function.update_eq_self j _
    split_ifs at h
    · cases h
    · cases h
      apply Relation.ReflTransGen.single
      rw [pool_set]
      show Step 0 none s.pool { s.pool with party := update s.pool.party j none, ptr := _, next := _ }
      rw [hleft]
      exact Step.skip hj

/-- The entry that `allocproc` finds, as its caller leaves it. -/
theorem allocproc_some {kstack : Bool} {j : Fin NPROC} (h : allocproc kstack s = (s', some j)) :
    s.pool.party j = none ∧ (s'.procs j).pid = s.nextpid ∧ (s'.procs j).mode = .user ∧ (s'.procs j).alarmTf = 0 ∧
    ∀ p, (s'.set j p).pool = { s.pool with party := update s.pool.party j p.party, ptr := update s.pool.ptr j p.alarmTf,
                                           next := s.nextpid + 1 } := by
  unfold allocproc at h
  split at h
  · cases h
  · next j' hfind =>
    have hj : s.pool.party j' = none := if_pos (by simpa using List.find?_some hfind)
    split_ifs at h
    · cases h
      refine ⟨hj, ?_, ?_, ?_, fun p => ?_⟩
      · simp [State.set]
      · simp [State.set]
      · simp [State.set]
      · rw [pool_set, pool_set]
        dsimp only
        rw [Function.update_idem, Function.update_idem]
        rfl
    · cases h

/-- `fork` takes a place, or takes it and leaves it. -/
theorem fork_quiet (i : Fin NPROC) (kstack copy : Bool) (s : State) : Quiet 0 s.pool (fork i kstack copy s).pool := by
  unfold fork
  split
  · next s' halloc =>
    rw [pool_ret]
    exact allocproc_none halloc
  · next s' j halloc =>
    obtain ⟨hj, hpid, hmode, htf, hset⟩ := allocproc_some halloc
    apply Relation.ReflTransGen.single
    dsimp only
    split_ifs
    · have hparty : ∀ q : Proc, ({ s'.procs j with state := .runnable, parent := some i, proc := q,
                                                   alarmTf := 0 } : Slot).party = some (s.nextpid, false) := fun q => by
        simp [Slot.party, Slot.exited, hpid, hmode]
      rw [pool_ret, hset, hparty]
      exact Step.enter hj
    · have hleft : update s.pool.party j none = s.pool.party := by
        rw [← hj]
        exact Function.update_eq_self j _
      rw [pool_ret, hset]
      show Step 0 none s.pool
        { s.pool with party := update s.pool.party j none, ptr := update s.pool.ptr j (s'.procs j).alarmTf, next := _ }
      rw [hleft, htf]
      exact Step.skip hj

end

/-! ### Ticks -/

/-- The tick delivers the alarm, and the kernel can store below the user's stack pointer. -/
def State.Pushes (im : Image) (s : State) (i : Fin NPROC) : Prop :=
  (s.procs i).state = .running ∧ Delivers (s.cs i) s.page (s.view i) ∧
    Storable im.toKernel (s.procs i).proc.sz ((s.procs i).proc.tf.esp - 4)

instance (im : Image) (s : State) (i : Fin NPROC) : Decidable (s.Pushes im i) := inferInstanceAs (Decidable (_ ∧ _ ∧ _))

/-- The process that the event is a tick of. -/
def Event.ticks : Event → Option (Fin NPROC)
  | .act i .tick => some i
  | _ => none

/-- The four bytes at `a` are below the kernel. -/
def Below (a : Word) : Prop := ∀ b ∈ bytes a, b.toNat < KERNBASE

instance (a : Word) : Decidable (Below a) := List.decidableBAll _ _

/-- A delivery stores below the kernel. -/
def Contained (im : Image) (s : State) (e : Event) : Prop :=
  ∀ i ∈ e.ticks, s.Pushes im i → Below ((s.procs i).proc.tf.esp - 4)

/-- No process of another slot, live or not, still points to the page that a tick obtains. -/
def Fresh (im : Image) (s : State) (e : Event) : Prop :=
  ∀ i ∈ e.ticks, s.Pushes im i → (s.procs i).alarmTf = 0 → ∀ j, j ≠ i → (s.procs j).state ≠ .unused →
    s.freelist.head? ≠ some (s.procs j).alarmTf

instance (im : Image) (s : State) : DecidablePred (Contained im s) := fun e =>
  inferInstanceAs (Decidable (∀ i ∈ e.ticks, s.Pushes im i → Below ((s.procs i).proc.tf.esp - 4)))

instance (im : Image) (s : State) : DecidablePred (Fresh im s) := fun e =>
  inferInstanceAs (Decidable (∀ i ∈ e.ticks, s.Pushes im i → (s.procs i).alarmTf = 0 → ∀ j, j ≠ i →
    (s.procs j).state ≠ .unused → s.freelist.head? ≠ some (s.procs j).alarmTf))

/-- Only a tick obtains a page. -/
theorem fresh_of_ticks {im : Image} {s : State} {e : Event} (h : e.ticks = none) : Fresh im s e := fun i hi => by
  rw [h] at hi
  cases hi

theorem ticks_act {i : Fin NPROC} {c : Call} (hc : c ≠ .tick) : (Event.act i c).ticks = none := by
  cases c with
  | tick => exact absurd rfl hc
  | _ => rfl

section

variable {im : Image} {s s' : State} {i : Fin NPROC}

/-- Ticks in the kernel do not count as the user's. -/
theorem user_of_usermode (h : usermode (s.cs i)) : (s.procs i).mode = .user := by
  by_contra hmode
  unfold State.cs at h
  rw [if_neg hmode] at h
  exact absurd h (by decide)

/-- A tick that does not deliver. -/
theorem tick_not (hstate : (s.procs i).state = .running) (hn : ¬ s.Pushes im i) (h : tick im i s = .ok s') :
    ∃ r, s' = s.trapped i r ∧ r.delivered = false := by
  unfold tick at h
  rcases trapTimer_cases im.toKernel (s.cs i) s.page (s.view i) with ⟨-, n, hok, -⟩ | ⟨hd, a, -, hok⟩
  · rw [hok] at h
    cases h
    exact ⟨_, rfl, rfl⟩
  · have hno : ¬ Storable im.toKernel (s.view i).sz ((s.view i).tf.esp - 4) := fun hs => hn ⟨hstate, hd, hs⟩
    unfold kstore at hok
    rw [if_neg hno] at hok
    rw [hok] at h
    cases h

/-- A tick that delivers below the kernel saves the frame in the process's page, or in the first free one. -/
theorem tick_pushes (hpush : s.Pushes im i) (hbelow : Below ((s.procs i).proc.tf.esp - 4)) :
    ∃ r f, tick im i s = .ok (s.trapped i r) ∧ r.delivered = true ∧ r.proc.alarmTf = some f ∧
      ((s.view i).alarmTf.map Frame.page).or s.page = some f.page := by
  obtain ⟨hstate, hd, hstore⟩ := hpush
  rcases trapTimer_cases im.toKernel (s.cs i) s.page (s.view i) with ⟨hn, -⟩ | ⟨-, a, -, hok⟩
  · exact absurd hd hn
  · have hview : Storable im.toKernel (s.view i).sz ((s.view i).tf.esp - 4) := hstore
    unfold kstore at hok
    rw [if_pos hview] at hok
    obtain ⟨f, hf, hpage, -⟩ := trapTimer_saved hok hd
    refine ⟨_, f, ?_, rfl, hf, hpage⟩
    unfold tick
    rw [hok]
    exact if_pos (List.all_eq_true.mpr fun b hb => decide_eq_true (hbelow b hb))

/-- Neither way does `trap` change whether the process is in `exit`. -/
theorem party_trapped (p : Slot) (q : Proc) (a : Word) :
    ({ p with mode := if p.mode = .user then .kernel else p.mode, proc := q, alarmTf := a } : Slot).party = p.party := by
  unfold Slot.party Slot.exited
  cases hmode : p.mode <;> simp

theorem trapped_not {r : Trapped} (h : r.delivered = false) :
    (s.trapped i r).pool = { s.pool with log := s.log ++ s.reads i } := by
  have hpool := pool_same (s := s) (i := i) (party_trapped (s.procs i) { r.proc with alarmTf := none } _) rfl
  unfold State.trapped
  rw [h]
  exact congrArg (fun p => { p with log := s.log ++ s.reads i }) hpool

/-- A later delivery saves the frame in the page that the process has. -/
theorem trapped_again {r : Trapped} {f : Frame} (h : r.delivered = true) (hf : r.proc.alarmTf = some f)
    (htf : (s.procs i).alarmTf ≠ 0) (ha : BitVec.ofNat 32 f.page = (s.procs i).alarmTf) :
    (s.trapped i r).pool = { s.pool with log := s.log ++ s.reads i ++ [.uses (s.procs i).pid (s.procs i).alarmTf] } := by
  have hpool := pool_same (s := s) (i := i) (party_trapped (s.procs i) { r.proc with alarmTf := none } _) rfl
  unfold State.trapped
  rw [h, hf]
  dsimp only
  rw [if_neg htf, if_neg htf, List.append_nil, ha]
  exact congrArg (fun p => { p with log := s.log ++ s.reads i ++ [Use.uses (s.procs i).pid (s.procs i).alarmTf] }) hpool

theorem trapped_first {r : Trapped} {f : Frame} (h : r.delivered = true) (hf : r.proc.alarmTf = some f)
    (htf : (s.procs i).alarmTf = 0) {a : Word} (ha : BitVec.ofNat 32 f.page = a) :
    (s.trapped i r).pool = { s.pool with
      ptr := update s.pool.ptr i a
      free := s.freelist.tail
      log := s.log ++ s.reads i ++ [.obtains (s.procs i).pid a] ++ [.uses (s.procs i).pid a] } := by
  have hparty := party_trapped (s.procs i) { r.proc with alarmTf := none } a
  have hself : update s.pool.party i (s.procs i).party = s.pool.party := Function.update_eq_self i _
  have hset := pool_set s i { s.procs i with
    mode := if (s.procs i).mode = .user then .kernel else (s.procs i).mode
    proc := { r.proc with alarmTf := none }
    alarmTf := a }
  rw [hparty, hself] at hset
  unfold State.trapped
  rw [h, hf]
  dsimp only
  rw [if_pos htf, if_pos htf, ha]
  exact congrArg (fun p => { p with
    free := s.freelist.tail
    log := s.log ++ s.reads i ++ [Use.obtains (s.procs i).pid a] ++ [Use.uses (s.procs i).pid a] }) hset

/-- What the test for the handler's end does with the page. -/
theorem reads_quiet (hstate : (s.procs i).state = .running) :
    Quiet 0 s.pool { s.pool with log := s.log ++ s.reads i } := by
  unfold State.reads
  dsimp only
  split_ifs with hreads
  · have hmode : (s.procs i).mode ≠ .exiting := by
      rw [user_of_usermode hreads.2.1]
      decide
    exact Relation.ReflTransGen.single (Step.uses (party_running hstate hmode) hreads.2.2)
  · rw [List.append_nil]
    exact Relation.ReflTransGen.refl

/-- The tick obtains the page `r` for the process. -/
structure Obtains (im : Image) (s : State) (i : Fin NPROC) (r : Word) (s' : State) : Prop where
  pushes : s.Pushes im i
  null : (s.procs i).alarmTf = 0
  first : s.freelist.head? = some r
  pool : s'.pool = { s.pool with
    ptr := update s.pool.ptr i r
    free := s.freelist.tail
    log := s.log ++ [.obtains (s.procs i).pid r] ++ [.uses (s.procs i).pid r] }

theorem tick_pool (hstate : (s.procs i).state = .running) (hcont : Contained im s (.act i .tick))
    (h : tick im i s = .ok s') : (Quiet 0 s.pool s'.pool ∧ Fresh im s (.act i .tick)) ∨ ∃ r, Obtains im s i r s' := by
  by_cases hpush : s.Pushes im i
  · obtain ⟨r, f, hok, hdel, hf, hpage⟩ := tick_pushes hpush (hcont i rfl hpush)
    cases hok.symm.trans h
    have hmode : (s.procs i).mode = .user := user_of_usermode hpush.2.1.1.1
    have hparty := party_running hstate (by rw [hmode]; decide)
    unfold State.view at hpage
    dsimp only at hpage
    by_cases htf : (s.procs i).alarmTf = 0
    · right
      rw [if_pos htf] at hpage
      obtain ⟨a, ha, hfa⟩ := Option.map_eq_some_iff.mp hpage
      have hreads : s.reads i = [] := if_neg fun hr => hr.2.2 htf
      have hpool := trapped_first hdel hf htf (a := a) (by rw [← hfa, BitVec.ofNat_toNat, BitVec.setWidth_eq])
      rw [hreads, List.append_nil] at hpool
      exact ⟨a, hpush, htf, ha, hpool⟩
    · left
      rw [if_neg htf] at hpage
      have ha : BitVec.ofNat 32 f.page = (s.procs i).alarmTf := by
        rw [← Option.some.inj hpage, BitVec.ofNat_toNat, BitVec.setWidth_eq]
      rw [trapped_again hdel hf htf ha]
      refine ⟨Relation.ReflTransGen.tail (reads_quiet hstate) (Step.uses hparty htf), fun j hj _ hnull => ?_⟩
      cases hj
      exact absurd hnull htf
  · left
    obtain ⟨r, rfl, hdel⟩ := tick_not hstate hpush h
    rw [trapped_not hdel]
    refine ⟨reads_quiet hstate, fun j hj hp => ?_⟩
    cases hj
    exact absurd hp hpush

end

/-! ### Runs -/

/-- The slot is that of the process `pid`, which has not exited. -/
def Slot.Lives (p : Slot) (pid : ℕ) : Prop := p.state ≠ .unused ∧ p.exited = false ∧ p.pid = pid

instance (p : Slot) (pid : ℕ) : Decidable (p.Lives pid) := inferInstanceAs (Decidable (_ ∧ _ ∧ _))

/-- Each page was obtained when no process had it, and used and given back by the process that had it; those that
have one now are the live processes that point to theirs. So a page was given back as often as it was obtained, but for
the process that has it now. -/
def Sound (s : State) : Prop :=
  ∃ L : Ledger ℕ Word, replay s.log = some L ∧
    (∀ page pid, L page = some pid ↔ page ≠ 0 ∧ ∃ i, (s.procs i).Lives pid ∧ (s.procs i).alarmTf = page) ∧
    ∀ page, s.log.countP (Use.isObtains page) = s.log.countP (Use.isFrees page) + if (L page).isSome then 1 else 0

/-- No other process, live or not, points to the page of a live one. -/
def Exact (s : State) : Prop :=
  ∀ i, (s.procs i).Lives (s.procs i).pid → (s.procs i).alarmTf ≠ 0 →
    ∀ j, (s.procs j).state ≠ .unused → (s.procs j).alarmTf = (s.procs i).alarmTf → j = i

instance (s : State) : Decidable (Exact s) :=
  inferInstanceAs (Decidable (∀ i, (s.procs i).Lives (s.procs i).pid → (s.procs i).alarmTf ≠ 0 →
    ∀ j, (s.procs j).state ≠ .unused → (s.procs j).alarmTf = (s.procs i).alarmTf → j = i))

/-- The event leads to a state of `I`, if it does not stop the run. -/
def Keeps (im : Image) (I : State → Prop) (s : State) (e : Event) : Prop := Sat I (fun _ => True) (step im s e)

instance (im : Image) (I : State → Prop) [DecidablePred I] (s : State) (e : Event) : Decidable (Keeps im I s e) :=
  inferInstanceAs (Decidable (Sat I (fun _ => True) (step im s e)))

section

variable {im : Image} {s s' : State} {e : Event}

theorem quiet_same {i : Fin NPROC} {p : Slot} (hparty : p.party = (s.procs i).party) (hptr : p.alarmTf = (s.procs i).alarmTf) :
    Quiet 0 s.pool (s.set i p).pool := by
  rw [pool_same hparty hptr]

/-- A process that runs or is going to, before and after, in `exit` or not. -/
theorem party_moves {p q : Slot} (hpid : p.pid = q.pid) (hp : p.state = .running ∨ p.state = .runnable ∨ p.state = .sleeping)
    (hq : q.state = .running ∨ q.state = .runnable ∨ q.state = .sleeping) (hmode : p.mode = .exiting ↔ q.mode = .exiting) :
    p.party = q.party := by
  unfold Slot.party Slot.exited
  rcases hp with hp | hp | hp <;> rcases hq with hq | hq | hq <;> simp [hp, hq, hpid, hmode]

theorem perform_quiet {i : Fin NPROC} {c : Call} (hc : c ≠ .tick) (hready : c.ready (s.procs i) = true)
    (h : perform im i s c = .ok s') : Quiet 0 s.pool s'.pool := by
  cases c with
  | user tf mem sz =>
    cases h
    exact quiet_same rfl rfl
  | syscall | leave =>
    obtain ⟨hstate, hmode⟩ := of_decide_eq_true hready
    unfold perform at h
    split_ifs at h
    · exact exit_quiet hstate (by rw [hmode]; decide) h
    · cases h
      exact quiet_same (party_moves rfl (Or.inl hstate) (Or.inl hstate) (by simp [hmode])) rfl
  | trap fault =>
    obtain ⟨hstate, hmode⟩ := of_decide_eq_true hready
    cases h
    exact quiet_same (party_moves rfl (Or.inl hstate) (Or.inl hstate) (by simp [hmode])) rfl
  | alarm =>
    cases h
    exact quiet_same rfl rfl
  | fork kstack copy =>
    cases h
    exact fork_quiet i kstack copy s
  | exec image =>
    cases h
    cases image with
    | none => exact quiet_same rfl rfl
    | some img => exact quiet_same rfl rfl
  | exit =>
    obtain ⟨hstate, hmode⟩ := of_decide_eq_true hready
    exact exit_quiet hstate (by rw [hmode]; decide) h
  | kill pid =>
    cases h
    rw [kill_pool]
  | wait child =>
    cases h
    exact wait_quiet i child s
  | sleep =>
    obtain ⟨hstate, -⟩ := of_decide_eq_true hready
    cases h
    exact quiet_same (party_moves rfl (Or.inr (Or.inr rfl)) (Or.inl hstate) Iff.rfl) rfl
  | close =>
    obtain ⟨hstate, hmode⟩ := of_decide_eq_true hready
    cases h
    rw [close_pool hstate hmode]
  | tick => exact absurd rfl hc
  | yield =>
    obtain ⟨hstate, -⟩ := of_decide_eq_true hready
    cases h
    exact quiet_same (party_moves rfl (Or.inr (Or.inl rfl)) (Or.inl hstate) Iff.rfl) rfl
  | sched =>
    have hstate := of_decide_eq_true hready
    cases h
    exact quiet_same (party_moves rfl (Or.inl rfl) (Or.inr (Or.inl hstate)) Iff.rfl) rfl
  | wakeup =>
    have hstate := of_decide_eq_true hready
    cases h
    exact quiet_same (party_moves rfl (Or.inr (Or.inl rfl)) (Or.inr (Or.inr hstate)) Iff.rfl) rfl

/-- **What an event does to the pages.** -/
theorem step_pool (hcont : Contained im s e) (h : step im s e = .ok s') :
    (Quiet 0 s.pool s'.pool ∧ Fresh im s e) ∨ ∃ i r, e = .act i .tick ∧ Obtains im s i r s' := by
  cases e with
  | act i c =>
    unfold step at h
    dsimp only at h
    split_ifs at h with hready
    · by_cases hc : c = .tick
      · rw [hc] at hcont hready h ⊢
        have hstate : (s.procs i).state = .running := of_decide_eq_true hready
        rcases tick_pool hstate hcont h with hquiet | ⟨r, hr⟩
        · exact Or.inl hquiet
        · exact Or.inr ⟨i, r, rfl, hr⟩
      · exact Or.inl ⟨perform_quiet hc hready h, fresh_of_ticks (ticks_act hc)⟩
    · cases h
      refine Or.inl ⟨Relation.ReflTransGen.refl, ?_⟩
      by_cases hc : c = .tick
      · rw [hc] at hready ⊢
        intro j hj hp
        cases hj
        exact absurd (decide_eq_true hp.1) hready
      · exact fresh_of_ticks (ticks_act hc)
  | kalloc =>
    refine Or.inl ⟨?_, fresh_of_ticks rfl⟩
    unfold step at h
    dsimp only at h
    split at h
    · cases h
      exact Relation.ReflTransGen.refl
    · next r rest hfree =>
      cases h
      exact Relation.ReflTransGen.single (Step.take hfree)
  | kfree page =>
    refine Or.inl ⟨?_, fresh_of_ticks rfl⟩
    unfold step kfree at h
    dsimp only at h
    split_ifs at h with hmem hpage
    · cases h
      exact Relation.ReflTransGen.single (Step.give hmem)
    · cases h
      exact Relation.ReflTransGen.refl
  | write page tf =>
    refine Or.inl ⟨?_, fresh_of_ticks rfl⟩
    unfold step at h
    dsimp only at h
    split_ifs at h
    · cases h
      exact Relation.ReflTransGen.refl
    · cases h
      exact Relation.ReflTransGen.refl

theorem null_not_page (im : Image) : ¬ im.IsPage 0 := by
  intro h
  have hroom := im.room
  have hlast := h.2.1
  have hzero : (0 : Word).toNat = 0 := rfl
  have hslots : NPROC = 64 := rfl
  omega

/-- What the protocol keeps. -/
def State.Kept (im : Image) (s : State) : Prop := ∃ L, Inv 0 im.IsPage s.pool L

theorem Obtains.party {i : Fin NPROC} {r : Word} (h : Obtains im s i r s') :
    s.pool.party i = some ((s.procs i).pid, false) := by
  apply party_running h.pushes.1
  rw [user_of_usermode h.pushes.2.1.1.1]
  decide

theorem Obtains.free {i : Fin NPROC} {r : Word} (h : Obtains im s i r s') : s.pool.free = r :: s.freelist.tail :=
  List.eq_cons_of_mem_head? h.first

theorem Obtains.ne_null {i : Fin NPROC} {r : Word} {L : Ledger ℕ Word} (h : Obtains im s i r s')
    (hinv : Inv 0 im.IsPage s.pool L) : r ≠ 0 := by
  have hpage : im.IsPage r := by
    apply hinv.valid
    rw [h.free]
    exact List.mem_cons_self
  exact fun hn => null_not_page im (hn ▸ hpage)

theorem step_kept (hkept : s.Kept im) (hcont : Contained im s e) (h : step im s e = .ok s') : s'.Kept im := by
  obtain ⟨L, hinv⟩ := hkept
  rcases step_pool hcont h with ⟨hquiet, -⟩ | ⟨i, r, -, hr⟩
  · exact hquiet.inv (null_not_page im) hinv
  · have hgot := hinv.obtains (null_not_page im) hr.party hr.null hr.free
    have hne : update s.pool.ptr i r i ≠ 0 := by
      rw [Function.update_self]
      exact hr.ne_null hinv
    have hused := hgot.uses hr.party hne
    dsimp only at hused
    rw [Function.update_self] at hused
    exact ⟨update L r (some (s.procs i).pid), hr.pool ▸ hused⟩

theorem party_ne_none (j : Fin NPROC) : s.pool.party j ≠ none ↔ (s.procs j).state ≠ .unused := by
  simp [State.pool, Slot.party]

theorem step_alone (hkept : s.Kept im) (halone : Alone 0 s.pool) (hcont : Contained im s e) (h : step im s e = .ok s') :
    Alone 0 s'.pool ↔ Fresh im s e := by
  obtain ⟨L, hinv⟩ := hkept
  rcases step_pool hcont h with ⟨hquiet, hfresh⟩ | ⟨i, r, rfl, hr⟩
  · exact iff_of_true (hquiet.alone halone) hfresh
  · rw [halone.obtains_iff (hr.ne_null hinv) hr.party (by rw [hr.pool]) (by rw [hr.pool])]
    constructor
    · intro hnone k hk _ _ j hj hstate heq
      cases hk
      rw [hr.first] at heq
      exact hnone j hj ((party_ne_none j).mpr hstate) (Option.some.inj heq).symm
    · intro hfresh j hj hstate heq
      apply hfresh i rfl hr.pushes hr.null j hj ((party_ne_none j).mp hstate)
      rw [hr.first]
      exact congrArg some heq.symm

theorem party_lives {i : Fin NPROC} {pid : ℕ} : s.pool.party i = some (pid, false) ↔ (s.procs i).Lives pid := by
  unfold State.pool Slot.party Slot.Lives
  dsimp only
  split_ifs with hstate
  · simp [hstate]
  · simp [hstate, and_comm]

theorem kept_sound (h : s.Kept im) : Sound s := by
  obtain ⟨L, hinv⟩ := h
  refine ⟨L, hinv.replayed, fun page pid => ?_, fun page => balance page s.log hinv.replayed⟩
  rw [hinv.owner]
  simp only [party_lives]
  exact Iff.rfl

theorem exact_iff (s : State) : Exact s ↔ Alone 0 s.pool := by
  constructor
  · intro h i n hi hne j hj heq
    have hlives := party_lives.mp hi
    rw [← hlives.2.2] at hlives
    exact h i hlives hne j ((party_ne_none j).mp hj) heq
  · intro h i hlives hne j hj heq
    exact h i _ (party_lives.mpr hlives) hne j ((party_ne_none j).mpr hj) heq

theorem boot_kept (im : Image) (p : Proc) (frames : Word → Trapframe) {freelist others : List Word}
    (hnodup : (freelist ++ others).Nodup) (hpages : ∀ v ∈ freelist ++ others, im.IsPage v) :
    (boot p frames freelist others).Kept im := by
  have hfirst : ∀ {i n b}, (boot p frames freelist others).pool.party i = some (n, b) → i = initproc ∧ n = 1 :=
    fun {i n b} hi => by
      by_cases hinit : i = initproc
      · simp [boot, State.pool, Slot.party, hinit] at hi
        exact ⟨hinit, hi.1.symm⟩
      · simp [boot, State.pool, Slot.party, hinit] at hi
  refine ⟨fun _ => none, rfl, fun r n => ?_, fun i j n b c hi hj => ?_, fun i n b hi => ?_, hnodup, hpages, fun r n h => ?_⟩
  · refine iff_of_false (fun h => Option.some_ne_none n h.symm) ?_
    rintro ⟨hr, i, -, hptr⟩
    exact hr hptr.symm
  · rw [(hfirst hi).1, (hfirst hj).1]
  · rw [(hfirst hi).2]
    exact Nat.lt_succ_self 1
  · exact absurd h.symm (Option.some_ne_none n)

theorem boot_alone (p : Proc) (frames : Word → Trapframe) (freelist others : List Word) :
    Alone 0 (boot p frames freelist others).pool := fun _ _ _ hne _ _ _ => absurd rfl hne

end

/-- A tick that delivers below the kernel does not stop the run. -/
theorem fresh_of_stop {im : Image} {s : State} {e : Event} {x : Stop} (hcont : Contained im s e)
    (h : step im s e = .error x) : Fresh im s e := by
  cases e with
  | act i c =>
    by_cases hc : c = .tick
    · rw [hc] at hcont h ⊢
      intro j hj hpush
      cases hj
      obtain ⟨r, f, hok, -⟩ := tick_pushes hpush (hcont i rfl hpush)
      have hready : Call.tick.ready (s.procs i) = true := decide_eq_true hpush.1
      have hstep : step im s (.act i .tick) = tick im i s := if_pos hready
      rw [hstep, hok] at h
      cases h
    · exact fresh_of_ticks (ticks_act hc)
  | _ => exact fresh_of_ticks rfl

/-- **The pages of `alarm_tf`.** In every run in which no delivery stores into the kernel, each page is obtained, used and
given back by one process at a time, and given back in its `exit`; and it is pointed to by that process only, exactly if
no tick obtains a page to which the `alarm_tf` of an exited process still points. -/
theorem alarm_pages (im : Image) (p : Proc) (frames : Word → Trapframe) {freelist others : List Word}
    (hnodup : (freelist ++ others).Nodup) (hpages : ∀ v ∈ freelist ++ others, im.IsPage v) (es : List Event)
    (hes : Along (step im) (Contained im) (boot p frames freelist others) es) :
    Along (step im) (Keeps im Sound) (boot p frames freelist others) es ∧
    (Along (step im) (Keeps im Exact) (boot p frames freelist others) es ↔
      Along (step im) (Fresh im) (boot p frames freelist others) es) := by
  have hkept := boot_kept im p frames hnodup hpages
  have hinv : ∀ s e, s.Kept im → Contained im s e →
      Keeps im Sound s e ∧ Sat (State.Kept im) (fun _ => True) (step im s e) := by
    intro s e hs hcont
    unfold Keeps
    cases hstep : step im s e with
    | ok s' =>
      have hs' := step_kept hs hcont hstep
      exact ⟨kept_sound hs', hs'⟩
    | error x => exact ⟨trivial, trivial⟩
  refine ⟨along_inv hinv es hkept hes, ?_⟩
  apply along_iff (I := fun s => s.Kept im ∧ Alone 0 s.pool) _ _ es ⟨hkept, boot_alone p frames freelist others⟩ hes
  · rintro s e s' ⟨hs, -⟩ hcont hexact hstep
    unfold Keeps at hexact
    rw [hstep] at hexact
    exact ⟨step_kept hs hcont hstep, (exact_iff s').mp hexact⟩
  · rintro s e ⟨hs, halone⟩ hcont
    unfold Keeps
    cases hstep : step im s e with
    | ok s' => exact (exact_iff s').trans (step_alone hs halone hcont hstep)
    | error x => exact iff_of_true trivial (fresh_of_stop hcont hstep)

def someImage : Image := { someKernel with procs := 0x80200100, last := 0x80210000, table := by decide, room := by decide }

def somePages : List Word := [0x80300000, 0x80301000]

def start : State := boot (armed 0x2000) (fun _ => junk 0) somePages []

/-- The process at `i` makes calls. -/
def calls (i : Fin NPROC) (cs : List Call) : List Event := cs.map (.act i)

/-- `init` forks twice. -/
def twoChildren : List Event :=
  calls initproc [.sched, .syscall, .fork true true, .leave, .syscall, .fork true true, .leave]

/-- A child calls `alarm(1, 0x40)` and computes with the stack pointer `esp` until the tick. -/
def untilTick (i : Fin NPROC) (esp : Word) : List Event :=
  calls i [.sched,
    .user (armed 0x1f00).tf (fun a => if a = 0x1f04 then 1 else if a = 0x1f08 then 0x40 else 0) (armed 0x1f00).sz,
    .syscall, .alarm, .leave, .user (armed esp).tf (fun _ => 0) (armed esp).sz, .tick]

theorem somePages_are_pages : ∀ v ∈ somePages ++ [], someImage.IsPage v := by
  intro v hv
  simp only [somePages, List.append_nil, List.mem_cons, List.not_mem_nil, or_false] at hv
  rcases hv with rfl | rfl <;> decide +kernel

/-- The first child exits and is waited for, and then the second one obtains the page. -/
def inTurn (i j : Fin NPROC) : List Event :=
  twoChildren ++ untilTick i 0x1f00 ++ calls i [.leave, .syscall, .exit, .tick, .close] ++
    calls initproc [.syscall, .wait i, .leave] ++ untilTick j 0x1f00

theorem alarm_pages_in_turn : Along (step someImage) (Keeps someImage Sound) start (inTurn 1 2) ∧
    Along (step someImage) (Keeps someImage Exact) start (inTurn 1 2) := by
  have h := @alarm_pages someImage (armed 0x2000) (fun _ => junk 0) somePages [] (by decide +kernel) somePages_are_pages
    (inTurn 1 2) (by decide +kernel)
  exact ⟨h.1, h.2.mpr (by decide +kernel)⟩

/-- The first child still sleeps in `begin_op` then. -/
def whileClosing (i j : Fin NPROC) : List Event :=
  twoChildren ++ untilTick i 0x1f00 ++ calls i [.leave, .syscall, .exit, .sleep] ++ untilTick j 0x1f00

/-- The page that the second child obtains is the one to which the first one still points. And after the tick of a child
that has its stack pointer behind its own `alarm_tf`, no process points to the page that it has obtained. -/
theorem stale_alarm_tf :
    ¬ Along (step someImage) (Keeps someImage Exact) start (whileClosing 1 2) ∧
    (run (step someImage) start (twoChildren ++ untilTick 1 0x80200220)).map
      (fun s => (s.log, (List.finRange NPROC).filter fun i => (s.procs i).alarmTf = 0x80300000)) =
      .ok ([.obtains 2 0x80300000, .uses 2 0x80300000], []) := by
  decide +kernel

end Pages
end Alarm
end OsLabs
