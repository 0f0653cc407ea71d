/-
# Who runs where

In every run a processor on the stack of a process is the only one there, and a process runs on a processor if it is `RUNNING`. What is left of a
process that leaves its processor is under the lock: the scheduler of another one does not find it before the switch.

Key definitions: `Cpus`, `Tasks`.
Key theorem: `Cpus.micro`.
-/
import OsLabs.Xv6.Ptable

namespace OsLabs
namespace Xv6
namespace Ptable

open Function (update)
open Alarm (NPROC ProcState initproc)

variable {ι : Type} [DecidableEq ι] {s s' : State ι}

omit [DecidableEq ι] in
theorem set_procs (s : State ι) (p : Fin NPROC) (x : Slot) (q : Fin NPROC) :
    (s.set p x).procs q = if q = p then x else s.procs q := Function.update_apply ..

omit [DecidableEq ι] in
theorem clear_procs (s : State ι) (p q : Fin NPROC) :
    (clear s p).procs q = if q = p then { s.procs p with chan := none } else s.procs q := Function.update_apply ..

theorem sched_procs (s : State ι) (c : ι) (p : Fin NPROC) (x : Slot) (q : Fin NPROC) :
    (sched s c p x).procs q = if q = p then x else s.procs q := Function.update_apply ..

theorem sched_cpu (s : State ι) (c d : ι) (p : Fin NPROC) (x : Slot) :
    (sched s c p x).cpu d = if d = c then .leave p else s.cpu d := Function.update_apply ..

theorem sched_lock (s : State ι) (c : ι) (p : Fin NPROC) (x : Slot) : (sched s c p x).lock = s.lock := rfl

theorem adopt_kstack (p : Fin NPROC) (procs : Fin NPROC → Slot) (q : Fin NPROC) :
    (adopt p procs q).kstack = (procs q).kstack := by
  unfold adopt
  split_ifs <;> rfl

theorem adopt_cont (p : Fin NPROC) (procs : Fin NPROC → Slot) (q : Fin NPROC) : (adopt p procs q).cont = (procs q).cont := by
  unfold adopt
  split_ifs <;> rfl

theorem wakeup1_state (chan : Chan) (procs : Fin NPROC → Slot) (p : Fin NPROC) :
    (wakeup1 chan procs p).state = (procs p).state ∨ ((procs p).state = .sleeping ∧ (wakeup1 chan procs p).state = .runnable) := by
  unfold wakeup1
  split_ifs with h
  · exact .inr ⟨h.1, rfl⟩
  · exact .inl rfl

theorem wakeup1_same (chan : Chan) (procs : Fin NPROC → Slot) (p : Fin NPROC) :
    (wakeup1 chan procs p).kstack = (procs p).kstack ∧ (wakeup1 chan procs p).cont = (procs p).cont := by
  unfold wakeup1
  split_ifs <;> exact ⟨rfl, rfl⟩

theorem wakeup1_killed (chan : Chan) (procs : Fin NPROC → Slot) (p : Fin NPROC) :
    (wakeup1 chan procs p).killed = (procs p).killed := by
  unfold wakeup1
  split_ifs <;> rfl

theorem wakeup1_pid (chan : Chan) (procs : Fin NPROC → Slot) (p : Fin NPROC) : (wakeup1 chan procs p).pid = (procs p).pid := by
  unfold wakeup1
  split_ifs <;> rfl

theorem adopt_pid (p : Fin NPROC) (procs : Fin NPROC → Slot) (q : Fin NPROC) : (adopt p procs q).pid = (procs q).pid := by
  unfold adopt
  split_ifs <;> rfl

theorem adopt_killed (p : Fin NPROC) (procs : Fin NPROC → Slot) (q : Fin NPROC) :
    (adopt p procs q).killed = (procs q).killed := by
  unfold adopt
  split_ifs <;> rfl

/-- The child of a `fork` that is going on. -/
def Task.child : Task → Option (Fin NPROC)
  | .none => Option.none
  | .kalloc q => some q
  | .copyuvm q => some q
  | .start q => some q

def Slot.Alive (x : Slot) : Prop := x.state = .sleeping ∨ x.state = .runnable ∨ x.state = .running

theorem wakeup1_alive (chan : Chan) (procs : Fin NPROC → Slot) (p : Fin NPROC) :
    (wakeup1 chan procs p).Alive ↔ (procs p).Alive := by
  unfold wakeup1
  split_ifs with h
  · simp [Slot.Alive, h.1]
  · rfl

/-- A process that is somebody's, or `initproc`. -/
def Slot.InUse (x : Slot) : Prop := x.Alive ∨ x.state = .zombie

/-- The forks that are going on. -/
structure Tasks (s : State ι) : Prop where
  embryo : ∀ p q, (s.procs p).task.child = some q → (s.procs q).state = .embryo
  kalloc : ∀ p q, (s.procs p).task = .kalloc q → (s.procs q).kstack = none ∧ (s.procs q).parent = none
  copyuvm : ∀ p q, (s.procs p).task = .copyuvm q →
    (s.procs q).kstack ≠ none ∧ (s.procs q).cont = .forkret ∧ (s.procs q).parent = none
  start : ∀ p q, (s.procs p).task = .start q →
    (s.procs q).kstack ≠ none ∧ (s.procs q).cont = .forkret ∧ (s.procs q).parent = some p
  single : ∀ p p' q, (s.procs p).task.child = some q → (s.procs p').task.child = some q → p = p'
  alive : ∀ p, (s.procs p).task ≠ .none → (s.procs p).Alive

/-! ### The processors -/

/-- The process on whose stack the processor is. -/
def Cpu.on : Cpu → Option (Fin NPROC)
  | .run p => some p
  | .enter p => some p
  | .leave p => some p
  | _ => none

/-- Whether the processor has the lock. -/
def Cpu.Holds : Cpu → Prop
  | .scheduler => False
  | .run _ => False
  | _ => True

/-- Whether the processor runs the process. -/
def Cpu.Runs (x : Cpu) (p : Fin NPROC) : Prop := x = .run p ∨ x = .enter p

theorem Cpu.Runs.on {x : Cpu} {p : Fin NPROC} (h : x.Runs p) : x.on = some p := by
  rcases h with rfl | rfl <;> rfl

structure Cpus (s : State ι) : Prop where
  lock : ∀ c, (s.cpu c).Holds ↔ s.lock = some c
  alone : ∀ c d p, (s.cpu c).on = some p → (s.cpu d).on = some p → c = d
  runs : ∀ c p, (s.cpu c).Runs p → (s.procs p).state = .running
  left : ∀ c p, s.cpu c = .leave p →
    (s.procs p).state = .runnable ∨ (s.procs p).state = .sleeping ∨ (s.procs p).state = .zombie
  running : ∀ p, (s.procs p).state = .running → ∃ c, (s.cpu c).Runs p

omit [DecidableEq ι] in
/-- What leaves the processors where they are. -/
theorem Cpus.edit (h : Cpus s) (hcpu : s'.cpu = s.cpu) (hlock : s'.lock = s.lock)
    (hrun : ∀ p, (s'.procs p).state = .running ↔ (s.procs p).state = .running)
    (hleft : ∀ c p, s.cpu c = .leave p →
      (s'.procs p).state = .runnable ∨ (s'.procs p).state = .sleeping ∨ (s'.procs p).state = .zombie) : Cpus s' := by
  refine ⟨?_, ?_, ?_, ?_, ?_⟩
  · rw [hcpu, hlock]
    exact h.lock
  · rw [hcpu]
    exact h.alone
  · intro c p hc
    rw [hcpu] at hc
    exact (hrun p).mpr (h.runs c p hc)
  · rw [hcpu]
    exact hleft
  · intro p hp
    rw [hcpu]
    exact h.running p ((hrun p).mp hp)

/-- A processor goes on, with the process that it has. -/
theorem Cpus.move (h : Cpus s) {c : ι} {x : Cpu} {lock : Option ι} (hon : ∀ p, x.on = some p → (s.cpu c).on = some p)
    (hruns : ∀ p, x.Runs p ↔ (s.cpu c).Runs p) (hleave : ∀ p, x ≠ .leave p)
    (hlock : ∀ d, (update s.cpu c x d).Holds ↔ lock = some d) : Cpus { s with lock := lock, cpu := update s.cpu c x } := by
  have hruns' : ∀ d p, (update s.cpu c x d).Runs p ↔ (s.cpu d).Runs p := fun d p => by
    rw [Function.update_apply]
    split_ifs with hd
    · rw [hd, hruns]
    · rfl
  have hon' : ∀ d p, (update s.cpu c x d).on = some p → (s.cpu d).on = some p := fun d p hd => by
    rw [Function.update_apply] at hd
    split_ifs at hd with hdc
    · exact hdc ▸ hon p hd
    · exact hd
  refine ⟨hlock, fun d e p hd he => h.alone d e p (hon' d p hd) (hon' e p he), fun d p hd => h.runs d p ((hruns' d p).mp hd), ?_, ?_⟩
  · intro d p hd
    dsimp only at hd
    rw [Function.update_apply] at hd
    split_ifs at hd
    · exact absurd hd (hleave p)
    · exact h.left d p hd
  · intro p hp
    obtain ⟨d, hd⟩ := h.running p hp
    exact ⟨d, (hruns' d p).mpr hd⟩

/-- A processor switches to a process that nobody runs, or stops running one. -/
theorem Cpus.pick (h : Cpus s) {c : ι} {n : ℕ} {p : Fin NPROC} (hc : s.cpu c = .scan n) (hp : (s.procs p).state = .runnable) :
    Cpus { s.set p { s.procs p with state := .running } with cpu := update s.cpu c (.enter p) } := by
  -- A process that is runnable on another processor is leaving it, with the lock.
  have hfree : ∀ d, (s.cpu d).on ≠ some p := fun d hd => by
    have hruns := h.runs d p
    have hd' := h.lock d
    have hc' := h.lock c
    cases hdc : s.cpu d <;> grind [Cpu.Holds, Cpu.on, Cpu.Runs]
  have hlock := h.lock
  refine ⟨?_, ?_, ?_, ?_, ?_⟩
  · grind [Cpu.Holds, Function.update_apply, State.set]
  · have := h.alone
    grind [Cpu.on, Function.update_apply, State.set]
  · intro d q hd
    show ((s.set p _).procs q).state = .running
    dsimp only at hd
    rw [set_procs]
    rw [Function.update_apply] at hd
    by_cases hdc : d = c
    · rw [if_pos hdc] at hd
      rw [if_pos (Option.some.inj hd.on).symm]
    · rw [if_neg hdc] at hd
      rw [if_neg fun hqp : q = p => hfree d (hqp ▸ hd.on)]
      exact h.runs d q hd
  · have := h.left
    grind [Cpu.on, Function.update_apply, set_procs]
  · intro q hq
    by_cases hqp : q = p
    · exact ⟨c, .inr (by rw [hqp]; exact Function.update_self ..)⟩
    · have hrun : (s.procs q).state = .running := by
        simpa [set_procs, hqp] using hq
      obtain ⟨d, hd⟩ := h.running q hrun
      have hdc : d ≠ c := by
        rintro rfl
        rw [hc] at hd
        simp [Cpu.Runs] at hd
      exact ⟨d, by simpa [Function.update_of_ne hdc] using hd⟩

omit [DecidableEq ι] in
theorem Leaves.state {p : Fin NPROC} {x : Slot} (h : Leaves s p x) :
    x.state = .runnable ∨ x.state = .sleeping ∨ x.state = .zombie := by
  cases h <;> simp

theorem Cpus.leave (h : Cpus s) {c : ι} {p : Fin NPROC} {x : Slot} (hc : s.cpu c = .enter p) (hx : Leaves s p x) :
    Cpus (sched s c p x) := by
  have hstate := hx.state
  have hlock := h.lock
  have halone := h.alone
  have hother : ∀ d q, d ≠ c → (s.cpu d).on = some q → q ≠ p := fun d q hdc hd hqp =>
    hdc (halone d c p (hqp ▸ hd) (by rw [hc]; rfl))
  refine ⟨?_, ?_, ?_, ?_, ?_⟩
  · grind [Cpu.Holds, sched_cpu, sched_lock]
  · grind [Cpu.on, sched_cpu]
  · intro d q hd
    rw [sched_cpu] at hd
    rw [sched_procs]
    split_ifs at hd with hdc
    · simp [Cpu.Runs] at hd
    · rw [if_neg (hother d q hdc hd.on)]
      exact h.runs d q hd
  · intro d q hd
    rw [sched_cpu] at hd
    rw [sched_procs]
    split_ifs at hd with hdc
    · rw [if_pos (Cpu.leave.inj hd).symm]
      exact hstate
    · rw [if_neg (hother d q hdc (by rw [hd]; rfl))]
      exact h.left d q hd
  · intro q hq
    have hqp : q ≠ p := by
      rintro rfl
      rw [sched_procs, if_pos rfl] at hq
      simp [hq] at hstate
    rw [sched_procs, if_neg hqp] at hq
    obtain ⟨d, hd⟩ := h.running q hq
    have hdc : d ≠ c := by
      rintro rfl
      rw [hc] at hd
      simp [Cpu.Runs, Ne.symm hqp] at hd
    exact ⟨d, by simpa [sched, Function.update_of_ne hdc] using hd⟩

theorem Cpus.micro (h : Cpus s) (ht : Tasks s) (hstep : Micro s s') : Cpus s' := by
  have hlock := h.lock
  have hleft := h.left
  have hruns := h.runs
  cases hstep with
  | acquire hc hl => apply h.move <;> grind [Cpu.Holds, Cpu.on, Cpu.Runs, Function.update_apply]
  | skip hc => apply h.move <;> grind [Cpu.Holds, Cpu.on, Cpu.Runs, Function.update_apply]
  | rest hc => apply h.move <;> grind [Cpu.Holds, Cpu.on, Cpu.Runs, Function.update_apply]
  | grab hc hl => apply h.move <;> grind [Cpu.Holds, Cpu.on, Cpu.Runs, Function.update_apply]
  | release hc => apply h.move <;> grind [Cpu.Holds, Cpu.on, Cpu.Runs, Function.update_apply]
  | switch hc => apply h.move <;> grind [Cpu.Holds, Cpu.on, Cpu.Runs, Function.update_apply]
  | pick hc hp => exact h.pick hc hp
  | leave hc hx => exact h.leave hc hx
  | clear hc => refine h.edit rfl rfl ?_ ?_ <;> grind [clear_procs]
  | wakeup chan => refine h.edit rfl rfl ?_ ?_ <;> grind [wakeup1_state]
  | kill q => refine h.edit rfl rfl ?_ ?_ <;> grind [set_procs]
  | adopt hc hp hinit => refine h.edit rfl rfl ?_ ?_ <;> grind [adopt_state]
  | reap hc hq => refine h.edit rfl rfl ?_ ?_ <;> grind [set_procs, Cpu.Holds]
  | fork hc htask hq => refine h.edit rfl rfl ?_ ?_ <;> grind [set_procs, Cpu.Runs]
  | forks hc hforks =>
    have hembryo := ht.embryo
    cases hforks <;> refine h.edit rfl rfl ?_ ?_ <;> grind [set_procs, Task.child]

end Ptable
end Xv6
end OsLabs
