/-
# What the interrupted code finds

After the handler the process should go on as it does in Linux after a signal
handler. But the handler returns by a plain `ret`, past the kernel: the
interrupted code goes on with the registers that the handler left, and a later
tick copies the saved ones over what the code has computed since. So the
interruption goes unnoticed exactly if the handler saves and restores the
registers itself and that copying finds nothing to change (`resumes_iff`).

Key definitions: `Resumes`, `SavesItself`, `NothingToRestore`.
-/
import OsLabs.Alarm.Machine
import OsLabs.Alarm.Push

namespace OsLabs
namespace Alarm

open Xv6 Run

/-- `eip`, `eflags` and the general registers agree. -/
def SameRegs (tf tf' : Trapframe) : Prop :=
  tf.eip = tf'.eip ∧ tf.eflags = tf'.eflags ∧ tf.eax = tf'.eax ∧ tf.ebx = tf'.ebx ∧ tf.ecx = tf'.ecx ∧
    tf.edx = tf'.edx ∧ tf.esi = tf'.esi ∧ tf.edi = tf'.edi ∧ tf.ebp = tf'.ebp ∧ tf.esp = tf'.esp

instance (tf tf' : Trapframe) : Decidable (SameRegs tf tf') :=
  inferInstanceAs (Decidable (_ ∧ _ ∧ _ ∧ _ ∧ _ ∧ _ ∧ _ ∧ _ ∧ _ ∧ _))

/-- A tick leaves the user's registers. -/
def Untouched (k : Kernel) (p : Proc) : Event → Prop
  | .tick page => Sat (fun p' => p'.tf = p.tf) (fun _ => True) (step k p (.tick page))
  | .ktick page => Sat (fun p' => p'.tf = p.tf) (fun _ => True) (step k p (.ktick page))
  | _ => True

/-- The tick delivers nothing. -/
def NoDelivery (p : Proc) : Event → Prop
  | .tick page => ¬ Delivers p.tf.cs page p
  | _ => True

/-- The handler entered in `s` does `hs` and ends in `q`, by a `ret` at the stack
pointer that it was entered with. -/
def Ends (k : Kernel) (s : Proc) (hs : List Event) (q : Proc) : Prop :=
  run (step k) s hs = .ok q ∧ q.tf.esp = s.tf.esp

/-- The code interrupted in `p` goes on behind the handler, which ends in `q` by
`ret`, with its registers, and no tick of `es` changes them. -/
def Resumes (k : Kernel) (p q : Proc) (es : List Event) : Prop :=
  SameRegs (ret q).tf p.tf ∧ Along (step k) (Untouched k) (ret q) es

/-- The handler that interrupted `p` and ends in `q` has left its return address,
and has itself given back `eflags` and the general registers. -/
def SavesItself (p q : Proc) : Prop :=
  load q.mem q.tf.esp = p.tf.eip ∧ q.tf.eflags = p.tf.eflags ∧ q.tf.eax = p.tf.eax ∧ q.tf.ebx = p.tf.ebx ∧
    q.tf.ecx = p.tf.ecx ∧ q.tf.edx = p.tf.edx ∧ q.tf.esi = p.tf.esi ∧ q.tf.edi = p.tf.edi ∧ q.tf.ebp = p.tf.ebp

/-- A tick that takes the handler to have returned just then comes when the
registers are the saved ones. -/
def NothingToRestore (p : Proc) : Event → Prop
  | .tick _ => Restores p.tf.cs p → ∀ f ∈ p.alarmTf, p.tf.restore f.tf = p.tf
  | _ => True

instance decNoDelivery (p : Proc) : DecidablePred (NoDelivery p)
  | .tick page => inferInstanceAs (Decidable (¬ Delivers p.tf.cs page p))
  | .user _ _ _ | .ret | .ktick _ | .alarm => inferInstanceAs (Decidable True)

variable {k : Kernel} {p q : Proc}

/-- What a restoring tick leaves of the registers. -/
theorem trapRestore_tf_iff (cs : BitVec 16) (p : Proc) :
    (trapRestore cs p).tf = p.tf ↔ (Restores cs p → ∀ f ∈ p.alarmTf, p.tf.restore f.tf = p.tf) := by
  by_cases hr : Restores cs p
  · obtain ⟨f, hf, -⟩ := hr.2.2
    rw [trapRestore_of_restores hr hf]
    constructor
    · intro h _ f' hf'
      obtain rfl : f = f' := Option.some.inj (hf.symm.trans hf')
      exact h
    · intro h
      exact h hr f hf
  · rw [trapRestore_of_not hr]
    exact iff_of_true rfl fun h => absurd h hr

/-- A tick that delivers nothing leaves the registers exactly if it has nothing
to restore. -/
theorem untouched_iff (k : Kernel) (p : Proc) (e : Event) (hd : NoDelivery p e) :
    Untouched k p e ↔ NothingToRestore p e := by
  cases e with
  | tick page =>
    obtain ⟨n, hok⟩ := step_tick_not (k := k) hd
    unfold Untouched NothingToRestore
    simp only [hok]
    exact trapRestore_tf_iff p.tf.cs p
  | ktick page =>
    unfold Untouched
    simp only [step_ktick]
    exact iff_of_true rfl trivial
  | _ => exact Iff.rfl

/-- After `ret` at the stack pointer that the handler was entered with, the
registers are the interrupted ones exactly if the handler gave them back. -/
theorem sameRegs_ret_iff (hesp : q.tf.esp = p.tf.esp - 4) : SameRegs (ret q).tf p.tf ↔ SavesItself p q := by
  have hret : (ret q).tf.esp = p.tf.esp := by
    show q.tf.esp + 4 = p.tf.esp
    rw [hesp]
    bv_omega
  unfold SameRegs SavesItself
  rw [hret]
  simp only [ret, and_true]

/-- **Behind the handler.** A tick delivers the alarm in `p`; its handler does `hs`
and returns from `q` at the stack pointer that it was entered with; `es` follows,
up to the next delivery. The interrupted code finds its registers, and no
tick changes them, exactly if the handler gives them back itself and no tick
of `es` has anything to restore. -/
theorem resumes_iff (page : Option ℕ) (hs es : List Event) (s : Proc) (hd : Delivers p.tf.cs page p)
    (hs₀ : step k p (.tick page) = .ok s) (hq : Ends k s hs q) (hes : Along (step k) NoDelivery (ret q) es) :
    Resumes k p q es ↔ SavesItself p q ∧ Along (step k) NothingToRestore (ret q) es := by
  obtain ⟨-, hentry, -, -⟩ := step_tick_delivers hd hs₀
  have hregs := sameRegs_ret_iff (hq.2.trans hentry)
  have hticks := along_iff (I := fun _ => True) (fun _ _ _ _ _ _ _ => trivial)
    (fun p e _ h => untouched_iff k p e h) es trivial hes
  unfold Resumes
  rw [hregs, hticks]

/-- A process at the tick before its second one, of an alarm every two ticks. -/
def looping : Proc :=
  { armed 0x2000 with tf := { (armed 0x2000).tf with eax := 5 }, alarmInterval := 2, alarmTicks := 1 }

/-- `looping` in its handler. -/
def entered : Proc :=
  { looping with
    tf := { looping.tf with eip := 0x40, esp := 0x1ffc }
    mem := store looping.mem 0x1ffc 0x123
    alarmTicks := 0
    alarmInHandler := true
    alarmTf := some ⟨7, looping.tf⟩ }

theorem looping_enters : step someKernel looping (.tick (some 7)) = .ok entered := by
  rfl

/-- A handler that does nothing, and the tick after it. -/
theorem resumes_iff_entered : Resumes someKernel looping entered [.tick none] ↔
    SavesItself looping entered ∧ Along (step someKernel) NothingToRestore (ret entered) [.tick none] :=
  resumes_iff (some 7) [] [.tick none] entered (by decide +kernel) looping_enters ⟨rfl, rfl⟩ (by decide +kernel)

/-- `looping` at the end of a handler that clears `eax`, as the one of `alarmtest.c`
does. -/
def cleared : Proc := { entered with tf := { entered.tf with eax := 0 } }

/-- The interrupted code goes on with 0 in `eax` for 5; and when it has put 9 there
itself, the next tick makes it 5. -/
theorem cleared_goes_on :
    step someKernel looping (.tick (some 7)) = .ok entered ∧
    Ends someKernel entered [.user cleared.tf cleared.mem cleared.sz] cleared ∧
    ¬ Resumes someKernel looping cleared [] ∧
    looping.tf.eax = 5 ∧ (ret cleared).tf.eax = 0 ∧
    (run (step someKernel) (ret cleared)
      [.user { (ret cleared).tf with eax := 9 } cleared.mem cleared.sz, .tick none]).map (·.tf.eax) = .ok 5 := by
  refine ⟨rfl, ⟨rfl, rfl⟩, fun h => ?_, rfl, rfl, by decide +kernel⟩
  exact absurd h.1 (by decide +kernel)

end Alarm
end OsLabs
