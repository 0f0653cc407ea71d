/-
# A process with an alarm

One process between its user code and the kernel. Its user code does what it
likes to its registers and its memory; of that only the `ret` that may end a
handler is singled out. The kernel runs at timer ticks and for the `alarm`
system call. What happens to other processes in between does not touch this
one.

Key definition: `step`.
-/
import OsLabs.Lib.Run
import OsLabs.Alarm.Trap

namespace OsLabs
namespace Alarm

open Xv6 Run

/-- The code segment of the kernel, `SEG_KCODE << 3`. -/
def kcode : BitVec 16 := 8

inductive Event
  /-- User code, or another system call: any registers, memory and size. -/
  | user (tf : Trapframe) (mem : Memory) (sz : Size)
  /-- The user's `ret`. -/
  | ret
  /-- A tick that interrupts user code; `page` is for `kalloc`. -/
  | tick (page : Option ℕ)
  /-- A tick that interrupts the kernel. -/
  | ktick (page : Option ℕ)
  | alarm

/-- `ret` in user mode. -/
def ret (p : Proc) : Proc :=
  { p with tf := { p.tf with eip := load p.mem p.tf.esp, esp := p.tf.esp + 4 } }

/-- User code runs; its segment stays. -/
def work (p : Proc) (tf : Trapframe) (mem : Memory) (sz : Size) : Proc :=
  { p with tf := { tf with cs := p.tf.cs }, mem := mem, sz := sz }

def step (k : Kernel) (p : Proc) : Event → Except Panic Proc
  | .user tf mem sz => .ok (work p tf mem sz)
  | .ret => .ok (ret p)
  | .tick page => (trapTimer k p.tf.cs page p).map Trapped.proc
  | .ktick page => (trapTimer k kcode page p).map Trapped.proc
  | .alarm => .ok (sysAlarm p)

/-- A tick in the kernel goes by. -/
theorem step_ktick (k : Kernel) (p : Proc) (page : Option ℕ) : step k p (.ktick page) = .ok p := by
  simp only [step, trapTimer_kernel (show ¬ usermode kcode by decide), Except.map]

/-- A tick that does not deliver leaves what the restore leaves, and a count. -/
theorem step_tick_not {k : Kernel} {p : Proc} {page : Option ℕ} (h : ¬ Delivers p.tf.cs page p) :
    ∃ n, step k p (.tick page) = .ok { trapRestore p.tf.cs p with alarmTicks := n } := by
  rcases trapTimer_cases k p.tf.cs page p with ⟨-, n, hok, -⟩ | ⟨hd, -⟩
  · refine ⟨n, ?_⟩
    simp only [step, hok, Except.map]
  · exact absurd hd h

/-- A tick that delivers and does not panic enters the handler. -/
theorem step_tick_delivers {k : Kernel} {p p' : Proc} {page : Option ℕ} (hd : Delivers p.tf.cs page p)
    (h : step k p (.tick page) = .ok p') :
    p'.alarmInHandler = true ∧ p'.tf.esp = p.tf.esp - 4 ∧ p'.tf.eip = p.alarmHandler ∧
      p'.alarmInterval = p.alarmInterval := by
  rcases trapTimer_cases k p.tf.cs page p with ⟨hn, -⟩ | ⟨-, a, -, hok⟩
  · exact absurd hd hn
  · simp only [step, hok] at h
    cases hs : kstore k p.sz p.mem (p.tf.esp - 4) p.tf.eip with
    | ok mem =>
      rw [hs] at h
      obtain rfl := Except.ok.inj h
      exact ⟨rfl, rfl, rfl, (trapRestore_fields p.tf.cs p).2.2.1⟩
    | error x =>
      rw [hs] at h
      cases h

/-- It has saved the frame. -/
theorem step_tick_saved {k : Kernel} {p p' : Proc} {page : Option ℕ} (hd : Delivers p.tf.cs page p)
    (h : step k p (.tick page) = .ok p') : ∃ f, p'.alarmTf = some f ∧ f.tf = (trapRestore p.tf.cs p).tf := by
  simp only [step] at h
  cases ht : trapTimer k p.tf.cs page p with
  | ok t =>
    rw [ht] at h
    obtain rfl := Except.ok.inj h
    obtain ⟨f, hf, -, hframe⟩ := trapTimer_saved ht hd
    exact ⟨f, hf, hframe⟩
  | error x =>
    rw [ht] at h
    cases h

end Alarm
end OsLabs
