/-
# Where the alarm stores

The delivery stores the interrupted `eip` through the user's stack pointer,
without the check that `fetchint`, `argptr` and `copyout` make of a user's
address. The store stays in the process exactly if the four bytes below `esp`
do (`trap_safe_iff`); elsewhere it writes the kernel's memory or panics.
-/
import OsLabs.Lib.Run
import OsLabs.Alarm.Trap

namespace OsLabs
namespace Alarm

open Xv6 Run

variable {k : Kernel} {cs : BitVec 16} {page : Option ℕ} {p : Proc}

/-- The tick stores nothing through the user's stack pointer outside the process,
and does not panic. -/
def Safe (k : Kernel) (cs : BitVec 16) (page : Option ℕ) (p : Proc) : Prop :=
  Sat (fun t => ∀ b ∈ t.stored, b.toNat < p.sz.1.toNat) (fun _ => False) (trapTimer k cs page p)

/-- The frame fits: four bytes of the process lie below its stack pointer. -/
def Fits (p : Proc) : Prop := 4 ≤ p.tf.esp.toNat ∧ p.tf.esp.toNat ≤ p.sz.1.toNat

instance (p : Proc) : Decidable (Fits p) := inferInstanceAs (Decidable (_ ∧ _))

/-- The frame fits exactly if it lies inside. The subtraction of a stack pointer
below 4 wraps to the top of the address space, where no process is. -/
theorem fits_iff (p : Proc) : Fits p ↔ Inside p.sz (p.tf.esp - 4) := by
  have hsz := p.sz.2
  unfold KERNBASE at hsz
  unfold Fits Inside
  bv_omega

/-- A delivery that fits succeeds, and stores the interrupted `eip`. -/
theorem trapTimer_fits (k : Kernel) (hd : Delivers cs page p) (hf : Fits p) :
    ∃ t, trapTimer k cs page p = .ok t ∧ t.stored = bytes (p.tf.esp - 4) ∧
      t.proc.mem = store p.mem (p.tf.esp - 4) p.tf.eip := by
  rcases trapTimer_cases k cs page p with ⟨hn, -⟩ | ⟨-, a, -, hok⟩
  · exact absurd hd hn
  · rw [kstore_inside k ((fits_iff p).mp hf)] at hok
    exact ⟨_, hok, rfl, rfl⟩

/-- **A wild store.** A tick is safe exactly if it does not deliver, or delivers
to a stack pointer with four bytes of the process below it. -/
theorem trap_safe_iff (k : Kernel) (cs : BitVec 16) (page : Option ℕ) (p : Proc) :
    Safe k cs page p ↔ (Delivers cs page p → Fits p) := by
  unfold Safe
  constructor
  · intro h hd
    rcases trapTimer_cases k cs page p with ⟨hn, -⟩ | ⟨-, a, -, hok⟩
    · exact absurd hd hn
    · rw [hok] at h
      cases hs : kstore k p.sz p.mem (p.tf.esp - 4) p.tf.eip with
      | error e =>
        rw [hs] at h
        exact absurd h id
      | ok mem =>
        rw [hs] at h
        rw [fits_iff, inside_iff p.sz _ (kstore_ok hs).1.1]
        exact h
  · intro h
    rcases trapTimer_cases k cs page p with ⟨-, n, hok, -⟩ | ⟨hd, -⟩
    · rw [hok]
      intro b hb
      cases hb
    · obtain ⟨t, hok, hst, -⟩ := trapTimer_fits k hd (h hd)
      have hin := (fits_iff p).mp (h hd)
      have hfit : (p.tf.esp - 4).toNat + 4 ≤ 2 ^ 32 := by
        have hsz := p.sz.2
        unfold Inside at hin
        unfold KERNBASE at hsz
        omega
      rw [hok]
      show ∀ b ∈ t.stored, _
      rw [hst]
      exact (inside_iff p.sz _ hfit).mp hin

/-- The kernel's data starts a megabyte behind its text. -/
def someKernel : Kernel := ⟨0x80200000, by decide, by decide⟩

/-- A process of three pages that called `alarm(1, 0x40)` and computes with the
stack pointer `esp`. -/
def armed (esp : Word) : Proc where
  sz := ⟨0x3000, by decide⟩
  mem := fun _ => 0
  tf := { edi := 0, esi := 0, ebp := 0, ebx := 0, edx := 0, ecx := 0, eax := 0, gs := 0, fs := 0, es := 0x23
          ds := 0x23, eip := 0x123, cs := 0x1b, eflags := 0x202, esp := esp, ss := 0x23 }
  alarmInterval := 1
  alarmTicks := 0
  alarmHandler := 0x40
  alarmInHandler := false
  alarmTf := none

/-- The stack pointers of which the frame lands in the kernel's data, in
unmapped memory, and at the top of the address space. -/
theorem armed_unsafe :
    (trapTimer someKernel 0x1b (some 7) (armed 0x80300004)).map Trapped.stored = .ok (bytes 0x80300000) ∧
    (trapTimer someKernel 0x1b (some 7) (armed 0x4000)).map Trapped.stored = .error .trap ∧
    (trapTimer someKernel 0x1b (some 7) (armed 2)).map Trapped.stored = .error .trap ∧
    ¬ ∀ esp, Safe someKernel 0x1b (some 7) (armed esp) := by
  have hpanic : (trapTimer someKernel 0x1b (some 7) (armed 2)).map Trapped.stored = .error .trap := by decide +kernel
  refine ⟨by decide +kernel, by decide +kernel, hpanic, fun h => ?_⟩
  have hsafe := h 2
  unfold Safe at hsafe
  cases ht : trapTimer someKernel 0x1b (some 7) (armed 2) with
  | ok t =>
    rw [ht] at hpanic
    cases hpanic
  | error e =>
    rw [ht] at hsafe
    exact hsafe

end Alarm
end OsLabs
