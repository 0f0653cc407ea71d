/-
# The alarm in `trap`

`signal/alarm` adds a system call `alarm(n, handler)` to xv6. The timer case of
`trap` counts a process's ticks in user mode and at every `n`th pushes the
interrupted `eip` on the user stack and enters the handler, which returns by a
plain `ret`. That the handler has returned is guessed: a later tick that finds
the user stack pointer where it was at the delivery copies the saved
registers back (`trapRestore`) and lets the counting go on.

A tick in kernel mode changes nothing of this (`trapTimer_kernel`), and in user
mode the frame `trap` is given is the process's own, `p->tf`.

The store goes through the user's stack pointer without a check, and where it hits
the kernel's memory it may change what the rest of the delivery reads. `trapTimer` leaves
that out and `trapTimerIn` has it as a parameter; for a store into the process's own
pages the two are one (`trapTimerIn_own`).

Key definitions: `trapTimer`, `trapTimerIn`, `sysAlarm`.
Key theorem: `trapStore_cases`.
-/
import Mathlib
import OsLabs.Xv6.Vm

namespace OsLabs
namespace Alarm

open Xv6

/-- `struct trapframe`, the padding and what only the trap entry reads apart. -/
structure Trapframe where
  edi : Word
  esi : Word
  ebp : Word
  ebx : Word
  edx : Word
  ecx : Word
  eax : Word
  gs : BitVec 16
  fs : BitVec 16
  es : BitVec 16
  ds : BitVec 16
  eip : Word
  cs : BitVec 16
  eflags : Word
  esp : Word
  ss : BitVec 16
  deriving DecidableEq

/-- The page `alarm_tf` points to: its number and the frame saved in it. -/
structure Frame where
  page : ℕ
  tf : Trapframe

/-- What the alarm needs of `struct proc`, and the process's memory. A null
`alarm_tf` is `none`. -/
structure Proc where
  sz : Size
  mem : Memory
  tf : Trapframe
  alarmInterval : ℤ
  alarmTicks : ℤ
  alarmHandler : Word
  alarmInHandler : Bool
  alarmTf : Option Frame

/-- The frame of an interrupt in user mode: `(cs & 3) == DPL_USER`. -/
def usermode (cs : BitVec 16) : Prop := cs &&& 3 = 3

instance (cs : BitVec 16) : Decidable (usermode cs) := inferInstanceAs (Decidable (_ = _))

/-- The registers that a tick gives back; not `eip`, `eflags` or `esp`. -/
def Trapframe.restore (tf saved : Trapframe) : Trapframe :=
  { tf with eax := saved.eax, ebx := saved.ebx, ecx := saved.ecx, edx := saved.edx, esi := saved.esi
            edi := saved.edi, ebp := saved.ebp, ds := saved.ds, es := saved.es, fs := saved.fs, gs := saved.gs }

/-- The tick takes the handler to have returned: the user stack is where it was
at the delivery. -/
def Restores (cs : BitVec 16) (p : Proc) : Prop :=
  p.alarmInHandler ∧ usermode cs ∧ ∃ f ∈ p.alarmTf, p.tf.esp = f.tf.esp

instance (cs : BitVec 16) (p : Proc) : Decidable (Restores cs p) :=
  inferInstanceAs (Decidable (_ ∧ _ ∧ ∃ f ∈ p.alarmTf, _))

/-- The first `if` of the timer case. -/
def trapRestore (cs : BitVec 16) (p : Proc) : Proc :=
  match p.alarmTf with
  | some f => if Restores cs p then { p with tf := p.tf.restore f.tf, alarmInHandler := false } else p
  | none => p

/-- What `trap` leaves: the process, the addresses it stored to through the user's
stack pointer, and whether it set `eip` to the handler. -/
structure Trapped where
  proc : Proc
  stored : List Word
  delivered : Bool

/-- The delivery, up to the store below the user's stack pointer. `page` is what `kalloc` returns,
if it is called. -/
def trapPush (k : Kernel) (page : Option ℕ) (p : Proc) : Except Panic Trapped :=
  match (p.alarmTf.map Frame.page).or page with
  | none => .ok ⟨p, [], false⟩
  | some a => do
    let esp := p.tf.esp - 4
    let mem ← kstore k p.sz p.mem esp p.tf.eip
    pure { proc := { p with mem := mem, tf := { p.tf with esp := esp }, alarmTf := some ⟨a, p.tf⟩ }
           stored := bytes esp
           delivered := true }

/-- The rest of the delivery. -/
def trapEnter (t : Trapped) : Trapped :=
  if t.delivered then
    { t with proc := { t.proc with tf := { t.proc.tf with eip := t.proc.alarmHandler }, alarmInHandler := true } }
  else t

/-- The timer case of `trap` up to the store, for the running process `p` interrupted at `cs`. -/
def trapStore (k : Kernel) (cs : BitVec 16) (page : Option ℕ) (p : Proc) : Except Panic Trapped :=
  let p := trapRestore cs p
  if usermode cs ∧ ¬ p.alarmInHandler ∧ 0 < p.alarmInterval then
    let p := { p with alarmTicks := p.alarmTicks + 1 }
    if p.alarmInterval ≤ p.alarmTicks then trapPush k page { p with alarmTicks := 0 }
    else .ok ⟨p, [], false⟩
  else .ok ⟨p, [], false⟩

/-- The timer case of `trap`, of which the store changes nothing but the bytes at its own
address. -/
def trapTimer (k : Kernel) (cs : BitVec 16) (page : Option ℕ) (p : Proc) : Except Panic Trapped :=
  (trapStore k cs page p).map trapEnter

/-- What the store of a word at an address outside the process's own pages does to the
process. Its `struct proc`, its trap frame and the page of `alarm_tf` are kernel memory, and
the kernel's addresses reach every page there is. -/
abbrev Spill := Word → Word → Proc → Proc

/-- The store has gone to an address outside the process's own pages. -/
def Trapped.Spills (t : Trapped) : Prop := t.delivered ∧ ¬ OwnPages t.proc.sz t.proc.tf.esp

instance (t : Trapped) : Decidable t.Spills := inferInstanceAs (Decidable (_ ∧ _))

/-- The effect of the store. -/
def Trapped.spill (hit : Spill) (t : Trapped) : Trapped :=
  if t.Spills then { t with proc := hit t.proc.tf.esp t.proc.tf.eip t.proc } else t

/-- The timer case of `trap`, with what the store does to the process: the handler is loaded
behind it. -/
def trapTimerIn (hit : Spill) (k : Kernel) (cs : BitVec 16) (page : Option ℕ) (p : Proc) : Except Panic Trapped :=
  (trapStore k cs page p).map fun t => trapEnter (t.spill hit)

/-- The arguments of `alarm`, from the user stack. -/
def alarmArgs (p : Proc) : Option (Word × Word) := do
  let n ← argint p.sz p.mem p.tf.esp 0
  let h ← argptr p.sz p.mem p.tf.esp 1 4
  pure (n, h)

/-- `sys_alarm`; `syscall` puts what it returns in `eax`. -/
def sysAlarm (p : Proc) : Proc :=
  match alarmArgs p with
  | some (n, h) => { p with alarmInterval := n.toInt, alarmTicks := 0, alarmHandler := h, alarmInHandler := false
                            tf := { p.tf with eax := 0 } }
  | none => { p with tf := { p.tf with eax := -1 } }

/-! ### What a tick does -/

section

variable {k : Kernel} {cs : BitVec 16} {page : Option ℕ} {p : Proc}

/-- The restored process counts this tick. -/
def Counts (cs : BitVec 16) (p : Proc) : Prop :=
  usermode cs ∧ ¬ (trapRestore cs p).alarmInHandler ∧ 0 < p.alarmInterval

instance (cs : BitVec 16) (p : Proc) : Decidable (Counts cs p) := inferInstanceAs (Decidable (_ ∧ _ ∧ _))

/-- The tick delivers the alarm: it is due and there is a page for the frame. -/
def Delivers (cs : BitVec 16) (page : Option ℕ) (p : Proc) : Prop :=
  Counts cs p ∧ p.alarmInterval ≤ p.alarmTicks + 1 ∧ ((p.alarmTf.map Frame.page).or page).isSome

instance (cs : BitVec 16) (page : Option ℕ) (p : Proc) : Decidable (Delivers cs page p) :=
  inferInstanceAs (Decidable (_ ∧ _ ∧ _))

/-- A restore gives registers back and ends the handler; nothing else. -/
theorem trapRestore_of_restores {f : Frame} (h : Restores cs p) (hf : p.alarmTf = some f) :
    trapRestore cs p = { p with tf := p.tf.restore f.tf, alarmInHandler := false } := by
  simp only [trapRestore, hf, if_pos h]

theorem trapRestore_of_not (h : ¬ Restores cs p) : trapRestore cs p = p := by
  unfold trapRestore
  split
  · exact if_neg h
  · rfl

/-- Of the alarm's fields a restore changes the flag only. -/
theorem trapRestore_fields (cs : BitVec 16) (p : Proc) :
    (trapRestore cs p).sz = p.sz ∧ (trapRestore cs p).mem = p.mem ∧
    (trapRestore cs p).alarmInterval = p.alarmInterval ∧ (trapRestore cs p).alarmTicks = p.alarmTicks ∧
    (trapRestore cs p).alarmHandler = p.alarmHandler ∧ (trapRestore cs p).alarmTf = p.alarmTf := by
  unfold trapRestore
  split
  · split_ifs <;> exact ⟨rfl, rfl, rfl, rfl, rfl, by simp_all⟩
  · exact ⟨rfl, rfl, rfl, rfl, rfl, by simp_all⟩

/-- The flag is down after a restore, and as it was otherwise. -/
theorem trapRestore_inHandler :
    (trapRestore cs p).alarmInHandler = (p.alarmInHandler && !decide (Restores cs p)) := by
  by_cases h : Restores cs p
  · obtain ⟨f, hf, -⟩ := h.2.2
    rw [trapRestore_of_restores h hf]
    simp [h]
  · rw [trapRestore_of_not h]
    simp [h]

/-- A restore leaves `eip`, `eflags` and the stack. -/
theorem trapRestore_tf (cs : BitVec 16) (p : Proc) :
    (trapRestore cs p).tf.eip = p.tf.eip ∧ (trapRestore cs p).tf.eflags = p.tf.eflags ∧
    (trapRestore cs p).tf.esp = p.tf.esp ∧ (trapRestore cs p).tf.cs = p.tf.cs := by
  unfold trapRestore
  split
  · split_ifs <;> exact ⟨rfl, rfl, rfl, rfl⟩
  · exact ⟨rfl, rfl, rfl, rfl⟩

/-- **The timer case.** A tick that does not deliver restores and counts; one
that delivers pushes `eip` below the user's stack or panics. -/
theorem trapStore_cases (k : Kernel) (cs : BitVec 16) (page : Option ℕ) (p : Proc) :
    (¬ Delivers cs page p ∧ ∃ n, trapStore k cs page p = .ok ⟨{ trapRestore cs p with alarmTicks := n }, [], false⟩ ∧
      (¬ Counts cs p → n = p.alarmTicks) ∧
      (Counts cs p → n = if p.alarmInterval ≤ p.alarmTicks + 1 then 0 else p.alarmTicks + 1)) ∨
    (Delivers cs page p ∧ ∃ a, (p.alarmTf.map Frame.page).or page = some a ∧
      trapStore k cs page p =
        (kstore k p.sz p.mem (p.tf.esp - 4) p.tf.eip).map fun mem =>
          { proc := { trapRestore cs p with
                      mem := mem
                      tf := { (trapRestore cs p).tf with esp := p.tf.esp - 4 }
                      alarmTicks := 0
                      alarmTf := some ⟨a, (trapRestore cs p).tf⟩ }
            stored := bytes (p.tf.esp - 4)
            delivered := true }) := by
  obtain ⟨hsz, hmem, hint, hticks, -, htf⟩ := trapRestore_fields cs p
  obtain ⟨heip, -, hesp, -⟩ := trapRestore_tf cs p
  unfold trapStore
  by_cases hc : Counts cs p
  · have hc' := hc
    unfold Counts at hc'
    simp only [hint, hticks, if_pos hc']
    by_cases hdue : p.alarmInterval ≤ p.alarmTicks + 1
    · rw [if_pos hdue]
      cases hpage : (p.alarmTf.map Frame.page).or page with
      | none =>
        refine Or.inl ⟨fun hd => ?_, 0, ?_, fun hn => absurd hc hn, fun _ => (if_pos hdue).symm⟩
        · have := hd.2.2
          rw [hpage] at this
          cases this
        · simp only [trapPush, htf, hpage]
      | some a =>
        refine Or.inr ⟨⟨hc, hdue, by rw [hpage]; rfl⟩, a, rfl, ?_⟩
        simp only [trapPush, htf, hpage, hsz, hmem, hesp, heip]
        cases kstore k p.sz p.mem (p.tf.esp - 4) p.tf.eip <;> rfl
    · rw [if_neg hdue]
      exact Or.inl ⟨fun hd => hdue hd.2.1, _, rfl, fun hn => absurd hc hn, fun _ => (if_neg hdue).symm⟩
  · have hc' := hc
    unfold Counts at hc'
    simp only [hint, if_neg hc']
    exact Or.inl ⟨fun hd => hc hd.1, p.alarmTicks, by rw [← hticks, ← hint], fun _ => rfl, fun h => absurd h hc⟩

/-- The same when the store hits nothing else. -/
theorem trapTimer_cases (k : Kernel) (cs : BitVec 16) (page : Option ℕ) (p : Proc) :
    (¬ Delivers cs page p ∧ ∃ n, trapTimer k cs page p = .ok ⟨{ trapRestore cs p with alarmTicks := n }, [], false⟩ ∧
      (¬ Counts cs p → n = p.alarmTicks) ∧
      (Counts cs p → n = if p.alarmInterval ≤ p.alarmTicks + 1 then 0 else p.alarmTicks + 1)) ∨
    (Delivers cs page p ∧ ∃ a, (p.alarmTf.map Frame.page).or page = some a ∧
      trapTimer k cs page p =
        (kstore k p.sz p.mem (p.tf.esp - 4) p.tf.eip).map fun mem =>
          { proc := { trapRestore cs p with
                      mem := mem
                      tf := { (trapRestore cs p).tf with esp := p.tf.esp - 4, eip := p.alarmHandler }
                      alarmTicks := 0
                      alarmInHandler := true
                      alarmTf := some ⟨a, (trapRestore cs p).tf⟩ }
            stored := bytes (p.tf.esp - 4)
            delivered := true }) := by
  have hhand := (trapRestore_fields cs p).2.2.2.2.1
  unfold trapTimer
  rcases trapStore_cases k cs page p with ⟨hd, n, hok, hn⟩ | ⟨hd, a, ha, hok⟩
  · refine .inl ⟨hd, n, ?_, hn⟩
    rw [hok]
    rfl
  · refine .inr ⟨hd, a, ha, ?_⟩
    rw [hok, ← hhand]
    cases kstore k p.sz p.mem (p.tf.esp - 4) p.tf.eip <;> rfl

/-- The word that a delivery pushes lies in the process's own pages. -/
def PushesOwn (cs : BitVec 16) (page : Option ℕ) (p : Proc) : Prop :=
  Delivers cs page p → OwnPages p.sz (p.tf.esp - 4)

instance (cs : BitVec 16) (page : Option ℕ) (p : Proc) : Decidable (PushesOwn cs page p) :=
  inferInstanceAs (Decidable (_ → _))

/-- A tick that pushes inside has stored inside. -/
theorem trapStore_own {t : Trapped} (h : PushesOwn cs page p) (ht : trapStore k cs page p = .ok t) : ¬ t.Spills := by
  rintro ⟨hdel, hout⟩
  have hsz := (trapRestore_fields cs p).1
  rcases trapStore_cases k cs page p with ⟨-, n, hok, -⟩ | ⟨hd, a, -, hok⟩
  · obtain rfl := Except.ok.inj (hok.symm.trans ht)
    exact Bool.false_ne_true hdel
  · rw [kstore_own k (h hd)] at hok
    obtain rfl := Except.ok.inj (hok.symm.trans ht)
    exact hout (hsz ▸ h hd)

theorem trapTimerIn_own (hit : Spill) (k : Kernel) (h : PushesOwn cs page p) :
    trapTimerIn hit k cs page p = trapTimer k cs page p := by
  unfold trapTimerIn trapTimer
  cases ht : trapStore k cs page p with
  | error x => rfl
  | ok t =>
    show Except.ok (trapEnter (t.spill hit)) = Except.ok (trapEnter t)
    rw [Trapped.spill, if_neg (trapStore_own h ht)]

/-- A delivery whose store, outside the process's own pages, leaves the process `q` enters
the handler of `q`. -/
theorem trapTimerIn_spills {k : Kernel} (hd : Delivers cs page p) (hown : ¬ OwnPages p.sz (p.tf.esp - 4))
    (hs : Storable k p.sz (p.tf.esp - 4)) (q : Proc) :
    ∃ t, trapTimerIn (fun _ _ _ => q) k cs page p = .ok t ∧ t.delivered = true ∧ t.proc.tf.eip = q.alarmHandler := by
  obtain ⟨hsz, -⟩ := trapRestore_fields cs p
  unfold trapTimerIn
  rcases trapStore_cases k cs page p with ⟨hn, -⟩ | ⟨-, a, -, hok⟩
  · exact absurd hd hn
  · rw [kstore, if_pos hs] at hok
    obtain ⟨t, hok, hspills⟩ : ∃ t, trapStore k cs page p = .ok t ∧ t.Spills := ⟨_, hok, rfl, hsz ▸ hown⟩
    have hdel : (t.spill fun _ _ _ => q).delivered = true ∧ (t.spill fun _ _ _ => q).proc = q := by
      unfold Trapped.spill
      rw [if_pos hspills]
      exact ⟨hspills.1, rfl⟩
    refine ⟨trapEnter (t.spill fun _ _ _ => q), by rw [hok]; rfl, ?_⟩
    unfold trapEnter
    rw [if_pos hdel.1, hdel.2]
    exact ⟨hdel.1, rfl⟩

theorem trapTimerIn_traps (hit : Spill) {k : Kernel} (hd : Delivers cs page p) (hs : ¬ Storable k p.sz (p.tf.esp - 4)) :
    trapTimerIn hit k cs page p = .error .trap := by
  unfold trapTimerIn
  rcases trapStore_cases k cs page p with ⟨hn, -⟩ | ⟨-, a, -, hok⟩
  · exact absurd hd hn
  · rw [hok, kstore, if_neg hs]
    rfl

/-- A delivery saves the frame in the page that the process has, or in the one that `kalloc` returns. -/
theorem trapTimer_saved {t : Trapped} (h : trapTimer k cs page p = .ok t) (hd : Delivers cs page p) :
    ∃ f, t.proc.alarmTf = some f ∧ (p.alarmTf.map Frame.page).or page = some f.page ∧ f.tf = (trapRestore cs p).tf := by
  rcases trapTimer_cases k cs page p with ⟨hn, -⟩ | ⟨-, a, ha, hok⟩
  · exact absurd hd hn
  · rw [hok] at h
    cases hs : kstore k p.sz p.mem (p.tf.esp - 4) p.tf.eip with
    | error e =>
      rw [hs] at h
      cases h
    | ok mem =>
      rw [hs] at h
      cases h
      exact ⟨_, rfl, ha, rfl⟩

/-- A tick in kernel mode changes nothing. -/
theorem trapTimer_kernel (h : ¬ usermode cs) : trapTimer k cs page p = .ok ⟨p, [], false⟩ := by
  have hr : ¬ Restores cs p := fun hr => h hr.2.1
  have hc : ¬ Counts cs p := fun hc => h hc.1
  rcases trapTimer_cases k cs page p with ⟨-, n, hok, hn, -⟩ | ⟨hd, -⟩
  · rw [hok, hn hc, trapRestore_of_not hr]
  · exact absurd hd.1 hc

end

end Alarm
end OsLabs
