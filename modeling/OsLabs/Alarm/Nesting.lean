/-
# One handler at a time

`alarm_in_handler` keeps a second delivery away while a handler runs, and the
frame in `alarm_tf` until it is restored. Two things take the flag down too
early: a call of `alarm` in between, which clears it (`sysAlarm`), and a tick
inside the handler that finds the stack pointer where it was before the
delivery, which `trapRestore` takes for the handler's end. And a delivery that
stores outside its process's pages, be it another one's, may hit the flag or the
frame itself. Without all these one handler runs at a time and the frame stays
(`one_handler`).

Key definitions: `Watched`, `OneHandler`, `Mild`.
-/
import OsLabs.Alarm.Machine
import OsLabs.Alarm.Push

namespace OsLabs
namespace Alarm

open Xv6 Run

/-- What happens to the process. -/
inductive Happening
  | own (e : Event)
  /-- A delivery to another process stores a word at an address outside that one's pages. -/
  | spill (a w : Word)

/-- A process, the stack pointers at which the handlers that have not returned
yet were entered, the innermost first, and the frame that the last delivery saved, as long
as it is still to be used. -/
structure Watched where
  proc : Proc
  active : List Word
  pending : Option Trapframe

/-- Nothing delivered yet. -/
def Watched.start (p : Proc) : Watched := ⟨p, [], none⟩

/-- A tick, with what its store may hit; and anything else. -/
def stepIn (hit : Spill) (k : Kernel) (p : Proc) : Happening → Except Panic Proc
  | .own (.tick page) => (trapTimerIn hit k p.tf.cs page p).map Trapped.proc
  | .own e => step k p e
  | .spill a w => .ok (hit a w p)

/-- The frame that the tick is given, after the restore. -/
def tickFrame (p : Proc) : Trapframe := (trapRestore p.tf.cs p).tf

/-- A handler returns by a `ret` at the stack pointer it was entered with. -/
def watch (hit : Spill) (k : Kernel) (w : Watched) (e : Happening) : Except Panic Watched :=
  (stepIn hit k w.proc e).map fun p =>
    match e with
    | .own (.tick page) =>
      if Delivers w.proc.tf.cs page w.proc then ⟨p, p.tf.esp :: w.active, some (tickFrame w.proc)⟩
      else ⟨p, w.active, if Restores w.proc.tf.cs w.proc then none else w.pending⟩
    | .own .ret => if w.active.head? = some w.proc.tf.esp then ⟨p, w.active.tail, w.pending⟩ else { w with proc := p }
    | _ => { w with proc := p }

/-- `alarm_tf` holds the frame that was saved. -/
def Intact (w : Watched) : Prop := w.pending = none ∨ w.proc.alarmTf.map Frame.tf = w.pending

/-- The frame that waits to be used is as it was saved; and the event delivers only when no handler is
active, and only when the frame has been used, or is by this tick. -/
def OneHandler (w : Watched) (e : Happening) : Prop :=
  Intact w ∧
  match e with
  | .own (.tick page) => Delivers w.proc.tf.cs page w.proc →
      w.active = [] ∧ (w.pending ≠ none → Restores w.proc.tf.cs w.proc)
  | _ => True

/-- The event leaves an active handler and an unused frame alone: no call of
`alarm` that arms it, no tick in the handler at the stack pointer of the
interrupted code, and no word pushed outside the pages of the process it is pushed for. -/
def Mild (w : Watched) : Happening → Prop
  | .own .alarm => ∀ a ∈ alarmArgs w.proc, 0 < a.1.toInt → w.active = [] ∧ w.pending = none
  | .own (.tick page) => (w.active ≠ [] → ¬ Restores w.proc.tf.cs w.proc) ∧ PushesOwn w.proc.tf.cs page w.proc
  | .own _ => True
  | .spill _ _ => False

instance decIntact (w : Watched) : Decidable (Intact w) := inferInstanceAs (Decidable (_ ∨ _))

instance decOneHandler (w : Watched) : DecidablePred (OneHandler w)
  | .own (.tick page) => inferInstanceAs (Decidable (_ ∧ (Delivers w.proc.tf.cs page w.proc →
      w.active = [] ∧ (w.pending ≠ none → Restores w.proc.tf.cs w.proc))))
  | .own (.user _ _ _) | .own .ret | .own (.ktick _) | .own .alarm | .spill _ _ => inferInstanceAs (Decidable (_ ∧ True))

instance decMild (w : Watched) : DecidablePred (Mild w)
  | .own .alarm => inferInstanceAs (Decidable (∀ a ∈ alarmArgs w.proc, 0 < a.1.toInt → w.active = [] ∧ w.pending = none))
  | .own (.tick page) =>
    inferInstanceAs (Decidable ((w.active ≠ [] → ¬ Restores w.proc.tf.cs w.proc) ∧ PushesOwn w.proc.tf.cs page w.proc))
  | .own (.user _ _ _) | .own .ret | .own (.ktick _) => inferInstanceAs (Decidable True)
  | .spill _ _ => inferInstanceAs (Decidable False)

/-- The saved frame is intact; and while the alarm is armed, an active handler or an unused
frame keeps the flag up. -/
structure Flagged (w : Watched) : Prop where
  intact : Intact w
  flag : 0 < w.proc.alarmInterval → w.active ≠ [] ∨ w.pending ≠ none → w.proc.alarmInHandler = true

variable {hit : Spill} {k : Kernel} {w : Watched}

/-- A mild tick of a flagged process keeps to one handler. -/
theorem Flagged.oneHandler (h : Flagged w) {e : Happening} (hm : Mild w e) : OneHandler w e := by
  refine ⟨h.intact, ?_⟩
  match e, hm with
  | .own (.tick page), hm =>
    rintro ⟨⟨-, hflag, hint⟩, -⟩
    rw [trapRestore_inHandler] at hflag
    by_cases hr : Restores w.proc.tf.cs w.proc
    · refine ⟨?_, fun _ => hr⟩
      by_contra hact
      exact hm.1 hact hr
    · have hdown : ¬ w.proc.alarmInHandler = true := by simpa [hr] using hflag
      have hfree := mt (h.flag hint) hdown
      rw [not_or, not_not] at hfree
      exact ⟨hfree.1, fun hp => absurd hp hfree.2⟩
  | .own (.user ..), _ | .own .ret, _ | .own (.ktick _), _ | .own .alarm, _ => exact trivial

/-- A call of `alarm` that arms it finds nothing active and nothing unused, and
one that disarms it makes the flag moot. -/
theorem Flagged.alarm (h : Flagged w) (hm : Mild w (.own .alarm)) : Flagged { w with proc := sysAlarm w.proc } := by
  have htf : (sysAlarm w.proc).alarmTf = w.proc.alarmTf := by
    unfold sysAlarm
    split <;> rfl
  refine ⟨?_, ?_⟩
  · unfold Intact
    rw [htf]
    exact h.intact
  · unfold sysAlarm
    cases ha : alarmArgs w.proc with
    | none => exact h.flag
    | some a =>
      intro hint hor
      obtain ⟨hact, hpen⟩ := hm a ha hint
      exact absurd hor (by simp [hact, hpen])

/-- A tick keeps a process flagged. -/
theorem Flagged.tick (h : Flagged w) {page : Option ℕ} (hm : Mild w (.own (.tick page))) {p : Proc}
    (hp : step k w.proc (.tick page) = .ok p) :
    Flagged (if Delivers w.proc.tf.cs page w.proc then ⟨p, p.tf.esp :: w.active, some (tickFrame w.proc)⟩
      else ⟨p, w.active, if Restores w.proc.tf.cs w.proc then none else w.pending⟩) := by
  by_cases hd : Delivers w.proc.tf.cs page w.proc
  · rw [if_pos hd]
    obtain ⟨f, hf, hframe⟩ := step_tick_saved hd hp
    exact ⟨.inr (by rw [hf, Option.map_some, hframe, tickFrame]), fun _ _ => (step_tick_delivers hd hp).1⟩
  · rw [if_neg hd]
    obtain ⟨n, hok⟩ := step_tick_not (k := k) hd
    rw [hok] at hp
    obtain rfl := Except.ok.inj hp
    by_cases hr : Restores w.proc.tf.cs w.proc
    · have hact : w.active = [] := by
        by_contra hact
        exact hm.1 hact hr
      rw [if_pos hr]
      exact ⟨.inl rfl, fun _ hor => absurd hor (by simp [hact])⟩
    · rw [if_neg hr, trapRestore_of_not hr]
      exact ⟨h.intact, h.flag⟩

theorem watch_flagged (hit : Spill) (k : Kernel) (w : Watched) (e : Happening) (h : Flagged w) (hm : Mild w e) :
    OneHandler w e ∧ Sat Flagged (fun _ => True) (watch hit k w e) := by
  refine ⟨h.oneHandler hm, ?_⟩
  match e, hm with
  | .own (.user tf mem sz), _ => exact ⟨h.intact, h.flag⟩
  | .own .ret, _ =>
    show Flagged (if _ then _ else _)
    split_ifs with htop
    · refine ⟨h.intact, fun hint hor => h.flag hint (hor.imp_left fun htail hact => htail ?_)⟩
      show w.active.tail = []
      rw [hact, List.tail_nil]
    · exact ⟨h.intact, h.flag⟩
  | .own (.tick page), hm =>
    have hstep : stepIn hit k w.proc (.own (.tick page)) = step k w.proc (.tick page) := by
      simp only [stepIn, step, trapTimerIn_own hit k hm.2]
    unfold watch
    rw [hstep]
    cases hp : step k w.proc (.tick page) with
    | ok p => exact h.tick hm hp
    | error x => trivial
  | .own (.ktick page), _ =>
    unfold watch stepIn
    dsimp only
    rw [step_ktick]
    exact h
  | .own .alarm, hm => exact h.alarm hm

/-- **One handler at a time.** If no call of `alarm` arms it again while a handler
is active or a frame unused, no tick inside a handler comes at the
stack pointer of the interrupted code, and nothing is pushed outside the pages of the process
it is pushed for, then nothing is delivered between a delivery and the return of its handler, and
no saved frame is overwritten before it has been used, whatever such a store would hit. -/
theorem one_handler (hit : Spill) (k : Kernel) (p : Proc) (es : List Happening)
    (hes : Along (watch hit k) Mild (.start p) es) : Along (watch hit k) OneHandler (.start p) es := by
  have hstart : Flagged (.start p) := ⟨.inl rfl, fun _ hor => absurd hor (by simp [Watched.start])⟩
  exact along_inv (watch_flagged hit k) es hstart hes

/-- A store that hits the flag. -/
def hitFlag : Spill := fun _ _ p => { p with alarmInHandler := false }

/-- A handler that returns at once, and the tick that restores and delivers again. -/
theorem one_handler_twice :
    Along (watch hitFlag someKernel) OneHandler (.start (armed 0x2000))
      [.own (.tick (some 7)), .own .ret, .own (.tick none)] :=
  one_handler hitFlag someKernel (armed 0x2000) [.own (.tick (some 7)), .own .ret, .own (.tick none)] (by decide +kernel)

/-- The stack of a call `alarm(1, 0x40)` with the stack pointer 0x1f00. -/
def alarmStack : Memory := fun a => if a = 0x1f04 then 1 else if a = 0x1f08 then 0x40 else 0

/-- A handler that calls `alarm(1, 0x40)`: the next tick enters it again before it
has returned, and overwrites the frame of the code that it interrupted. -/
def rearm : List Happening :=
  [.own (.tick (some 7)), .own (.user (armed 0x1f00).tf alarmStack (armed 0x1f00).sz), .own .alarm, .own (.tick none)]

theorem rearm_nests :
    ¬ Along (watch hitFlag someKernel) OneHandler (.start (armed 0x2000)) rearm ∧
    (run (watch hitFlag someKernel) (.start (armed 0x2000)) rearm).map Watched.active = .ok [0x1efc, 0x1ffc] := by
  decide +kernel

end Alarm
end OsLabs
