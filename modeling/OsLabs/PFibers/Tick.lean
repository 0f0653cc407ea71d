/-
# Ticks between the calls

`pfibers` adds a second scheduler to the list: every tick of `SIGALRM` runs
`fiber_sched`, which gives the processor to `CurrentFiber->next`. Unlike
`FiberYield` it neither makes the list (`InitMainFiber`) nor sweeps it
(`FreeFinishedFibers`). With each call taken as one event (`step`), a tick
goes wrong in exactly two kinds of states (`ticks_harmless_iff`): before the first
call, when `CurrentFiber` is still null, and when the next fiber of the list
has finished and nobody has swept it since: that fiber resumes behind its
last `FiberYield`, at `assert(0)`.
-/
import OsLabs.Fibers.Coop

namespace OsLabs
namespace PFibers

open Fibers Run Mem

/-- The registers of `struct Context`, `rsp` and `rip` apart. -/
inductive Reg
  | r8 | r9 | r10 | r11 | r12 | r13 | r14 | r15
  | rdi | rsi | rbp | rbx | rdx | rax | rcx
  | flags
  deriving DecidableEq, Repr

/-- What the registers hold. -/
abbrev Regs := Reg → ℕ

variable {ρ : Type} {s : State ρ} {l : List Addr}

/-- The event leaves the processor to a fiber that has not finished, and fails
only if `malloc` does: no null `CurrentFiber`, no `assert(0)`. -/
def Harmless (s : State ρ) (e : Event ρ) : Prop :=
  Sat (fun s' => s'.mem.finished s'.fiber = false) (fun x => x = .null ∧ MallocFails e) (step .pfibers s e)

/-- A tick finds the list made and its next fiber unfinished. -/
def TickFits (s : State ρ) : Event ρ → Prop
  | .tick => s.mem.currentFiber ≠ NULL ∧ ∀ d ∈ s.mem.next s.mem.currentFiber, s.mem.finished d = false
  | _ => True

instance decTickFits (s : State ρ) : DecidablePred (TickFits s)
  | .tick => inferInstanceAs (Decidable (s.mem.currentFiber ≠ NULL ∧
      ∀ d ∈ s.mem.next s.mem.currentFiber, s.mem.finished d = false))
  | .work _ | .spawn _ _ _ _ _ | .yield | .tryJoin | .ret => inferInstanceAs (Decidable True)

/-- A tick that fits gives the turn to the next fiber of the list. -/
theorem tick_inv (h : Inv s l) (hfit : TickFits s .tick) :
    ∃ s' l', step .pfibers s .tick = .ok s' ∧ Inv s' l' := by
  obtain ⟨hwf, hrun⟩ := h.resolve_left fun hu => hfit.1 hu.1.current
  obtain ⟨r, hr, -, hget⟩ := hwf.lookup List.mem_cons_self
  have hnext := hwf.ring.next_head
  rw [next_of_lookup hr, Option.some.injEq] at hnext
  cases l with
  | nil =>
    refine ⟨{ s with joined := none }, [], ?_, Or.inr ⟨hwf, hrun.stack, hrun.alive, hrun.stopped⟩⟩
    simp only [step, fiberSched, hget, ok_bind, hnext, List.headD_nil, if_true, pure_eq]
  | cons d q =>
    obtain rfl : r.next = d := hnext
    have hdc : r.next ≠ s.mem.currentFiber := fun he => (List.nodup_cons.mp hwf.ring.nodup).1 (by simp [he])
    have hd : s.mem.finished r.next = false := hfit.2 _ (by rw [next_of_lookup hr]; rfl)
    have hrs : r.stack = s.stack := by
      have hst := hrun.stack
      rw [stackOf, hr] at hst
      exact Option.some.inj hst
    obtain ⟨t, htg, -, s', hgo, -, -, hwf', hrun'⟩ := handOver (s := { s with joined := none }) .user hwf hr hrs
      (fun he => by cases he) hd hrun.stopped
    refine ⟨s', _, ?_, Or.inr ⟨hwf', hrun'⟩⟩
    simp only [step, fiberSched, hget, ok_bind, if_neg hdc]
    change (({ s.mem.put s.mem.currentFiber _ with currentFiber := r.next } : Mem (Context ρ)).get r.next >>= _) = _
    rw [htg, ok_bind]
    exact hgo

/-- A tick that does not fit does harm. -/
theorem tick_unfit (h : Inv s l) (hfit : ¬ TickFits s .tick) : ¬ Harmless s .tick := by
  intro hh
  unfold Harmless at hh
  rcases h with ⟨hu, -, -⟩ | ⟨hwf, hrun⟩
  · simp [step, fiberSched, hu.current, Mem.get, Sat, MallocFails] at hh
  · obtain ⟨r, hr, -, hget⟩ := hwf.lookup List.mem_cons_self
    have hfin : s.mem.finished r.next = true := by
      by_contra hn
      refine hfit ⟨hwf.current_ne, fun d hd => ?_⟩
      rw [next_of_lookup hr, Option.mem_some_iff] at hd
      rw [← hd]
      simpa using hn
    have hnc : r.next ≠ s.mem.currentFiber := fun he => by
      rw [he, hrun.alive] at hfin
      cases hfin
    have hnl : r.next ∈ s.mem.currentFiber :: l := by
      have hnext := hwf.ring.next_head
      rw [next_of_lookup hr, Option.some.injEq] at hnext
      rw [hnext]
      cases l <;> simp
    obtain ⟨t, ht, htn, -⟩ := hwf.lookup hnl
    set m : Mem (Context ρ) := { s.mem.put s.mem.currentFiber { r with context := ⟨⟨s.stack, .user⟩, s.regs⟩ } with
      currentFiber := r.next } with hm
    have ht' : m.heap.lookup r.next = some t := by
      show (s.mem.put _ _).heap.lookup _ = _
      rw [lookup_put, if_neg hnc, ht]
    have hft : m.finished r.next = true := by
      rw [finished_eq ht', ← finished_eq ht, hfin]
    have hgo : step .pfibers s .tick = goOn t.context.rsp.ret
        { s with mem := m, stack := t.context.rsp.stack, regs := t.context.regs, joined := none } := by
      simp only [step, fiberSched, hget, ok_bind, if_neg hnc]
      rw [← hm, get_ok htn ht', ok_bind]
    rw [hgo] at hh
    have hfib : (if m.currentFiber = NULL then Main else m.currentFiber) = r.next := if_neg htn
    have hgm : m.get m.currentFiber = .ok t := get_ok htn ht'
    cases hp : t.context.rsp.ret <;> simp only [hp, goOn, hgm, ok_bind, pure_eq, Sat, State.fiber, hfib, hft] at hh
    · cases hh
    · cases hh
    · cases hh.1

/-- **Which ticks do harm.** An event of a state of the invariant is harmless
exactly if a tick fits there. -/
theorem harmless_iff (h : Inv s l) (e : Event ρ) (he : Fair s e) : Harmless s e ↔ TickFits s e := by
  have hcoop : Cooperative s e → Harmless s e := fun hc => by
    have hstep := cooperative_step .pfibers h e hc
    unfold Harmless
    cases hs : step .pfibers s e with
    | ok s' =>
      rw [hs] at hstep
      obtain ⟨⟨l', hl'⟩, -⟩ := hstep
      exact hl'.alive.2.1
    | error x =>
      rw [hs] at hstep
      exact hstep
  cases e with
  | tick =>
    refine ⟨fun hh => by_contra fun hn => tick_unfit h hn hh, fun hf => ?_⟩
    obtain ⟨s', l', hs, hl'⟩ := tick_inv h hf
    unfold Harmless
    rw [hs]
    exact hl'.alive.2.1
  | work => exact iff_of_true (hcoop he) trivial
  | spawn => exact iff_of_true (hcoop he) trivial
  | yield => exact iff_of_true (hcoop he) trivial
  | tryJoin => exact iff_of_true (hcoop he) trivial
  | ret => exact iff_of_true (hcoop he) trivial

theorem fits_step (h : Inv s l) (e : Event ρ) (he : Fair s e) (hfit : TickFits s e) {s' : State ρ}
    (hs : step .pfibers s e = .ok s') : ∃ l', Inv s' l' := by
  have hcoop : Cooperative s e → ∃ l', Inv s' l' := fun hc => by
    have hstep := cooperative_step .pfibers h e hc
    rw [hs] at hstep
    exact hstep.1
  cases e with
  | tick =>
    obtain ⟨s₁, l', hs₁, hl'⟩ := tick_inv h hfit
    rw [hs] at hs₁
    cases hs₁
    exact ⟨l', hl'⟩
  | work => exact hcoop he
  | spawn => exact hcoop he
  | yield => exact hcoop he
  | tryJoin => exact hcoop he
  | ret => exact hcoop he

/-- **Two schedulers, one list.** A run does no harm exactly if each of its
ticks comes after the first call and finds the next fiber of the list
unfinished. -/
theorem ticks_harmless_iff (zero : Context Regs) (regs : Regs) (es : List (Event Regs))
    (hes : Along (step .pfibers) Fair (init zero regs) es) :
    Along (step .pfibers) Harmless (init zero regs) es ↔ Along (step .pfibers) TickFits (init zero regs) es := by
  refine along_iff (I := fun s => ∃ l, Inv s l) ?_ ?_ es ⟨[], init_inv zero regs⟩ hes
  · rintro s e s' ⟨l, h⟩ he hh hs
    exact fits_step h e he ((harmless_iff h e he).mp hh) hs
  · rintro s e ⟨l, h⟩ he
    exact harmless_iff h e he

/-- Registers and a context whose contents do not matter. -/
def someRegs : Regs := fun _ => 0

def someContext : Context Regs := ⟨⟨NULL, .user⟩, someRegs⟩

/-- `main` spawns a fiber and yields to it; the fiber returns and leaves `main`
with its finished record in the list; a tick comes. -/
def returnThenTick : List (Event Regs) :=
  [.spawn 100 7 2 3 someContext, .yield, .ret, .tick]

/-- Two ticks that fit, to the fiber and back to `main`, before the fiber returns. -/
def ticksThenReturn : List (Event Regs) :=
  [.spawn 100 7 2 3 someContext, .tick, .tick, .yield, .ret, .tryJoin]

theorem ticks_harmless_iff_ticksThenReturn :
    Along (step .pfibers) Harmless (init someContext someRegs) ticksThenReturn :=
  (ticks_harmless_iff someContext someRegs ticksThenReturn (by decide)).mpr (by decide)

/-- The tick resumes the finished fiber, which reaches `assert(0)`; and a tick
before the first call goes through a null `CurrentFiber`. -/
theorem tick_reaches_assertion :
    Along (step .pfibers) Fair (init someContext someRegs) returnThenTick ∧
    run (step .pfibers) (init someContext someRegs) returnThenTick = .error .assertion ∧
    run (step .pfibers) (init someContext someRegs) [.tick] = .error .null ∧
    ¬ ∀ es, Along (step .pfibers) Fair (init someContext someRegs) es →
      Along (step .pfibers) Harmless (init someContext someRegs) es := by
  refine ⟨by decide, rfl, rfl, fun h => ?_⟩
  have htick := h [.tick] (by decide)
  exact absurd htick.1.2 id

end PFibers
end OsLabs
