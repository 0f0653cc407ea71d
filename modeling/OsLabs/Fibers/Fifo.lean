/-
# The cooperative library is a FIFO run queue

`fiber.h` describes the fibers by a run queue: `FiberSpawn` puts the new
fiber at its end, `FiberYield` puts the caller at its end and runs its head,
and `FiberTryJoin` says whether the caller is the only fiber. `Queue.next` is
that description. The library keeps no queue: the waiting fibers are those of
the circular list behind `CurrentFiber` that have not finished, and a finished
one stays in the list until somebody sweeps it. `fifo` is the refinement: the
same fibers run in the same order, and `FiberTryJoin` returns the same.
-/
import OsLabs.Fibers.Coop

namespace OsLabs
namespace Fibers

open Run

variable {ρ : Type}

/-- The run queue: who runs, who waits in which order, and the answer of
`FiberTryJoin` if it was the last event. -/
structure Queue where
  running : Addr
  waiting : List Addr
  joined : Option Bool

/-- `fiber.h`. -/
def Queue.next (q : Queue) : Event ρ → Queue
  | .spawn f _ fiber _ _ =>
    if f = NULL then { q with joined := none }
    else { q with waiting := q.waiting ++ [fiber], joined := none }
  | .yield =>
    match q.waiting with
    | [] => { q with joined := none }
    | d :: w => { running := d, waiting := w ++ [q.running], joined := none }
  | .ret =>
    match q.waiting with
    | [] => { q with joined := none }
    | d :: w => { running := d, waiting := w, joined := none }
  | .tryJoin => { q with joined := some q.waiting.isEmpty }
  | .work _ => { q with joined := none }
  | .tick => { q with joined := none }

/-- Only `main` runs. -/
def Queue.start : Queue := { running := Main, waiting := [], joined := none }

/-- The state shows the run queue: `CurrentFiber` runs, and the unfinished
fibers behind it wait. -/
def Shows (s : State ρ) (q : Queue) : Prop :=
  ∃ l, Inv s l ∧ s.fiber = q.running ∧ Fibers.waiting s.mem l = q.waiting ∧ s.joined = q.joined

/-- What happens while every `malloc` succeeds. -/
def Served (s : State ρ) (e : Event ρ) : Prop := Cooperative s e ∧ ¬ MallocFails e

instance decServed (s : State ρ) : DecidablePred (Served s) := fun e =>
  inferInstanceAs (Decidable (Cooperative s e ∧ ¬ MallocFails e))

theorem Leads.shows {s s' : State ρ} {c : Addr} {w : List Addr} {j : Option Bool} (h : Leads s s' c w)
    (hj : s'.joined = j) : Shows s' ⟨c, w, j⟩ := by
  obtain ⟨l, hl, hw⟩ := h.inv
  exact ⟨l, hl, h.fiber, hw, hj⟩

/-- One event of the library is one event of the run queue. -/
theorem shows_step (lib : Lib) {s : State ρ} {q : Queue} (e : Event ρ) (h : Shows s q) (he : Served s e) :
    ∃ s', step lib s e = .ok s' ∧ Shows s' (q.next e) := by
  obtain ⟨l, hl, hc, hw, -⟩ := h
  obtain ⟨he, hm⟩ := he
  cases e with
  | work regs =>
    obtain ⟨s', hs, hj, hL⟩ := work_leads lib hl regs
    rw [hc, hw] at hL
    exact ⟨s', hs, hL.shows hj⟩
  | spawn f args a st junk =>
    by_cases hf : f = NULL
    · subst hf
      obtain ⟨s', hs, hj, hL⟩ := spawn_null lib hl args a st junk
      rw [hc, hw] at hL
      exact ⟨s', hs, hL.shows hj⟩
    · have hm' : ¬ (a = NULL ∨ st = NULL) := fun h => hm ⟨hf, h⟩
      rw [not_or] at hm'
      obtain ⟨s', hs, hj, hL⟩ := spawn_leads lib hl args junk hf (he.1.resolve_left hm'.1) hm'.1
        (he.2.resolve_left hm'.2) hm'.2
      rw [hc, hw] at hL
      refine ⟨s', hs, ?_⟩
      simp only [Queue.next, if_neg hf]
      exact hL.shows hj
  | yield =>
    obtain ⟨s', hs, hj, hL⟩ := yield_leads lib hl
    rw [hc, hw] at hL
    refine ⟨s', hs, ?_⟩
    rcases hq : q.waiting with _ | ⟨d, w⟩
    all_goals
      simp only [Queue.next, hq]
      rw [hq] at hL
      exact hL.shows hj
  | tryJoin =>
    obtain ⟨s', hs, hj, hL⟩ := tryJoin_leads lib hl
    rw [hc, hw] at hL
    refine ⟨s', hs, hL.shows (hj.trans ?_)⟩
    rw [hw]
    cases q.waiting <;> simp
  | ret =>
    obtain ⟨s', d, w, hq, hs, hj, hL⟩ := ret_leads lib hl he
    rw [hw] at hq
    refine ⟨s', hs, ?_⟩
    simp only [Queue.next, hq]
    exact hL.shows hj
  | tick => exact he.elim

/-- **FIFO.** For every program, the fibers that run, one after each event, and
the answers of `FiberTryJoin` are those of the run queue. -/
theorem fifo (zero : Context Saved) (regs : Saved) (es : List (Event Saved))
    (hes : Along (step .fibers) Served (init zero regs) es) :
    trace (step .fibers) (fun s => (s.fiber, s.joined)) (init zero regs) es =
      .ok ((es.scanl Queue.next Queue.start).map fun q => (q.running, q.joined)) := by
  refine trace_sim (R := Shows) (fun s q h => ?_) (fun s q e h he => shows_step .fibers e h he) es ?_ hes
  · obtain ⟨l, -, hc, -, hj⟩ := h
    rw [hc, hj]
  · exact ⟨[], init_inv zero regs, rfl, rfl, rfl⟩

theorem fifo_oneFiber : trace (step .fibers) (fun s => (s.fiber, s.joined))
    (init ⟨⟨0, .user⟩, ⟨0, 0, 0, 0, 0, 0⟩⟩ ⟨0, 0, 0, 0, 0, 0⟩) oneFiber =
      .ok [(1, none), (1, none), (2, none), (1, none), (1, some true)] :=
  fifo ⟨⟨0, .user⟩, ⟨0, 0, 0, 0, 0, 0⟩⟩ ⟨0, 0, 0, 0, 0, 0⟩ oneFiber (by decide)

end Fibers
end OsLabs
