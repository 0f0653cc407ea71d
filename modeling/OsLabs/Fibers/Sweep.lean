/-
# The list of fibers under any calls

What `FiberSpawn` and `FiberYield` do to the records and their list, whatever the fibers run. A fiber ends when
`FiberTrampoline` sets its flag; here that may happen to any spawned fiber at any time, so that any number of them
have ended when somebody sweeps, side by side or not, and the current one among them. Both loops end in every list
that is reached (`loops_end`): the invariant is that the records form one cycle, and what is left of it is the measure.

Key definitions: `yieldRing`, `edit`, `Swept`.
Key theorem: `loops_end`.
-/
import OsLabs.Fibers.Coop

namespace OsLabs
namespace Fibers

open Mem Run

variable {κ ρ : Type}

/-- `FiberYield` up to `SwitchFiberContext`: the list, and `from`. -/
def yieldRing (lib : Lib) (m : Mem κ) : Except Fault (Mem κ × Addr) := do
  let m ← initMainFiber lib m
  let m ← freeFinishedFibers m
  let r ← m.get m.currentFiber
  let frm := m.currentFiber
  let dst := r.next
  if dst = frm then pure (m, frm) else pure ({ m with currentFiber := dst }, frm)

/-- The rest of `FiberYield`. -/
theorem fiberYield_eq (lib : Lib) (ret : Point) (s : State ρ) :
    fiberYield lib ret s = (yieldRing lib s.mem >>= fun p =>
      if p.1.currentFiber = p.2 then goOn ret { s with mem := p.1 }
      else switchFiberContext p.2 p.1.currentFiber ret { s with mem := p.1 }) := by
  unfold fiberYield yieldRing
  cases initMainFiber lib s.mem with
  | error x => rfl
  | ok m =>
    simp only [ok_bind]
    cases freeFinishedFibers m with
    | error x => rfl
    | ok m =>
      simp only [ok_bind]
      cases m.get m.currentFiber with
      | error x => rfl
      | ok r =>
        simp only [ok_bind]
        split_ifs with hsame
        · rw [pure_eq, ok_bind, if_pos rfl]
        · rw [pure_eq, ok_bind, if_neg hsame]

/-- A call, or the end of a fiber's function in `FiberTrampoline`. -/
inductive Edit (κ : Type)
  | spawn (f args fiber stack : Addr) (junk : κ)
  | yield
  | finish (a : Addr)

def edit (lib : Lib) (prep : κ → Addr → κ) (m : Mem κ) : Edit κ → Except Fault (Mem κ)
  | .spawn f args fiber stack junk => fiberSpawn lib prep f args fiber stack junk m
  | .yield => do
    let (m, _) ← yieldRing lib m
    pure m
  | .finish a => do
    let r ← m.get a
    pure (m.put a { r with finished := true })

/-- The `malloc`s succeed and return addresses that are not in use; `main` does not run in `FiberTrampoline`. -/
def Allowed (m : Mem κ) : Edit κ → Prop
  | .spawn f _ fiber stack _ => f = NULL ∨ ((fiber ∉ m.heap ∧ fiber ≠ NULL) ∧ stack ∉ m.stackBlocks ∧ stack ≠ NULL)
  | .yield => True
  | .finish a => a ≠ Main ∧ a ∈ m.heap

instance decAllowed (m : Mem κ) : DecidablePred (Allowed m)
  | .spawn f _ fiber stack _ =>
    inferInstanceAs (Decidable (f = NULL ∨ ((fiber ∉ m.heap ∧ fiber ≠ NULL) ∧ stack ∉ m.stackBlocks ∧ stack ≠ NULL)))
  | .yield => inferInstanceAs (Decidable True)
  | .finish a => inferInstanceAs (Decidable (a ≠ Main ∧ a ∈ m.heap))

/-- What the two loops do on a list: `l` are the fibers behind the current one. The tail is found, and a new fiber comes behind
it. The sweep leaves the fibers of `l` that have not ended in their order, with all that is in their records; the records it
frees are those of the others, each once, and so are the stacks. -/
structure Swept (lib : Lib) (prep : κ → Addr → κ) (m : Mem κ) (l : List Addr) : Prop where
  ring : Ring m.next m.currentFiber l
  live : ∀ a, a ∈ m.heap ↔ a ∈ m.currentFiber :: l
  spawns : ∀ (f args fiber stack : Addr) (junk : κ), f ≠ NULL → fiber ∉ m.heap → fiber ≠ NULL → stack ∉ m.stackBlocks →
    stack ≠ NULL → ∃ m', fiberSpawn lib prep f args fiber stack junk m = .ok m' ∧ m'.currentFiber = m.currentFiber ∧
      Ring m'.next m.currentFiber (l ++ [fiber])
  sweeps : ∃ m', freeFinishedFibers m = .ok m' ∧ m'.currentFiber = m.currentFiber ∧
    Ring m'.next m.currentFiber (l.filter fun a => !m.finished a) ∧
    m.heap.keys.Perm (l.filter m.finished ++ m'.heap.keys) ∧
    m.stackBlocks.Perm ((l.filter m.finished).filterMap m.stackOf ++ m'.stackBlocks) ∧
    ∀ a ∈ m'.heap, m'.core a = m.core a

section

variable {m : Mem κ} {l : List Addr}

theorem WF.perm_keys (h : WF m l) : m.heap.keys.Perm (m.currentFiber :: l) :=
  (List.perm_ext_iff_of_nodup m.heap.nodupKeys h.ring.nodup).mpr fun a => by
    rw [← h.live a]
    rfl

/-- The stack that was allocated for the fiber at `a`. -/
def ownStack (m : Mem κ) (a : Addr) : Option Addr := if a = Main then none else m.stackOf a

theorem ownStack_eq_some {a st : Addr} : ownStack m a = some st ↔ a ≠ Main ∧ m.stackOf a = some st := by
  unfold ownStack
  split_ifs with ha
  · simp [ha]
  · simp [ha]

/-- The stacks that are allocated are those of the records. -/
theorem WF.perm_stacks (h : WF m l) : m.stackBlocks.Perm ((m.currentFiber :: l).filterMap (ownStack m)) := by
  have hinj : ∀ a b st, st ∈ ownStack m a → st ∈ ownStack m b → a = b := fun a b st ha hb => by
    obtain ⟨haM, ha⟩ := ownStack_eq_some.mp ha
    obtain ⟨hbM, hb⟩ := ownStack_eq_some.mp hb
    exact h.blocks.inj a b st haM hbM ha hb
  apply (List.perm_ext_iff_of_nodup h.blocks.nodup (h.ring.nodup.filterMap hinj)).mpr
  intro st
  rw [h.blocks.mem_iff, List.mem_filterMap]
  constructor
  · rintro ⟨a, haM, ha⟩
    obtain ⟨r, hr, -⟩ := Option.map_eq_some_iff.mp ha
    exact ⟨a, (h.live a).mp (mem_of_lookup hr), ownStack_eq_some.mpr ⟨haM, ha⟩⟩
  · rintro ⟨a, -, ha⟩
    exact ⟨a, ownStack_eq_some.mp ha⟩

/-- The fibers of the list are those that have ended, the current one and the others. -/
theorem perm_ended (m : Mem κ) (l : List Addr) :
    (m.currentFiber :: l).Perm (l.filter m.finished ++ m.currentFiber :: l.filter fun a => !m.finished a) :=
  ((List.filter_append_perm m.finished l).symm.cons _).trans List.perm_middle.symm

/-- **The sweep, with what it frees.** -/
theorem WF.sweeps (h : WF m l) : ∃ m', freeFinishedFibers m = .ok m' ∧ WF m' (l.filter fun a => !m.finished a) ∧
    m'.currentFiber = m.currentFiber ∧ m.heap.keys.Perm (l.filter m.finished ++ m'.heap.keys) ∧
    m.stackBlocks.Perm ((l.filter m.finished).filterMap m.stackOf ++ m'.stackBlocks) ∧
    ∀ a ∈ m'.heap, m'.core a = m.core a := by
  obtain ⟨m', hfree, hwf, hcur, hcore, -⟩ := freeFinishedFibers_spec h
  have hended := perm_ended m l
  refine ⟨m', hfree, hwf, hcur, ?_, ?_, hcore⟩
  · have hkeys := hwf.perm_keys
    rw [hcur] at hkeys
    exact (h.perm_keys.trans hended).trans (hkeys.symm.append_left _)
  · have hstacks := hwf.perm_stacks
    rw [hcur] at hstacks
    have hspawned : (l.filter m.finished).filterMap (ownStack m) = (l.filter m.finished).filterMap m.stackOf := by
      apply List.filterMap_congr
      intro a ha
      have haM : a ≠ Main := fun he => by
        have hfin := (List.mem_filter.mp ha).2
        rw [he, h.main.2] at hfin
        exact Bool.false_ne_true hfin
      exact if_neg haM
    have hkept : (m.currentFiber :: l.filter fun a => !m.finished a).filterMap (ownStack m) =
        (m.currentFiber :: l.filter fun a => !m.finished a).filterMap (ownStack m') := by
      apply List.filterMap_congr
      intro a ha
      have hmem : a ∈ m'.heap := (hwf.live a).mpr (by rwa [hcur])
      unfold ownStack
      rw [stackOf_of_core (hcore a hmem)]
    have hall := h.perm_stacks.trans (hended.filterMap (ownStack m))
    rw [List.filterMap_append, hspawned, hkept] at hall
    exact hall.trans (hstacks.symm.append_left _)

theorem WF.swept (lib : Lib) (prep : κ → Addr → κ) (h : WF m l) : Swept lib prep m l where
  ring := h.ring
  live := h.live
  spawns f args fiber stack junk hf hfiber hfiber0 hstack hstack0 := by
    obtain ⟨m', hrun, hwf, hcur, -⟩ := fiberSpawn_spec lib prep args junk h hf hfiber hfiber0 hstack hstack0
    exact ⟨m', hrun, hcur, hcur ▸ hwf.ring⟩
  sweeps := by
    obtain ⟨m', hfree, hwf, hcur, hkeys, hstacks, hcore⟩ := h.sweeps
    exact ⟨m', hfree, hcur, hcur ▸ hwf.ring, hkeys, hstacks, hcore⟩

end

/-! ### The lists that are reached -/

/-- No call yet, or a list. -/
def Reached (m : Mem κ) : Prop := Unstarted m ∨ ∃ l, WF m l

section

variable {m : Mem κ} {l : List Addr} (lib : Lib) (prep : κ → Addr → κ)

theorem Reached.started (h : Reached m) : ∃ m' l, initMainFiber lib m = .ok m' ∧ WF m' l ∧
    (∀ a, a ∈ m'.heap ↔ a ∈ m.heap) ∧ m'.stackBlocks = m.stackBlocks := by
  rcases h with h | ⟨l, h⟩
  · obtain ⟨m', hinit, hwf, hcur, hblocks, -⟩ := initMainFiber_unstarted lib h
    refine ⟨m', [], hinit, hwf, fun a => ?_, hblocks.trans h.blocks.symm⟩
    rw [hwf.live, h.live, hcur, List.mem_singleton]
  · exact ⟨m, l, initMainFiber_started lib h.current_ne, h, fun _ => Iff.rfl, rfl⟩

theorem Reached.spawn (h : Reached m) {f args fiber stack : Addr} {junk : κ} (ha : Allowed m (.spawn f args fiber stack junk)) :
    ∃ m', fiberSpawn lib prep f args fiber stack junk m = .ok m' ∧ Reached m' := by
  by_cases hf : f = NULL
  · exact ⟨m, if_pos hf, h⟩
  · obtain ⟨⟨hfiber, hfiber0⟩, hstack, hstack0⟩ := ha.resolve_left hf
    obtain ⟨m₁, l, hinit, hwf, hlive, hblocks⟩ := h.started lib
    obtain ⟨m', hrun, hwf', -⟩ := fiberSpawn_spec lib prep args junk hwf hf (fun hm => hfiber ((hlive fiber).mp hm)) hfiber0
      (hblocks ▸ hstack) hstack0
    exact ⟨m', (fiberSpawn_start lib prep f args fiber stack junk hinit hwf.current_ne hf).trans hrun, Or.inr ⟨_, hwf'⟩⟩

/-- The turn goes to the next fiber that has not ended, if there is one. -/
theorem Reached.yieldRing (h : Reached m) : ∃ p, Fibers.yieldRing lib m = .ok p ∧ Reached p.1 := by
  obtain ⟨m₁, l, hinit, hwf₁, -⟩ := h.started lib
  obtain ⟨m', hfree, hwf, -⟩ := hwf₁.sweeps
  obtain ⟨r, hr, -, hget⟩ := hwf.lookup List.mem_cons_self
  have hnext := hwf.ring.next_head
  rw [next_of_lookup hr, Option.some.injEq] at hnext
  simp only [Fibers.yieldRing, hinit, hfree, hget, ok_bind, pure_eq]
  by_cases hsame : r.next = m'.currentFiber
  · rw [if_pos hsame]
    exact ⟨_, rfl, Or.inr ⟨_, hwf⟩⟩
  · rw [if_neg hsame]
    refine ⟨_, rfl, Or.inr ?_⟩
    rcases hl : l.filter fun a => !m₁.finished a with _ | ⟨d, w⟩
    · rw [hl] at hnext
      exact absurd hnext hsame
    · rw [hl] at hwf hnext
      have hd : r.next = d := hnext
      rw [hd]
      exact ⟨_, hwf.rotate⟩

theorem Reached.finish (h : Reached m) {a : Addr} (ha : Allowed m (.finish a)) :
    ∃ m', edit lib prep m (.finish a) = .ok m' ∧ Reached m' := by
  obtain ⟨haM, hmem⟩ := ha
  rcases h with h | ⟨l, h⟩
  · exact absurd ((h.live a).mp hmem) haM
  · obtain ⟨r, hr, -, hget⟩ := h.lookup ((h.live a).mp hmem)
    refine ⟨m.put a { r with finished := true }, ?_, Or.inr ⟨l, h.put hr rfl rfl fun hM => absurd hM haM⟩⟩
    simp only [edit, hget, ok_bind, pure_eq]

theorem Reached.edit (h : Reached m) {e : Edit κ} (he : Allowed m e) : ∃ m', Fibers.edit lib prep m e = .ok m' ∧ Reached m' := by
  cases e with
  | spawn f args fiber stack junk => exact h.spawn lib prep he
  | yield =>
    obtain ⟨p, hp, hreached⟩ := h.yieldRing lib
    exact ⟨p.1, by simp only [Fibers.edit, hp, ok_bind, pure_eq], hreached⟩
  | finish a => exact h.finish lib prep he

/-- **The loops end.** Whatever the calls, and whichever fibers have ended: no walk along the list goes on for ever or leaves it, the
tail is found, and the sweep frees the fibers that have ended, but for the current one, each once, and keeps the others in
their order. -/
theorem loops_end (zero : κ) (es : List (Edit κ)) (hes : Along (Fibers.edit lib prep) Allowed (startMem zero) es) :
    Sat (fun m => ∃ m' l, initMainFiber lib m = .ok m' ∧ Swept lib prep m' l) (fun _ => False)
      (run (Fibers.edit lib prep) (startMem zero) es) := by
  have hstep : ∀ (m : Mem κ) (e : Edit κ), Reached m → Allowed m e → Sat Reached (fun _ => False) (Fibers.edit lib prep m e) := by
    intro m e h he
    obtain ⟨m', hm, h'⟩ := h.edit lib prep he
    rw [hm]
    exact h'
  apply (run_sat hstep es (Or.inl (startMem_unstarted zero)) hes).mono _ fun _ => id
  intro m h
  obtain ⟨m', l, hinit, hwf, -⟩ := h.started lib
  exact ⟨m', l, hinit, hwf.swept lib prep⟩

end

/-- Four fibers, of which two neighbours and later the current one end. -/
def someEnd : List (Edit Unit) :=
  [.spawn 7 0 2 102 (), .spawn 7 0 3 103 (), .spawn 7 0 4 104 (), .spawn 7 0 5 105 (), .finish 3, .finish 4, .yield, .finish 2]

theorem loops_end_some : Sat (fun m => ∃ m' l, initMainFiber .fibers m = .ok m' ∧ Swept .fibers (fun _ _ => ()) m' l)
    (fun _ => False) (run (edit .fibers fun _ _ => ()) (startMem ()) someEnd) :=
  loops_end .fibers (fun _ _ => ()) () someEnd (by decide +kernel)

end Fibers
end OsLabs
