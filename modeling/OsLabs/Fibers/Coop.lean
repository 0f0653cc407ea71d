/-
# One event at a time

What each event does to a state of the invariant, in terms of the fiber that
runs and the unfinished fibers that wait behind it (`Leads`): `FiberSpawn`
appends to them, `FiberYield` gives the turn to their head and puts the
caller behind them, a fiber that returns gives the turn away for good, and
`FiberTryJoin` says whether there are any. A record or a stack goes only when
its fiber has finished, while another one runs (`Frees`).

`cooperative_safe` puts the events together for the cooperative library: in every
run the list is one cycle of exactly the allocated records, the code that
runs is `CurrentFiber`'s, and no step fails unless `malloc` does.
-/
import OsLabs.Fibers.Machine

namespace OsLabs
namespace Fibers

open Mem

variable {ρ : Type} {s : State ρ} {l : List Addr}

/-- What leaves the memory between `s` and `s'`: records of finished fibers
other than the one that runs, and their stacks. -/
structure Frees (s s' : State ρ) : Prop where
  record : ∀ a ∈ s.mem.heap, a ∉ s'.mem.heap → a ≠ s.fiber ∧ s.mem.finished a = true
  stack : ∀ st ∈ s.mem.stackBlocks, st ∉ s'.mem.stackBlocks →
    ∃ a ∈ s.mem.heap, a ≠ s.fiber ∧ s.mem.finished a = true ∧ s.mem.stackOf a = some st

/-- An event has led from `s` to `s'`, where `c` runs and `q` waits. -/
structure Leads (s s' : State ρ) (c : Addr) (q : List Addr) : Prop where
  inv : ∃ l, Inv s' l ∧ waiting s'.mem l = q
  fiber : s'.fiber = c
  frees : Frees s s'

theorem waiting_congr {m m' : Mem (Context ρ)} (h : ∀ a ∈ l, m'.finished a = m.finished a) :
    waiting m' l = waiting m l := List.filter_congr fun a ha => by rw [h a ha]

theorem waiting_waiting {m m' : Mem (Context ρ)} (h : ∀ a ∈ waiting m l, m'.finished a = m.finished a) :
    waiting m' (waiting m l) = waiting m l := by
  rw [waiting_congr h]
  exact List.filter_eq_self.mpr fun a ha => (List.mem_filter.mp ha).2

/-- Nothing is freed when nothing leaves. -/
theorem Frees.of_subset {s' : State ρ} (h : ∀ a ∈ s.mem.heap, a ∈ s'.mem.heap)
    (hb : ∀ st ∈ s.mem.stackBlocks, st ∈ s'.mem.stackBlocks) : Frees s s' :=
  ⟨fun a ha hn => absurd (h a ha) hn, fun st hs hn => absurd (hb st hs) hn⟩

/-- After a sweep of `l`, exactly what was finished in `l` has left. -/
theorem Frees.of_kept {s' : State ρ} {m : Mem (Context ρ)} {l' : List Addr} (hwf : WF m l)
    (hc : m.currentFiber = s.fiber) (hlive : ∀ a, a ∈ m.heap ↔ a ∈ s.mem.heap)
    (hblk : m.stackBlocks = s.mem.stackBlocks) (hfin : ∀ a ∈ l, m.finished a = s.mem.finished a)
    (hstk : ∀ a ∈ l, m.stackOf a = s.mem.stackOf a) (hwf' : WF s'.mem l')
    (hin : ∀ a, a ∈ m.currentFiber :: waiting m l → a ∈ s'.mem.currentFiber :: l') (hk : Kept m s'.mem l) :
    Frees s s' := by
  have hne : ∀ a ∈ l, a ≠ s.fiber := fun a ha he =>
    (List.nodup_cons.mp hwf.ring.nodup).1 (by rw [hc, ← he]; exact ha)
  refine ⟨fun a ha hn => ?_, fun st hs hn => ?_⟩
  · have ham := (hwf.live a).mp ((hlive a).mpr ha)
    have hnw : a ∉ m.currentFiber :: waiting m l := fun h => hn ((hwf'.live a).mpr (hin a h))
    simp only [List.mem_cons, not_or] at ham hnw
    have hal : a ∈ l := ham.resolve_left hnw.1
    refine ⟨hne a hal, ?_⟩
    rw [← hfin a hal]
    by_contra hf
    exact hnw.2 (List.mem_filter.mpr ⟨hal, by simpa using hf⟩)
  · obtain ⟨a, ha, hf, hst⟩ := hk.freed st (hblk ▸ hs) hn
    exact ⟨a, (hlive a).mp ((hwf.live a).mpr (List.mem_cons_of_mem _ ha)), hne a ha, by rw [← hfin a ha, hf],
      by rw [← hstk a ha, hst]⟩

/-! ### A call begins with `InitMainFiber` -/

theorem fiberSpawn_start (lib : Lib) {κ : Type} {m m' : Mem κ} (prep : κ → Addr → κ) (f args a st : Addr) (junk : κ)
    (h : initMainFiber lib m = .ok m') (h' : m'.currentFiber ≠ NULL) (hf : f ≠ NULL) :
    fiberSpawn lib prep f args a st junk m = fiberSpawn lib prep f args a st junk m' := by
  simp only [fiberSpawn, if_neg hf, h, initMainFiber_started lib h']

theorem fiberYield_start (lib : Lib) (ret : Point) {m : Mem (Context ρ)} (h : initMainFiber lib s.mem = .ok m)
    (h' : m.currentFiber ≠ NULL) : fiberYield lib ret s = fiberYield lib ret { s with mem := m } := by
  simp only [fiberYield, h, initMainFiber_started lib h']

/-! ### The events -/

theorem work_leads (lib : Lib) (h : Inv s l) (regs : ρ) :
    ∃ s', step lib s (.work regs) = .ok s' ∧ s'.joined = none ∧ Leads s s' s.fiber (waiting s.mem l) := by
  refine ⟨_, rfl, rfl, ⟨l, ?_, rfl⟩, rfl, .of_subset (fun _ ha => ha) fun _ hs => hs⟩
  rcases h with h | ⟨hwf, hrun⟩
  · exact Or.inl h
  · exact Or.inr ⟨hwf, hrun.stack, hrun.alive, hrun.stopped⟩

theorem spawn_null (lib : Lib) (h : Inv s l) (args a st : Addr) (junk : Context ρ) :
    ∃ s', step lib s (.spawn NULL args a st junk) = .ok s' ∧ s'.joined = none ∧
      Leads s s' s.fiber (waiting s.mem l) := by
  refine ⟨{ s with joined := none }, by simp [step, fiberSpawn], rfl, ⟨l, ?_, rfl⟩, rfl,
    .of_subset (fun _ ha => ha) fun _ hs => hs⟩
  rcases h with h | ⟨hwf, hrun⟩
  · exact Or.inl h
  · exact Or.inr ⟨hwf, hrun.stack, hrun.alive, hrun.stopped⟩

/-- A `malloc` that fails makes `FiberSpawn` write through a null pointer. -/
theorem spawn_fails (lib : Lib) (h : Inv s l) {f a st : Addr} (args : Addr) (junk : Context ρ) (hf : f ≠ NULL)
    (hm : a = NULL ∨ st = NULL) : step lib s (.spawn f args a st junk) = .error .null := by
  obtain ⟨m, hinit, -⟩ := h.start lib
  simp [step, fiberSpawn, hf, hinit, hm]

/-- `FiberSpawn` appends the new fiber, and the caller runs on. -/
theorem spawn_leads (lib : Lib) (h : Inv s l) {f a st : Addr} (args : Addr) (junk : Context ρ) (hf : f ≠ NULL)
    (ha : a ∉ s.mem.heap) (ha0 : a ≠ NULL) (hst : st ∉ s.mem.stackBlocks) (hst0 : st ≠ NULL) :
    ∃ s', step lib s (.spawn f args a st junk) = .ok s' ∧ s'.joined = none ∧
      Leads s s' s.fiber (waiting s.mem l ++ [a]) := by
  obtain ⟨m, hinit, hwf, hrun, hcur, hblk, hlive, hcore⟩ := h.start lib
  obtain ⟨m', hspawn, hwf', hcur', hblk', hcore', hnew⟩ := fiberSpawn_spec lib prepareStack args junk hwf hf
    (fun hm => ha ((hlive a).mp hm)) ha0 (hblk.symm ▸ hst) hst0
  have hold : ∀ b ∈ m.currentFiber :: l, b ≠ a := fun b hb he =>
    ha ((hlive a).mp ((hwf.live a).mpr (he ▸ hb)))
  have hfin : ∀ b ∈ l, m'.finished b = s.mem.finished b := fun b hb =>
    (finished_of_core (hcore' b (hold b (List.mem_cons_of_mem _ hb)))).trans (finished_of_core (hcore b hb))
  obtain ⟨v, hlook, -⟩ := core_eq_some.mp hnew
  refine ⟨{ s with mem := m', joined := none }, ?_, rfl, ⟨l ++ [a], Or.inr ⟨hwf', ?_, ?_, ?_⟩, ?_⟩, ?_, ?_⟩
  · simp only [step, fiberSpawn_start lib prepareStack f args a st junk hinit hwf.current_ne hf, hspawn, ok_bind,
      pure_eq]
  · show m'.stackOf m'.currentFiber = _
    rw [hcur', stackOf_of_core (hcore' _ (hold _ List.mem_cons_self))]
    exact hrun.stack
  · show m'.finished m'.currentFiber = _
    rw [hcur', finished_of_core (hcore' _ (hold _ List.mem_cons_self))]
    exact hrun.alive
  · intro b hb
    rcases List.mem_append.mp hb with hb | hb
    · exact (hrun.stopped b hb).of_core (hcore' b (hold b (List.mem_cons_of_mem _ hb)))
    · intro r hr
      rw [List.mem_singleton.mp hb] at hr
      change m'.heap.lookup a = some r at hr
      rw [hlook] at hr
      cases hr
      exact ⟨rfl, by simp [newFiber, prepareStack]⟩
  · show waiting m' (l ++ [a]) = _
    have hfa : m'.finished a = false := by rw [finished_eq hlook]; rfl
    rw [waiting, List.filter_append]
    change waiting m' l ++ _ = _
    rw [waiting_congr hfin]
    simp [hfa]
  · show (if m'.currentFiber = NULL then Main else m'.currentFiber) = _
    rw [if_neg (by rw [hcur']; exact hwf.current_ne), hcur', hcur]
  · refine .of_subset (fun b hb => ?_) fun s' hs => ?_
    · refine (hwf'.live b).mpr ?_
      have := (hwf.live b).mp ((hlive b).mpr hb)
      rw [hcur', ← List.cons_append]
      exact List.mem_append_left _ this
    · show s' ∈ m'.stackBlocks
      rw [hblk', hblk]
      exact List.mem_cons_of_mem _ hs

/-- A fiber that yields, or returns with others waiting, gives the turn to the
head of the waiting fibers. -/
theorem yield_leads (lib : Lib) (h : Inv s l) :
    ∃ s', step lib s .yield = .ok s' ∧ s'.joined = none ∧
      Leads s s' (turn s.fiber (waiting s.mem l)).1 (turn s.fiber (waiting s.mem l)).2 := by
  obtain ⟨m, hinit, hwf, hrun, hcur, hblk, hlive, hcore⟩ := h.start lib
  have hw : waiting m l = waiting s.mem l := waiting_congr fun a ha => finished_of_core (hcore a ha)
  obtain ⟨s', hy, hj, hc', hwf', hrun', hk⟩ := fiberYield_spec lib .user
    (s := { s with mem := m, joined := none }) hwf hrun.stack (fun he => by cases he) hrun.stopped
    fun _ => ⟨rfl, hrun.alive⟩
  have hin : ∀ a, a ∈ m.currentFiber :: waiting m l →
      a ∈ s'.mem.currentFiber :: (turn m.currentFiber (waiting m l)).2 := by
    intro a ha
    rw [hc']
    cases hq : waiting m l with
    | nil => rw [hq] at ha; exact ha
    | cons d q => rw [hq] at ha; exact Ring.mem_rotate.mpr ha
  have hunf : ∀ a ∈ (turn m.currentFiber (waiting m l)).2, s'.mem.finished a = false := by
    intro a ha
    have hah : a ∈ s'.mem.heap := (hwf'.live a).mpr (List.mem_cons_of_mem _ ha)
    rw [hk.finished a hah]
    have hmem : a = m.currentFiber ∨ a ∈ waiting m l := by
      cases hq : waiting m l with
      | nil => rw [hq] at ha; cases ha
      | cons d q =>
        rw [hq] at ha
        simp only [turn, List.mem_append, List.mem_cons, List.not_mem_nil, or_false] at ha ⊢
        tauto
    rcases hmem with rfl | hmem
    · exact hrun.alive
    · simpa using (List.mem_filter.mp hmem).2
  rw [← hcur, ← hw]
  refine ⟨s', ?_, hj, ⟨_, Or.inr ⟨hwf', hrun'⟩, ?_⟩, ?_, ?_⟩
  · have hy' := fiberYield_start lib .user (s := { s with joined := none }) hinit hwf.current_ne
    exact hy'.trans hy
  · exact List.filter_eq_self.mpr fun a ha => by simp [hunf a ha]
  · rw [Running.fiber hwf', hc']
  · exact .of_kept hwf hcur hlive hblk (fun a ha => finished_of_core (hcore a ha))
      (fun a ha => stackOf_of_core (hcore a ha)) hwf' hin hk

/-- `FiberTryJoin` sweeps, and says whether nobody waits. -/
theorem tryJoin_leads (lib : Lib) (h : Inv s l) :
    ∃ s', step lib s .tryJoin = .ok s' ∧ s'.joined = some (decide (waiting s.mem l = [])) ∧
      Leads s s' s.fiber (waiting s.mem l) := by
  obtain ⟨m, hinit, hwf, hrun, hcur, hblk, hlive, hcore⟩ := h.start lib
  have hw : waiting m l = waiting s.mem l := waiting_congr fun a ha => finished_of_core (hcore a ha)
  obtain ⟨m', hfree, hwf', hcur', hcore', hblk'⟩ := freeFinishedFibers_spec hwf
  change WF m' (waiting m l) at hwf'
  obtain ⟨r, hr, -, hget⟩ := hwf'.lookup List.mem_cons_self
  have hnext : r.next = m'.currentFiber ↔ waiting m l = [] := by
    have := hwf'.ring.next_eq_self
    rw [next_of_lookup hr] at this
    simpa using this
  have hmem : ∀ a ∈ waiting m l, a ∈ m'.heap := fun a ha => (hwf'.live a).mpr (List.mem_cons_of_mem _ ha)
  have hcm : m'.core m'.currentFiber = m.core m.currentFiber := by
    rw [hcore' _ (mem_of_lookup hr), hcur']
  refine ⟨{ s with mem := m', joined := some (decide (waiting s.mem l = [])) }, ?_, rfl,
    ⟨waiting m l, Or.inr ⟨hwf', ?_, ?_, fun a ha => ?_⟩, ?_⟩, ?_, ?_⟩
  · simp only [step, fiberTryJoin, hinit, hfree, hget, ok_bind, pure_eq, hnext, hw]
  · show m'.stackOf m'.currentFiber = _
    rw [hcur'] at hcm ⊢
    rw [stackOf_of_core hcm]
    exact hrun.stack
  · show m'.finished m'.currentFiber = _
    rw [hcur'] at hcm ⊢
    rw [finished_of_core hcm]
    exact hrun.alive
  · exact (hrun.stopped a (List.mem_filter.mp ha).1).of_core (hcore' a (hmem a ha))
  · rw [← hw]
    exact waiting_waiting fun a ha => finished_of_core (hcore' a (hmem a ha))
  · rw [Running.fiber (s := { s with mem := m', joined := _ }) hwf']
    exact hcur'.trans hcur
  · exact .of_kept hwf hcur hlive hblk (fun a ha => finished_of_core (hcore a ha))
      (fun a ha => stackOf_of_core (hcore a ha)) hwf' (fun a ha => by rw [← hcur'] at ha; exact ha)
      ⟨fun a ha => finished_of_core (hcore' a ha), fun a ha => stackOf_of_core (hcore' a ha), hblk'⟩

/-- The main fiber waits whenever another one runs. -/
theorem main_waits (h : Inv s l) (hst : s.stack ≠ NULL) :
    s.mem.currentFiber ≠ NULL ∧ s.fiber ≠ Main ∧ Main ∈ waiting s.mem l := by
  rcases h with ⟨-, h0, -⟩ | ⟨hwf, hrun⟩
  · exact absurd h0 hst
  · have hM : Main ∈ s.mem.heap := by
      by_contra hn
      have := hwf.main.1
      rw [stackOf, AList.lookup_eq_none.mpr hn] at this
      cases this
    have hcM : s.mem.currentFiber ≠ Main := fun he => by
      have := hrun.stack
      rw [he, hwf.main.1] at this
      exact hst (Option.some.inj this).symm
    refine ⟨hwf.current_ne, by rwa [Running.fiber hwf], List.mem_filter.mpr ⟨?_, by simp [hwf.main.2]⟩⟩
    exact ((List.mem_cons.mp ((hwf.live _).mp hM)).resolve_left hcM.symm)

/-- A fiber whose function returns never runs again: the head of the waiting
fibers runs, and the rest wait. -/
theorem ret_leads (lib : Lib) (h : Inv s l) (hst : s.stack ≠ NULL) :
    ∃ s' d q, waiting s.mem l = d :: q ∧ step lib s .ret = .ok s' ∧ s'.joined = none ∧ Leads s s' d q := by
  obtain ⟨h0, hM, hwait⟩ := main_waits h hst
  obtain ⟨hwf, hrun⟩ := h.resolve_left fun hu => h0 hu.1.current
  obtain ⟨d, q, hq⟩ := List.exists_cons_of_ne_nil (List.ne_nil_of_mem hwait)
  obtain ⟨r, hr, -, hget⟩ := hwf.lookup List.mem_cons_self
  rw [Running.fiber hwf] at hM
  set c := s.mem.currentFiber with hc
  set m := s.mem.put c { r with finished := true } with hm
  have hwf₁ : WF m l := hwf.put hr rfl rfl fun he => absurd he hM
  have hlc : ∀ a ∈ l, a ≠ c := fun a ha he => (List.nodup_cons.mp hwf.ring.nodup).1 (by rw [← hc, ← he]; exact ha)
  have hlook : ∀ a ∈ l, m.heap.lookup a = s.mem.heap.lookup a := fun a ha => by
    rw [hm, lookup_put, if_neg (hlc a ha)]
  have hfin : ∀ a ∈ l, m.finished a = s.mem.finished a := fun a ha => by
    rw [Mem.finished, Mem.finished, hlook a ha]
  have hw : waiting m l = d :: q := by rw [waiting_congr hfin, hq]
  have hcr : m.heap.lookup c = some { r with finished := true } := by rw [hm, lookup_put, if_pos rfl]
  obtain ⟨s', hy, hj, hc', hwf', hrun', hk⟩ := fiberYield_spec lib .final (s := { s with mem := m, joined := none })
    hwf₁ (by
      show m.stackOf c = _
      rw [stackOf, hcr]
      have := hrun.stack
      rw [stackOf, hr] at this
      exact this)
    (fun _ => finished_eq hcr) (fun a ha r' hr' => hrun.stopped a ha r' (by rw [← hlook a ha]; exact hr'))
    (fun he => by
      change waiting m l = [] at he
      rw [hw] at he
      cases he)
  change s'.mem.currentFiber = (turn c (waiting m l)).1 at hc'
  change WF s'.mem (turn c (waiting m l)).2 at hwf'
  change Running s' (turn c (waiting m l)).2 at hrun'
  rw [hw] at hc' hwf' hrun'
  simp only [turn] at hc' hwf' hrun'
  have hunf : ∀ a ∈ q, s'.mem.finished a = false := fun a ha => by
    have haw : a ∈ waiting m l := by rw [hw]; exact List.mem_cons_of_mem _ ha
    have hah : a ∈ s'.mem.heap := (hwf'.live a).mpr (List.mem_cons_of_mem _ (List.mem_append_left _ ha))
    rw [hk.finished a hah]
    simpa using (List.mem_filter.mp haw).2
  have hcf : s'.mem.finished c = true := by
    rw [hk.finished c ((hwf'.live c).mpr (by simp))]
    exact finished_eq hcr
  refine ⟨s', d, q, hq, ?_, hj, ⟨q ++ [c], Or.inr ⟨hwf', hrun'⟩, ?_⟩, ?_, ?_⟩
  · simp only [step, fiberReturn]
    rw [← hc, hget, ok_bind]
    exact hy
  · rw [waiting, List.filter_append, List.filter_eq_self.mpr fun a ha => by simp [hunf a ha]]
    simp [hcf]
  · rw [Running.fiber hwf', hc']
  · refine .of_kept hwf₁ (Running.fiber hwf).symm (fun a => ?_) rfl hfin (fun a ha => ?_) hwf' (fun a ha => ?_) hk
    · simp only [hm, Mem.put, AList.mem_insert, or_iff_right_iff_imp]
      rintro rfl
      exact mem_of_lookup hr
    · rw [stackOf, stackOf, hlook a ha]
    · change a ∈ c :: waiting m l at ha
      rw [hw] at ha
      rw [hc']
      exact Ring.mem_rotate.mpr ha

/-! ### The cooperative library -/

open Run

/-- A step of the cooperative library keeps the invariant, gives the processor
to an unfinished fiber, and fails only when `malloc` does. -/
theorem cooperative_step (lib : Lib) (h : Inv s l) (e : Event ρ) (he : Cooperative s e) :
    Sat (fun s' => (∃ l', Inv s' l') ∧ Frees s s') (fun x => x = .null ∧ MallocFails e) (step lib s e) := by
  have hleads : ∀ {s' c q}, step lib s e = .ok s' → Leads s s' c q →
      Sat (fun s' => (∃ l', Inv s' l') ∧ Frees s s') (fun x => x = .null ∧ MallocFails e) (step lib s e) := by
    rintro s' c q hs hl
    rw [hs]
    exact ⟨hl.inv.imp fun _ h => h.1, hl.frees⟩
  cases e with
  | work regs =>
    obtain ⟨s', hs, -, hl⟩ := work_leads lib h regs
    exact hleads hs hl
  | spawn f args a st junk =>
    by_cases hf : f = NULL
    · subst hf
      obtain ⟨s', hs, -, hl⟩ := spawn_null lib h args a st junk
      exact hleads hs hl
    · by_cases hm : a = NULL ∨ st = NULL
      · rw [spawn_fails lib h args junk hf hm]
        exact ⟨rfl, hf, hm⟩
      · rw [not_or] at hm
        obtain ⟨s', hs, -, hl⟩ := spawn_leads lib h args junk hf (he.1.resolve_left hm.1) hm.1
          (he.2.resolve_left hm.2) hm.2
        exact hleads hs hl
  | yield =>
    obtain ⟨s', hs, -, hl⟩ := yield_leads lib h
    exact hleads hs hl
  | tryJoin =>
    obtain ⟨s', hs, -, hl⟩ := tryJoin_leads lib h
    exact hleads hs hl
  | ret =>
    obtain ⟨s', d, q, -, hs, -, hl⟩ := ret_leads lib h he
    exact hleads hs hl
  | tick => exact he.elim

/-- What the records look like between two events: before the first call there
is only `Main`; from then on `CurrentFiber` enters one cycle of exactly the
records that are allocated, `Main` among them. The code that runs is on the
stack of an unfinished fiber, which is `CurrentFiber`. -/
structure Sound (s : State ρ) : Prop where
  list : (s.mem.currentFiber = NULL ∧ ∀ a, a ∈ s.mem.heap ↔ a = Main) ∨
    ∃ l, Ring s.mem.next s.mem.currentFiber l ∧ Main ∈ s.mem.currentFiber :: l ∧
      ∀ a, a ∈ s.mem.heap ↔ a ∈ s.mem.currentFiber :: l
  alive : s.mem.stackOf s.fiber = some s.stack ∧ s.mem.finished s.fiber = false

theorem Inv.sound (h : Inv s l) : Sound s := by
  refine ⟨?_, h.alive.2.2, h.alive.2.1⟩
  rcases h with ⟨hu, -, -⟩ | ⟨hwf, -⟩
  · exact Or.inl ⟨hu.current, hu.live⟩
  · refine Or.inr ⟨l, hwf.ring, (hwf.live Main).mp ?_, hwf.live⟩
    by_contra hn
    have := hwf.main.1
    rw [stackOf, AList.lookup_eq_none.mpr hn] at this
    cases this

/-- **The ring, the frees, the assertion.** In every state a program reaches
the records are one cycle and the running code is `CurrentFiber`'s; its next
step frees only what finished fibers other than the running one own, gives the
processor to an unfinished fiber, and fails (with a null pointer, never at
`assert(0)`, at a stale pointer or at a double free) only if `malloc` fails. -/
theorem cooperative_safe (zero : Context Saved) (regs : Saved) (es : List (Event Saved)) (s : State Saved)
    (hes : Along (step .fibers) Cooperative (init zero regs) es)
    (hrun : run (step .fibers) (init zero regs) es = .ok s) :
    Sound s ∧ ∀ e, Cooperative s e →
      Sat (fun s' => Frees s s' ∧ Sound s') (fun x => x = .null ∧ MallocFails e) (step .fibers s e) := by
  have hkeep : ∀ (s : State Saved) e s', (∃ l, Inv s l) → Cooperative s e → step .fibers s e = .ok s' →
      ∃ l, Inv s' l := by
    rintro s e s' ⟨l, h⟩ he hs
    have hstep := cooperative_step .fibers h e he
    rw [hs] at hstep
    exact hstep.1
  obtain ⟨l, hl⟩ := run_inv hkeep es ⟨[], init_inv zero regs⟩ hes hrun
  refine ⟨hl.sound, fun e he => ?_⟩
  have hstep := cooperative_step .fibers hl e he
  cases hs : step .fibers s e with
  | ok s' =>
    rw [hs] at hstep
    obtain ⟨⟨l', hl'⟩, hfree⟩ := hstep
    exact ⟨hfree, hl'.sound⟩
  | error x =>
    rw [hs] at hstep
    exact hstep

/-- `main` spawns a fiber, yields to it, the fiber returns, and `main` joins. -/
def oneFiber : List (Event Saved) :=
  [.spawn 100 7 2 3 ⟨⟨0, .user⟩, ⟨0, 0, 0, 0, 0, 0⟩⟩, .yield, .ret, .tryJoin]

theorem cooperative_safe_oneFiber : ∃ s : State Saved, s.joined = some true ∧ s.mem.stackBlocks = [] ∧ Sound s :=
  ⟨_, rfl, rfl, (cooperative_safe ⟨⟨0, .user⟩, ⟨0, 0, 0, 0, 0, 0⟩⟩ ⟨0, 0, 0, 0, 0, 0⟩ oneFiber _
    (by decide) rfl).1⟩

end Fibers
end OsLabs
