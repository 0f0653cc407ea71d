/-
# What the calls do to the list

`WF m l` says that the records of `m` are exactly the cycle `CurrentFiber :: l`,
each fiber once, and that the allocated stacks are exactly theirs. On such a
memory `FiberSpawn` appends the new fiber to `l` (`fiberSpawn_spec`) and
`FreeFinishedFibers` filters the finished ones out of `l`
(`freeFinishedFibers_spec`); both end, and neither touches anything else of a
record that stays than its link.
-/
import OsLabs.Fibers.Fiber

namespace OsLabs
namespace Fibers

open Mem

variable {κ : Type} {m : Mem κ} {l : List Addr}

/-- The allocated stacks are those of the fibers other than `Main`, one each. -/
structure Stacks (m : Mem κ) : Prop where
  nodup : m.stackBlocks.Nodup
  null : NULL ∉ m.stackBlocks
  mem_iff : ∀ st, st ∈ m.stackBlocks ↔ ∃ a, a ≠ Main ∧ m.stackOf a = some st
  inj : ∀ a b st, a ≠ Main → b ≠ Main → m.stackOf a = some st → m.stackOf b = some st → a = b

/-- The records form the cycle `CurrentFiber :: l`. -/
structure WF (m : Mem κ) (l : List Addr) : Prop where
  ring : Ring m.next m.currentFiber l
  live : ∀ a, a ∈ m.heap ↔ a ∈ m.currentFiber :: l
  null : NULL ∉ m.heap
  main : m.stackOf Main = some NULL ∧ m.finished Main = false
  blocks : Stacks m

/-- Before the first call: only `Main`, and nobody is current. -/
structure Unstarted (m : Mem κ) : Prop where
  current : m.currentFiber = NULL
  live : ∀ a, a ∈ m.heap ↔ a = Main
  main : m.stackOf Main = some NULL ∧ m.finished Main = false
  blocks : m.stackBlocks = []

/-- The memory before the first call: a zero `Main`. -/
def startMem (zero : κ) : Mem κ where
  currentFiber := NULL
  heap := AList.singleton Main
    { context := zero, next := NULL, f := NULL, args := NULL, stack := NULL, finished := false }
  stackBlocks := []

theorem startMem_unstarted (zero : κ) : Unstarted (startMem zero) := by
  refine ⟨rfl, fun a => ?_, ?_, rfl⟩
  · rw [← AList.mem_keys.symm]
    simp [startMem]
  · simp [startMem, stackOf, Mem.finished, AList.singleton, AList.lookup]

theorem WF.lookup (h : WF m l) {a : Addr} (ha : a ∈ m.currentFiber :: l) :
    ∃ r, m.heap.lookup a = some r ∧ a ≠ NULL ∧ m.get a = .ok r := by
  have hm := (h.live a).mpr ha
  obtain ⟨r, hr⟩ := exists_of_mem hm
  have hn : a ≠ NULL := fun he => h.null (he ▸ hm)
  exact ⟨r, hr, hn, get_ok hn hr⟩

theorem WF.current_ne (h : WF m l) : m.currentFiber ≠ NULL := by
  obtain ⟨-, -, hn, -⟩ := h.lookup List.mem_cons_self
  exact hn

theorem WF.length_le (h : WF m l) : l.length < m.fuel := by
  have hsub : (m.currentFiber :: l).Subperm m.heap.keys :=
    h.ring.nodup.subperm fun a ha => AList.mem_keys.mp ((h.live a).mpr ha)
  have := hsub.length_le
  simpa [fuel] using this

theorem next_of_lookup {a : Addr} {r : Fiber κ} (h : m.heap.lookup a = some r) : m.next a = some r.next := by
  simp [next, h]

/-! ### The stacks -/

/-- A new fiber comes with a new stack. -/
theorem Stacks.cons {m' : Mem κ} {a st : Addr} (h : Stacks m) (ha : a ≠ Main) (hnone : m.stackOf a = none)
    (hst : st ∉ m.stackBlocks) (hst0 : st ≠ NULL) (hb : m'.stackBlocks = st :: m.stackBlocks)
    (hold : ∀ b, b ≠ a → m'.stackOf b = m.stackOf b) (hnew : m'.stackOf a = some st) : Stacks m' := by
  have hmem : ∀ b s, b ≠ Main → b ≠ a → m'.stackOf b = some s → s ∈ m.stackBlocks := fun b s hbM hba hs =>
    (h.mem_iff s).mpr ⟨b, hbM, by rw [← hs, hold b hba]⟩
  refine ⟨?_, ?_, fun s => ?_, fun b d s hbM hdM hsb hsd => ?_⟩
  · rw [hb]
    exact List.nodup_cons.mpr ⟨hst, h.nodup⟩
  · rw [hb, List.mem_cons, not_or]
    exact ⟨hst0.symm, h.null⟩
  · rw [hb, List.mem_cons, h.mem_iff]
    constructor
    · rintro (rfl | ⟨b, hbM, hs⟩)
      · exact ⟨a, ha, hnew⟩
      · have hba : b ≠ a := fun he => by rw [he, hnone] at hs; cases hs
        exact ⟨b, hbM, by rw [hold b hba, hs]⟩
    · rintro ⟨b, hbM, hs⟩
      by_cases hba : b = a
      · rw [hba, hnew] at hs
        exact Or.inl (Option.some.inj hs).symm
      · exact Or.inr ⟨b, hbM, by rw [← hold b hba, hs]⟩
  · by_cases hba : b = a <;> by_cases hda : d = a
    · rw [hba, hda]
    · rw [hba, hnew] at hsb
      cases hsb
      exact absurd (hmem d st hdM hda hsd) hst
    · rw [hda, hnew] at hsd
      cases hsd
      exact absurd (hmem b st hbM hba hsb) hst
    · exact h.inj b d s hbM hdM (by rw [← hsb, hold b hba]) (by rw [← hsd, hold d hda])

/-- A freed fiber takes its stack with it. -/
theorem Stacks.erase {m' : Mem κ} {a st : Addr} (h : Stacks m) (ha : a ≠ Main) (hst : m.stackOf a = some st)
    (hb : m'.stackBlocks = m.stackBlocks.erase st) (hold : ∀ b, b ≠ a → m'.stackOf b = m.stackOf b)
    (hnone : m'.stackOf a = none) : Stacks m' := by
  have hne : ∀ b s, m'.stackOf b = some s → b ≠ a := fun b s hs he => by
    rw [he, hnone] at hs; cases hs
  refine ⟨?_, ?_, fun s => ?_, fun b d s hbM hdM hsb hsd => ?_⟩
  · rw [hb]
    exact h.nodup.erase st
  · rw [hb]
    exact fun hm => h.null (List.mem_of_mem_erase hm)
  · rw [hb, h.nodup.mem_erase_iff, h.mem_iff]
    constructor
    · rintro ⟨hs, b, hbM, hsb⟩
      have hba : b ≠ a := fun he => by
        rw [he, hst] at hsb
        exact hs (Option.some.inj hsb).symm
      exact ⟨b, hbM, by rw [hold b hba, hsb]⟩
    · rintro ⟨b, hbM, hs⟩
      have hba := hne b s hs
      rw [hold b hba] at hs
      exact ⟨fun he => hba (h.inj b a st hbM ha (he ▸ hs) hst), b, hbM, hs⟩
  · rw [hold b (hne b s hsb)] at hsb
    rw [hold d (hne d s hsd)] at hsd
    exact h.inj b d s hbM hdM hsb hsd

/-! ### `InitMainFiber` -/

theorem initMainFiber_started (lib : Lib) (h : m.currentFiber ≠ NULL) : initMainFiber lib m = .ok m := by
  simp [initMainFiber, h]

/-- The first call makes `Main` the only fiber of the list. -/
theorem initMainFiber_unstarted (lib : Lib) (h : Unstarted m) :
    ∃ m', initMainFiber lib m = .ok m' ∧ WF m' [] ∧ m'.currentFiber = Main ∧ m'.stackBlocks = [] ∧
      ∀ r, m.heap.lookup Main = some r → ∃ r', m'.heap.lookup Main = some r' ∧ r'.context = r.context := by
  obtain ⟨r, hr⟩ := exists_of_mem ((h.live Main).mpr rfl)
  have hn : (Main : Addr) ≠ NULL := by decide
  obtain ⟨hst, hf⟩ := h.main
  rw [finished_eq hr] at hf
  rw [stackOf, hr] at hst
  obtain ⟨r', hnext, hstack, hfin, hctx, hrun⟩ : ∃ r' : Fiber κ, r'.next = Main ∧ r'.stack = NULL ∧ r'.finished = false ∧
      r'.context = r.context ∧ initMainFiber lib m = .ok { m.put Main r' with currentFiber := Main } := by
    cases lib with
    | fibers =>
      exact ⟨{ r with next := Main }, rfl, Option.some.inj hst, hf, rfl, by simp [initMainFiber, h.current, get_ok hn hr]⟩
    | pfibers =>
      exact ⟨{ r with next := Main, f := NULL }, rfl, Option.some.inj hst, hf, rfl,
        by simp [initMainFiber, h.current, get_ok hn hr]⟩
  set m' : Mem κ := { m.put Main r' with currentFiber := Main } with hm'
  have hlook : ∀ a, m'.heap.lookup a = if a = Main then some r' else m.heap.lookup a := fun a => lookup_put
  have hlive : ∀ a, a ∈ m'.heap ↔ a = Main := fun a => by
    simp only [hm', put, AList.mem_insert, h.live, or_self]
  have hother : ∀ a, a ≠ Main → m'.stackOf a = none := fun a ha => by
    rw [stackOf, AList.lookup_eq_none.mpr fun hm => ha ((hlive a).mp hm)]; rfl
  refine ⟨m', hrun, ⟨?_, ?_, ?_, ?_, ?_⟩, rfl, h.blocks, ?_⟩
  · refine Ring.single ?_
    show m'.next Main = some Main
    rw [next, hlook Main, if_pos rfl, Option.map_some, hnext]
  · intro a
    rw [hlive]; simp [hm']
  · intro hm
    exact hn ((hlive NULL).mp hm).symm
  · simp [stackOf, Mem.finished, hlook, hstack, hfin]
  · have hblk : m'.stackBlocks = [] := h.blocks
    refine ⟨by simp [hblk], by simp [hblk], fun st => ?_, fun a b st ha _ hsa _ => ?_⟩
    · rw [hblk]
      simp only [List.not_mem_nil, false_iff]
      rintro ⟨a, ha, hs⟩
      rw [hother a ha] at hs
      cases hs
    · rw [hother a ha] at hsa
      cases hsa
  · intro r₀ h₀
    rw [hr] at h₀
    cases h₀
    exact ⟨r', by rw [hlook, if_pos rfl], hctx⟩

/-! ### `FiberSpawn` -/

/-- The walk stops at the fiber before `CurrentFiber`. -/
theorem findTail_spec (hget : ∀ a ∈ m.currentFiber :: l, ∃ r, m.heap.lookup a = some r ∧ a ≠ NULL)
    (h : Ring m.next m.currentFiber l) (post pre : List Addr) (n : ℕ) (hl : l = pre ++ post)
    (hn : post.length < n) :
    findTail m n (before m.currentFiber pre) = .ok (before m.currentFiber l) := by
  induction post generalizing pre n with
  | nil =>
    obtain ⟨n, rfl⟩ := Nat.exists_eq_add_one_of_ne_zero (Nat.ne_zero_of_lt hn)
    rw [List.append_nil] at hl
    subst hl
    obtain ⟨r, hr, hne⟩ := hget _ (before_mem m.currentFiber l)
    have hnext : r.next = m.currentFiber := by
      have := h.next_before
      rw [next_of_lookup hr] at this
      exact Option.some.inj this
    simp [findTail, get_ok hne hr, hnext]
  | cons x post ih =>
    obtain ⟨n, rfl⟩ := Nat.exists_eq_add_one_of_ne_zero (Nat.ne_zero_of_lt hn)
    have hmem : before m.currentFiber pre ∈ m.currentFiber :: l := by
      have := before_mem m.currentFiber pre
      simp only [hl, List.mem_cons, List.mem_append] at this ⊢
      tauto
    obtain ⟨r, hr, hne⟩ := hget _ hmem
    have hnext : r.next = x := by
      have := (hl ▸ h).next_middle.1
      rw [next_of_lookup hr] at this
      exact Option.some.inj this
    have hxc : x ≠ m.currentFiber := fun he => (List.nodup_cons.mp h.nodup).1 (by simp [hl, he])
    have hrec := ih (pre ++ [x]) n (by simp [hl]) (by simpa using hn)
    rw [before_concat] at hrec
    simp [findTail, get_ok hne hr, hnext, hxc, hrec]

/-- The record `FiberSpawn` makes. -/
def newFiber (prep : κ → Addr → κ) (f args st : Addr) (junk : κ) (next : Addr) : Fiber κ :=
  { context := prep junk st, next := next, f := f, args := args, stack := st, finished := false }

/-- `FiberSpawn` writes the new record and the link to it. -/
theorem fiberSpawn_run (lib : Lib) (prep : κ → Addr → κ) {f a st : Addr} (args : Addr) (junk : κ)
    (h : WF m l) (hf : f ≠ NULL) (ha : a ∉ m.heap) (ha0 : a ≠ NULL) (hst0 : st ≠ NULL) :
    ∃ m' rt, fiberSpawn lib prep f args a st junk m = .ok m' ∧ m'.currentFiber = m.currentFiber ∧
      m'.stackBlocks = st :: m.stackBlocks ∧ m.heap.lookup (before m.currentFiber l) = some rt ∧
      ∀ b, m'.heap.lookup b = if b = before m.currentFiber l then some { rt with next := a }
        else if b = a then some (newFiber prep f args st junk m.currentFiber) else m.heap.lookup b := by
  set r := newFiber prep f args st junk m.currentFiber with hr
  set m₁ : Mem κ := { m.put a r with stackBlocks := st :: m.stackBlocks } with hm₁
  have hac : a ∉ m.currentFiber :: l := fun hm => ha ((h.live a).mpr hm)
  have hlook₁ : ∀ b, m₁.heap.lookup b = if b = a then some r else m.heap.lookup b := fun b => lookup_put
  have hold : ∀ b ∈ m.currentFiber :: l, m₁.heap.lookup b = m.heap.lookup b := fun b hb => by
    rw [hlook₁, if_neg fun he : b = a => hac (he ▸ hb)]
  have hring₁ : Ring m₁.next m.currentFiber l :=
    ⟨links_congr (fun b hb => by simp only [next, hold b hb]) h.ring.links, h.ring.nodup⟩
  have hget₁ : ∀ b ∈ m.currentFiber :: l, ∃ r', m₁.heap.lookup b = some r' ∧ b ≠ NULL := fun b hb => by
    obtain ⟨r', hr', hn, -⟩ := h.lookup hb
    exact ⟨r', by rw [hold b hb, hr'], hn⟩
  have hfuel : l.length < m₁.fuel := by
    have hle := h.length_le
    have hk : m₁.heap.keys = a :: m.heap.keys.erase a := AList.keys_insert _
    have he : m.heap.keys.erase a = m.heap.keys := List.erase_of_not_mem fun hm => ha (AList.mem_keys.mpr hm)
    simp only [fuel, hk, he, List.length_cons] at hle ⊢
    omega
  have htail : findTail m₁ m₁.fuel m.currentFiber = .ok (before m.currentFiber l) :=
    findTail_spec hget₁ hring₁ l [] m₁.fuel rfl hfuel
  have hbm := before_mem m.currentFiber l
  obtain ⟨rt, hrt, htn⟩ := hget₁ _ hbm
  refine ⟨m₁.put (before m.currentFiber l) { rt with next := a }, rt, ?_, rfl, rfl, ?_, fun b => ?_⟩
  · simp only [fiberSpawn, if_neg hf, initMainFiber_started lib h.current_ne, ok_bind, ha0, hst0, or_self,
      if_false]
    show (findTail m₁ m₁.fuel m.currentFiber >>= fun tail => m₁.setNext tail a) = _
    rw [htail, ok_bind, setNext_ok htn hrt]
  · rw [← hold _ hbm, hrt]
  · rw [lookup_put, hlook₁]

/-- **Spawning appends.** A new record, its stack, and its place at the end of
the list. -/
theorem fiberSpawn_spec (lib : Lib) (prep : κ → Addr → κ) {f a st : Addr} (args : Addr) (junk : κ)
    (h : WF m l) (hf : f ≠ NULL) (ha : a ∉ m.heap) (ha0 : a ≠ NULL) (hst : st ∉ m.stackBlocks) (hst0 : st ≠ NULL) :
    ∃ m', fiberSpawn lib prep f args a st junk m = .ok m' ∧ WF m' (l ++ [a]) ∧
      m'.currentFiber = m.currentFiber ∧ m'.stackBlocks = st :: m.stackBlocks ∧
      (∀ b, b ≠ a → m'.core b = m.core b) ∧ m'.core a = some (newFiber prep f args st junk NULL) := by
  obtain ⟨m', rt, hrun, hcur, hblk, hrt, hlook⟩ := fiberSpawn_run lib prep args junk h hf ha ha0 hst0
  set c := m.currentFiber with hc
  set r := newFiber prep f args st junk c with hr
  have hac : a ∉ c :: l := fun hm => ha ((h.live a).mpr hm)
  have hta : before c l ≠ a := fun he => hac (he ▸ before_mem c l)
  have hlooka : m'.heap.lookup a = some r := by rw [hlook, if_neg hta.symm, if_pos rfl]
  have hcore : ∀ b, b ≠ a → m'.core b = m.core b := by
    intro b hb
    unfold core
    rw [hlook, if_neg hb]
    split_ifs with hbt
    · rw [hbt, hrt]; rfl
    · rfl
  have hstk : ∀ b, b ≠ a → m'.stackOf b = m.stackOf b := fun b hb => stackOf_of_core (hcore b hb)
  have hnone := AList.lookup_eq_none.mpr ha
  have haM : a ≠ Main := fun he => by
    have hM := h.main.1
    rw [← he, stackOf, hnone] at hM
    cases hM
  have hlive : ∀ b, b ∈ m'.heap ↔ b = a ∨ b ∈ m.heap := fun b => by
    by_cases hb : b = a
    · simp [hb, mem_of_lookup hlooka]
    · simp [hb, mem_of_core (hcore b hb)]
  refine ⟨m', hrun, ⟨?_, ?_, ?_, ?_, ?_⟩, hcur, hblk, hcore, by simp [core, hlooka, hr, newFiber]⟩
  · rw [hcur]
    refine h.ring.append hac ?_ ?_ fun b hb hne => ?_
    · rw [next_of_lookup hlooka, hr, newFiber]
    · rw [next, hlook, if_pos rfl]; rfl
    · have hba : b ≠ a := fun he => hac (he ▸ hb)
      rw [next, hlook, if_neg hne, if_neg hba, next]
  · intro b
    rw [hlive, h.live, hcur]
    simp only [List.mem_cons, List.mem_append, List.not_mem_nil, or_false, ← hc]
    tauto
  · rw [hlive, not_or]
    exact ⟨ha0.symm, h.null⟩
  · rw [hstk Main haM.symm, finished_of_core (hcore Main haM.symm)]
    exact h.main
  · exact h.blocks.cons haM (by simp [stackOf, hnone]) hst hst0 hblk hstk (by simp [stackOf, hlooka, hr, newFiber])

/-! ### `FreeFinishedFibers` -/

/-- A finished fiber behind `pre` leaves the list, with its record and stack. -/
theorem release_spec {pre post : List Addr} {x : Addr} {r : Fiber κ} (h : WF m (pre ++ x :: post))
    (hr : m.heap.lookup x = some r) (hfin : r.finished = true) :
    ∃ m', release (before m.currentFiber pre) x r m = .ok m' ∧ WF m' (pre ++ post) ∧
      m'.currentFiber = m.currentFiber ∧ m'.next (before m.currentFiber pre) = some r.next ∧
      m'.stackBlocks = m.stackBlocks.erase r.stack ∧ m'.core x = none ∧ ∀ a, a ≠ x → m'.core a = m.core a := by
  set c := m.currentFiber with hc
  set p := before c pre with hp
  have hxM : x ≠ Main := fun he => by
    have hM := h.main.2
    rw [← he, finished_eq hr, hfin] at hM
    cases hM
  have hpx : p ≠ x := h.ring.before_ne
  have hpmem : p ∈ c :: (pre ++ x :: post) := by
    have := before_mem c pre
    simp only [List.mem_cons, List.mem_append, hp] at this ⊢
    tauto
  obtain ⟨rp, hrp, hp0, -⟩ := h.lookup hpmem
  have hstk : r.stack ∈ m.stackBlocks := (h.blocks.mem_iff _).mpr ⟨x, hxM, by simp [stackOf, hr]⟩
  have hst0 : r.stack ≠ NULL := fun he => h.blocks.null (he ▸ hstk)
  set m' : Mem κ := { m with heap := (m.heap.insert p { rp with next := r.next }).erase x,
                             stackBlocks := m.stackBlocks.erase r.stack } with hm'
  have hrun : release p x r m = .ok m' := by
    have hxmem : x ∈ m.heap.insert p { rp with next := r.next } :=
      (AList.mem_insert _).mpr (Or.inr (mem_of_lookup hr))
    simp [release, setNext_ok hp0 hrp, freeStack, hst0, hstk, free, hxM, put, hxmem, hm']
  have hlook : ∀ a, m'.heap.lookup a = if a = x then none
      else if a = p then some { rp with next := r.next } else m.heap.lookup a := by
    intro a
    by_cases ha : a = x
    · subst ha; simp [hm']
    · by_cases hap : a = p
      · subst hap; simp [hm', ha, AList.lookup_erase_ne ha]
      · simp [hm', ha, hap, AList.lookup_erase_ne ha, AList.lookup_insert_ne hap]
  have hcore : ∀ a, a ≠ x → m'.core a = m.core a := by
    intro a ha
    unfold core
    rw [hlook, if_neg ha]
    split_ifs with hap
    · rw [hap, hrp]; rfl
    · rfl
  have hlive : ∀ a, a ∈ m'.heap ↔ a ≠ x ∧ a ∈ m.heap := fun a => by
    by_cases ha : a = x
    · simp [ha, hm']
    · simp [ha, mem_of_core (hcore a ha)]
  refine ⟨m', hrun, ⟨?_, ?_, ?_, ?_, ?_⟩, rfl, ?_, rfl, by simp [core, hlook], hcore⟩
  · refine h.ring.remove ?_ fun a ha hne => ?_
    · rw [next, hlook, if_neg hpx, if_pos rfl, next_of_lookup hr]; rfl
    · have hax : a ≠ x := fun he => by
        have hn := h.ring.nodup
        rw [← List.cons_append, List.nodup_middle] at hn
        exact (List.nodup_cons.mp hn).1 (by simpa [he] using ha)
      rw [next, hlook, if_neg hax, if_neg hne, next]
  · intro a
    have hn := h.ring.nodup
    rw [← List.cons_append, List.nodup_middle, List.nodup_cons] at hn
    rw [hlive, h.live]
    constructor
    · rintro ⟨hax, ha⟩
      simp only [List.mem_cons, List.mem_append] at ha ⊢
      tauto
    · intro ha
      refine ⟨fun he => hn.1 (he ▸ ha), ?_⟩
      simp only [List.mem_cons, List.mem_append] at ha ⊢
      tauto
  · rw [hlive]
    exact fun ha => h.null ha.2
  · rw [stackOf_of_core (hcore Main hxM.symm), finished_of_core (hcore Main hxM.symm)]
    exact h.main
  · exact h.blocks.erase hxM (by simp [stackOf, hr]) rfl (fun b hb => stackOf_of_core (hcore b hb))
      (by simp [stackOf, hlook])
  · rw [next, hlook, if_neg hpx, if_pos rfl]; rfl

/-- The sweep from behind `pre` filters the rest of the list. -/
theorem sweep_spec (post : List Addr) : ∀ (pre : List Addr) (n : ℕ) (m : Mem κ), WF m (pre ++ post) →
    post.length < n → ∃ m', sweep n (before m.currentFiber pre) (post.headD m.currentFiber) m = .ok m' ∧
      WF m' (pre ++ post.filter fun a => !m.finished a) ∧ m'.currentFiber = m.currentFiber ∧
      (∀ a, a ∈ m'.heap → m'.core a = m.core a) ∧
      ∀ st, st ∈ m.stackBlocks → st ∉ m'.stackBlocks →
        ∃ a ∈ post, m.finished a = true ∧ m.stackOf a = some st := by
  induction post with
  | nil =>
    intro pre n m h hn
    obtain ⟨n, rfl⟩ := Nat.exists_eq_add_one_of_ne_zero (Nat.ne_zero_of_lt hn)
    exact ⟨m, by simp [sweep], by simpa using h, rfl, fun a _ => rfl, fun st h1 h2 => absurd h1 h2⟩
  | cons x post ih =>
    intro pre n m h hn
    obtain ⟨n, rfl⟩ := Nat.exists_eq_add_one_of_ne_zero (Nat.ne_zero_of_lt hn)
    obtain ⟨r, hr, hx0, hget⟩ := h.lookup (a := x) (by simp)
    have hxc : x ≠ m.currentFiber := fun he => (List.nodup_cons.mp h.ring.nodup).1 (by simp [he])
    have hnext : r.next = post.headD m.currentFiber := by
      have := h.ring.next_middle.2
      rw [next_of_lookup hr] at this
      exact Option.some.inj this
    have hlen : post.length < n := by simpa using hn
    cases hfin : r.finished with
    | false =>
      obtain ⟨m', h1, h2, h3, h4, h5⟩ := ih (pre ++ [x]) n m (by simpa using h) hlen
      rw [before_concat, ← hnext] at h1
      refine ⟨m', ?_, ?_, h3, h4, fun st hs hs' => ?_⟩
      · simp [sweep, hxc, hget, hfin, h1]
      · simpa [finished_eq hr, hfin] using h2
      · obtain ⟨a, ha, hf⟩ := h5 st hs hs'
        exact ⟨a, List.mem_cons_of_mem _ ha, hf⟩
    | true =>
      obtain ⟨m₁, h1, hwf, hcur, hpn, hblk, hcx, hcore⟩ := release_spec h hr hfin
      have hne : ∀ a ∈ post, a ≠ x := fun a ha he => by
        have hnd := h.ring.nodup
        rw [← List.cons_append, List.nodup_middle, List.nodup_cons] at hnd
        exact hnd.1 (by simp [← he, ha])
      have hfeq : ∀ a ∈ post, m₁.finished a = m.finished a := fun a ha => finished_of_core (hcore a (hne a ha))
      obtain ⟨m', k1, k2, k3, k4, k5⟩ := ih pre n m₁ hwf hlen
      obtain ⟨rp, hrp, -, hgp⟩ := hwf.lookup (a := before m.currentFiber pre) (by
        have := before_mem m.currentFiber pre
        rw [hcur]
        simp only [List.mem_cons, List.mem_append] at this ⊢
        tauto)
      have hpn' : rp.next = r.next := by
        rw [next_of_lookup hrp] at hpn
        exact Option.some.inj hpn
      rw [hcur, ← hnext, ← hpn'] at k1
      refine ⟨m', ?_, ?_, k3.trans hcur, fun a ha => ?_, fun st hs hs' => ?_⟩
      · simp [sweep, hxc, hget, hfin, h1, hgp, k1]
      · rw [List.filter_cons]
        simp only [finished_eq hr, hfin, Bool.not_true, Bool.false_eq_true, if_false]
        rwa [List.filter_congr fun a ha => by rw [hfeq a ha]] at k2
      · have hax : a ≠ x := fun he => by
          have hm := k4 a ha
          rw [he, hcx] at hm
          have := (mem_of_core (hm.trans hcx.symm)).mp (he ▸ ha)
          obtain ⟨r₁, hr₁⟩ := exists_of_mem this
          simp [core, hr₁] at hcx
        rw [k4 a ha, hcore a hax]
      · by_cases he : st = r.stack
        · exact ⟨x, List.mem_cons_self, by rw [finished_eq hr, hfin], by simp [stackOf, hr, he]⟩
        · have hs₁ : st ∈ m₁.stackBlocks := by
            rw [hblk]; exact (h.blocks.nodup.mem_erase_iff).mpr ⟨he, hs⟩
          obtain ⟨a, ha, hf, hsa⟩ := k5 st hs₁ hs'
          refine ⟨a, List.mem_cons_of_mem _ ha, by rw [← hfeq a ha, hf], ?_⟩
          rw [← stackOf_of_core (hcore a (hne a ha)), hsa]

/-- **The sweep.** Exactly the finished fibers other than the current one leave
the list; the others keep their order and their records, and a stack is freed
only with its finished fiber. -/
theorem freeFinishedFibers_spec (h : WF m l) :
    ∃ m', freeFinishedFibers m = .ok m' ∧ WF m' (l.filter fun a => !m.finished a) ∧
      m'.currentFiber = m.currentFiber ∧ (∀ a, a ∈ m'.heap → m'.core a = m.core a) ∧
      ∀ st, st ∈ m.stackBlocks → st ∉ m'.stackBlocks → ∃ a ∈ l, m.finished a = true ∧ m.stackOf a = some st := by
  obtain ⟨r, hr, -, hget⟩ := h.lookup List.mem_cons_self
  have hnext : r.next = l.headD m.currentFiber := by
    have := h.ring.next_head
    rw [next_of_lookup hr] at this
    exact Option.some.inj this
  obtain ⟨m', h1, h2, h3, h4, h5⟩ := sweep_spec l [] m.fuel m h h.length_le
  refine ⟨m', ?_, h2, h3, h4, h5⟩
  rw [before_nil, ← hnext] at h1
  simp [freeFinishedFibers, hget, h1]

end Fibers
end OsLabs
