/-
# The statements outside the window

Each statement of `fiber.c` keeps the invariant of `OsLabs/PFibers/Contexts.lean`, if its pointers into the
list are fresh. Most are a `goto`, a call or a `ret` after an edit of one record. Two are more: the
end of `InitMainFiber` makes the list, and `CurrentFiber = to` opens the window. A record comes into being
with `PrepareStack` and into the list with `tail->next = fiber`; it leaves the list with
`prev->next = cur->next`, and is no fiber any more with `free(cur->stack)`.

Main result: `Inv.statement`.
-/
import OsLabs.PFibers.Contexts

namespace OsLabs
namespace PFibers
namespace Steps

open Fibers (Addr NULL Main Fiber Fault Mem)
open Run State
open Function (update update_self update_of_ne)

variable {hold hold' : Addr → Option Addr} {s s' s₁ : State} {o : Choice}

/-- Past `InitMainFiber` there is a list. -/
theorem Inv.listed (h : Inv hold s) (hs : ¬ Early s s.rip) : s.mem.currentFiber ≠ NULL :=
  fun hc => hs (h.start hc).2.2

/-- There is a list in `FreeFinishedFibers`. -/
theorem Inv.listed_free (h : Inv hold s) (hf : s.rip.func = .free) : s.mem.currentFiber ≠ NULL := by
  refine h.listed ?_
  cases hp : s.rip <;> rw [hp] at hf <;> first | exact id | cases hf

/-- A statement that edits nothing. -/
theorem Inv.stays (h : Inv hold s) (hw : ¬ s.rip.Window) (hne : s.rip ≠ .swRet) {g : Regs} {pc : PC}
    (hstart : s.mem.currentFiber = NULL → Early s pc) (hloc : Local hold s s.running pc) : Inv hold (s.goto g pc) :=
  h.goes hw hne ⟨rfl, rfl, rfl⟩ h.edit hstart (hloc.mono (fun _ hb => ⟨hb, rfl, Iff.rfl, id⟩) fun _ => rfl)

/-- A statement that writes one record. -/
theorem Inv.puts (h : Inv hold s) (hw : ¬ s.rip.Window) (hne : s.rip ≠ .swRet) {x : Addr} {r' : Fiber Context} {g : Regs} {pc : PC}
    (hedit : Edit hold hold s { s with mem := s.mem.put x r' }) (hstart : s.mem.currentFiber = NULL → Early s pc)
    (hloc : Local hold ({ s with mem := s.mem.put x r' }.goto g pc) s.running pc) :
    Inv hold ({ s with mem := s.mem.put x r' }.goto g pc) := by
  refine h.goes hw hne ?_ hedit hstart hloc
  exact ⟨rfl, rfl, rfl⟩

/-! ### The new record -/

/-- An address that `malloc` may return. -/
def Unused (m : Mem Context) (a : Addr) : Prop := a ≠ NULL ∧ a ∉ m.heap ∧ a ∉ m.stackBlocks

theorem malloc_unused {m : Mem Context} {a : Addr} (h : malloc m a ≠ NULL) : Unused m (malloc m a) := by
  unfold malloc at h ⊢
  split_ifs at h ⊢ with hused
  · exact absurd rfl h
  · exact ⟨h, not_or.mp hused⟩

theorem Inv.unused (h : Inv hold s) {a : Addr} (ha : Unused s.mem a) : ¬ Known s a ∧ hold a = none := by
  refine ⟨fun hk => ha.2.1 (h.record hk), ?_⟩
  cases hx : hold a with
  | none => rfl
  | some x => exact absurd (h.holdIn a x hx) (not_or.mpr ha.2)

/-- A write to a record that is no fiber and that no other fiber holds. The running fiber may get memory that
was not in use. -/
theorem Inv.edit_new (h : Inv hold s) {x : Addr} {r' : Fiber Context} {m : Mem Context} (hk : ¬ Known s x)
    (hown : ∀ y, hold x = some y → y = s.running) (hcur : m.currentFiber = s.mem.currentFiber)
    (hm : ∀ b, m.heap.lookup b = if b = x then some r' else s.mem.heap.lookup b)
    (hheap : ∀ a ∈ m.heap, a ≠ NULL ∧ a ∉ m.stackBlocks) (hblocks : ∀ b ∈ s.mem.stackBlocks, b ∈ m.stackBlocks)
    (hsame : ∀ a, ¬ Unused s.mem a → hold' a = hold a) (hin : ∀ a y, hold' a = some y → a ∈ m.heap ∨ a ∈ m.stackBlocks) :
    Edit hold hold' s { s with mem := m } := by
  have hknown : ∀ a, Known s a → hold' a = hold a := fun a ha => hsame a fun hu => hu.2.1 (h.record ha)
  have hrec : ∀ a, Known s a → m.heap.lookup a = s.mem.heap.lookup a := fun a ha => by
    rw [hm, if_neg]
    rintro rfl
    exact hk ha
  refine ⟨hheap, hin, rfl, fun _ _ hk => hk, fun a ha => ?_, (hknown _ (Or.inl rfl)).trans h.self, fun b y hb hy =>
    ⟨?_, ?_, Iff.rfl, hblocks b⟩, fun hc => h.same_ring hc hcur (fun a ha => next_congr (hrec a ha.1)) fun a => ?_⟩
  · obtain ⟨r, hr, h1, h2⟩ := h.recs a ha
    refine ⟨r, r, hr, (hrec a ha).trans hr, rfl, rfl, h1.imp id (hblocks _), ?_⟩
    rw [hsame _ fun hu => h1.elim hu.1 hu.2.2, h2]
  · rw [hsame b fun hu => (h.holdIn b y hb).elim hu.2.1 hu.2.2, hb]
  · refine (hm b).trans (if_neg ?_)
    rintro rfl
    exact hy (hown y hb)
  · exact and_congr_right fun ha => by rw [hknown a ha]

/-- A field of the new record. -/
theorem Inv.edit_own (h : Inv hold s) {b : Addr} {r' : Fiber Context} (hh : Holds hold s s.running b) (hk : ¬ Known s b) :
    Edit hold hold s { s with mem := s.mem.put b r' } := by
  obtain ⟨r, hr⟩ := Mem.exists_of_mem hh.2
  exact h.edit_new hk (fun _ hy => Option.some.inj (hy.symm.trans hh.1)) rfl (fun _ => Mem.lookup_put)
    (fun a ha => h.heap a ((mem_put hr).mp ha)) (fun _ hb => hb) (fun _ _ => rfl)
    fun a y ha => (h.holdIn a y ha).imp_left (mem_put hr).mpr

theorem Holds.put {b : Addr} {r' : Fiber Context} {g : Regs} {pc : PC} {a : Addr} (hh : Holds hold s a b) :
    Holds hold ({ s with mem := s.mem.put b r' }.goto g pc) a b := by
  refine ⟨hh.1, AList.lookup_isSome.mp ?_⟩
  exact (congrArg _ (Mem.lookup_put.trans (if_pos rfl))).trans rfl

theorem finished_put {m : Mem Context} {b : Addr} {r' : Fiber Context} : (m.put b r').finished b = r'.finished :=
  Mem.finished_eq (Mem.lookup_put.trans (if_pos rfl))

/-- The first `malloc` of `FiberSpawn`. -/
theorem Inv.spawnMalloc (h : Inv hold s) {f args : Addr} (hp : s.rip = .spawnMalloc f args) (hs : exec o s = .ok s') :
    ∃ hold', Inv hold' s' := by
  have hw : ¬ s.rip.Window := by rw [hp]; exact id
  have hne : s.rip ≠ .swRet := by rw [hp]; rintro ⟨⟩
  have hc := h.listed (by rw [hp]; exact id)
  simp only [exec, hp] at hs
  split_ifs at hs with hm
  · obtain rfl := Except.ok.inj hs
    exact ⟨hold, h.goes hw hne ⟨rfl, rfl, rfl⟩ h.edit (fun hn => absurd hn hc) fun hb => absurd rfl hb⟩
  · obtain rfl := Except.ok.inj hs
    have hu := malloc_unused hm
    obtain ⟨hk, hnone⟩ := h.unused hu
    generalize malloc s.mem o.malloc = x at hm hu hk hnone
    have hmem : ∀ a, a ∈ (s.mem.put x o.junk).heap ↔ a = x ∨ a ∈ s.mem.heap := fun a => by
      rw [← AList.lookup_isSome, Mem.lookup_put, ← AList.lookup_isSome]
      split_ifs with ha
      · exact iff_of_true rfl (Or.inl ha)
      · exact (or_iff_right ha).symm
    have hedit : Edit hold (update hold x (some s.running)) s { s with mem := s.mem.put x o.junk } := by
      refine h.edit_new hk (fun y hy => by cases hnone.symm.trans hy) rfl (fun _ => Mem.lookup_put) (fun a ha => ?_) (fun _ hb => hb)
        (fun a ha => update_of_ne (fun he : a = x => ha (he ▸ hu)) _ _) fun a y ha => ?_
      · rcases (hmem a).mp ha with rfl | ha
        · exact ⟨hm, hu.2.2⟩
        · exact h.heap a ha
      · by_cases hax : a = x
        · exact Or.inl ((hmem a).mpr (Or.inl hax))
        · rw [update_of_ne hax] at ha
          exact (h.holdIn a y ha).imp_left fun ha => (hmem a).mpr (Or.inr ha)
    refine ⟨_, h.goes hw hne ?_ hedit (fun hn => absurd hn hc) fun _ => ⟨⟨update_self .., (hmem x).mpr (Or.inl rfl)⟩, hk⟩⟩
    exact ⟨rfl, rfl, rfl⟩

/-- The second one. -/
theorem Inv.spawnStack (h : Inv hold s) {b : Addr} (hp : s.rip = .spawnStack b) (hs : exec o s = .ok s') :
    ∃ hold', Inv hold' s' := by
  have hw : ¬ s.rip.Window := by rw [hp]; exact id
  have hne : s.rip ≠ .swRet := by rw [hp]; rintro ⟨⟩
  have hc := h.listed (by rw [hp]; exact id)
  have hloc := (h.here hw hne).1
  rw [hp] at hloc
  simp only [exec, hp] at hs
  obtain ⟨r, hb, hr, hs⟩ := Mem.get_bind_ok hs
  obtain ⟨hh, hk, hf⟩ := hloc hb
  rw [Mem.finished_eq hr] at hf
  have hown : ∀ y, hold b = some y → y = s.running := fun y hy => Option.some.inj (hy.symm.trans hh.1)
  split_ifs at hs with hm
  · obtain rfl := Except.ok.inj hs
    refine ⟨hold, h.puts hw hne (h.edit_own hh hk) (fun hn => absurd hn hc)
      fun _ => ⟨hh.put, hk, finished_put.trans hf, fun t ht hst => ?_⟩⟩
    obtain rfl := Option.some.inj (ht.symm.trans (Mem.lookup_put.trans (if_pos rfl)))
    exact absurd rfl hst
  · obtain rfl := Except.ok.inj hs
    have hu := malloc_unused hm
    generalize malloc s.mem o.malloc = x at hm hu
    have hbx : b ≠ x := fun he => hu.2.1 (he ▸ hh.2)
    have hedit : Edit hold (update hold x (some s.running)) s
        { s with mem := { s.mem.put b { r with stack := x } with stackBlocks := x :: s.mem.stackBlocks } } := by
      refine h.edit_new hk hown rfl (fun _ => Mem.lookup_put) (fun a ha => ?_) (fun _ => List.mem_cons_of_mem _)
        (fun a ha => update_of_ne (fun he : a = x => ha (he ▸ hu)) _ _) fun a y ha => ?_
      · have hah : a ∈ s.mem.heap := (mem_put hr).mp ha
        refine ⟨(h.heap a hah).1, fun hn => ?_⟩
        rcases List.mem_cons.mp hn with rfl | hn
        · exact hu.2.1 hah
        · exact (h.heap a hah).2 hn
      · by_cases hax : a = x
        · exact Or.inr (hax ▸ List.mem_cons_self)
        · rw [update_of_ne hax] at ha
          exact (h.holdIn a y ha).imp (mem_put hr).mpr (List.mem_cons_of_mem _)
    refine ⟨_, h.goes hw hne ?_ hedit (fun hn => absurd hn hc)
      fun _ => ⟨⟨(update_of_ne hbx _ _).trans hh.1, (mem_put hr).mpr hh.2⟩, hk, finished_put.trans hf, fun t ht _ => ?_⟩⟩
    · exact ⟨rfl, rfl, rfl⟩
    · obtain rfl := Option.some.inj (ht.symm.trans (Mem.lookup_put.trans (if_pos rfl)))
      exact ⟨update_self .., List.mem_cons_self⟩

/-- `PrepareStack`: the new fiber stops, before it has ever run, at `FiberTrampoline`. -/
theorem Inv.spawnRsp (h : Inv hold s) {b : Addr} (hp : s.rip = .spawnRsp b) (hs : exec o s = .ok s') :
    ∃ hold', Inv hold' s' := by
  have hw : ¬ s.rip.Window := by rw [hp]; exact id
  have hne : s.rip ≠ .swRet := by rw [hp]; rintro ⟨⟩
  have hc := h.listed (by rw [hp]; exact id)
  obtain ⟨hloc, hps⟩ := h.here hw hne
  rw [hp] at hloc
  simp only [exec, hp] at hs
  obtain ⟨r, hb, hr, hs⟩ := Mem.get_bind_ok hs
  obtain ⟨hh, hk, hf, hstack⟩ := hloc hb
  split_ifs at hs with hnull hblock
  obtain ⟨hst, hblock⟩ := hstack r hr hnull
  have hs := Except.ok.inj hs
  have hrun : s'.running = s.running := by rw [← hs]; rfl
  have hcur : s'.mem.currentFiber = s.mem.currentFiber := by rw [← hs]; rfl
  have hblocks : s'.mem.stackBlocks = s.mem.stackBlocks := by rw [← hs]; rfl
  have hrsp : s'.rsp = s.rsp := by rw [← hs]; rfl
  have hrip : s'.rip = .spawnNext b := by rw [← hs]; rfl
  have hrecb : ∃ t, s'.mem.heap.lookup b = some t ∧ t.context.rsp = ⟨r.stack, 1⟩ ∧ t.stack = r.stack ∧ t.finished = r.finished ∧
      s'.stopped b = some ⟨t.context, s'.words r.stack⟩ ∧ s'.words r.stack 0 = .trampCall := by
    rw [← hs]
    exact ⟨_, Mem.lookup_put.trans (if_pos rfl), rfl, rfl, rfl, if_pos rfl, if_pos ⟨rfl, rfl⟩⟩
  have hrec : ∀ a, a ≠ b → s'.mem.heap.lookup a = s.mem.heap.lookup a := fun a ha => by
    rw [← hs]
    exact Mem.lookup_put.trans (if_neg ha)
  have hstop : ∀ a, a ≠ b → s'.stopped a = s.stopped a := fun a ha => by
    rw [← hs]
    exact if_neg ha
  have hwords : ∀ x, x ≠ r.stack → s'.words x = s.words x := fun x hx => by
    rw [← hs]
    funext i
    exact if_neg fun hn => hx hn.1
  have hmem : ∀ a, a ∈ s'.mem.heap ↔ a ∈ s.mem.heap := fun a => by
    rw [← hs]
    exact mem_put hr
  clear hs
  obtain ⟨t₁, ht₁, hctx₁, hst₁, hf₁, hstop₁, hword₁⟩ := hrecb
  have hknown : ∀ a, Known s' a ↔ a = b ∨ Known s a := fun a => by
    unfold Known
    rw [hrun]
    by_cases hab : a = b
    · rw [hab, hstop₁]
      exact iff_of_true (Or.inr rfl) (Or.inl rfl)
    · rw [hstop a hab]
      exact (or_iff_right hab).symm
  have hneb : ∀ a, Known s a → a ≠ b := fun a ha hab => hk (hab ▸ ha)
  have hrs : ∀ a ∈ s.mem.heap, a ≠ r.stack := fun a ha he => (h.heap a ha).2 (he ▸ hblock)
  -- the new stack is no other fiber's
  have hfresh : ∀ a t, Known s a → s.mem.heap.lookup a = some t → t.stack ≠ r.stack := fun a t ha ht he => by
    cases hst.symm.trans (he ▸ (h.stack ha ht).2)
  let hold' : Addr → Option Addr := update hold r.stack none
  have hold_eq : ∀ a, a ≠ r.stack → hold' a = hold a := fun a ha => update_of_ne ha _ _
  have hshared : ∀ a, Shared hold' s' a ↔ Shared hold s a := fun a => by
    rw [Shared, Shared, hknown]
    by_cases hab : a = b
    · rw [hab, hold_eq b (hrs b hh.2), hh.1]
      simp
    · rw [or_iff_right hab]
      exact and_congr_right fun ha => by rw [hold_eq a (hrs a (h.record ha))]
  obtain ⟨r₀, hr₀, hb₀⟩ := h.live
  have hb₀ := hb₀ fun hl => hw hl.switching.window
  have hself : Known s s.running := Or.inl rfl
  have hrunb := hneb _ hself
  refine ⟨hold', fun a ha => by rw [hblocks]; exact h.heap a ((hmem a).mp ha), fun a x ha => ?_, fun a ha => ?_,
    fun hn => absurd (hcur ▸ hn) hc, ?_, fun _ => ?_, fun _ _ => ?_, fun a k t ha hk ht => ?_,
    fun a x t u ha hx ht hu he => ?_, ?_, fun a ha => ?_, fun hwin => ?_⟩
  · rw [hmem, hblocks]
    refine h.holdIn a x ((hold_eq a ?_).symm.trans ha)
    rintro rfl
    cases ha.symm.trans (update_self ..)
  · by_cases hab : a = b
    · refine ⟨t₁, hab ▸ ht₁, ?_, ?_⟩
      · rw [hst₁, Allocated, hblocks]
        exact Or.inr hblock
      · rw [hst₁]
        exact update_self ..
    · obtain ⟨t, ht, h1, h2⟩ := h.recs a (((hknown a).mp ha).resolve_left hab)
      refine ⟨t, (hrec a hab).trans ht, by rwa [Allocated, hblocks], ?_⟩
      rw [hold_eq _ (hfresh a t (((hknown a).mp ha).resolve_left hab) ht), h2]
  · rw [hrun, hold_eq _ (hrs _ (h.record hself)), h.self]
  · exact h.same_ring hc hcur (fun a ha => next_congr (hrec a (hneb a ha.1))) hshared
  · rw [hrun, hcur]
    exact h.runs hw hc
  · by_cases hab : a = b
    · obtain rfl := Option.some.inj (ht.symm.trans (hab ▸ ht₁))
      obtain rfl := Option.some.inj (hk.symm.trans (hab ▸ hstop₁))
      refine ⟨rfl, by rw [hst₁, hctx₁], fun i _ => by rw [hst₁]⟩
    · rw [hstop a hab] at hk
      rw [hrec a hab] at ht
      have haK : Known s a := Or.inr (by rw [hk]; rfl)
      rw [hwords _ (hfresh a t haK ht)]
      exact h.kept a k t (hrun ▸ ha) hk ht
  · by_cases hab : a = b
    · by_cases hxb : x = b
      · rw [hab, hxb]
      · obtain rfl := Option.some.inj (ht.symm.trans (hab ▸ ht₁))
        rw [hrec x hxb] at hu
        exact absurd (he.symm.trans hst₁) (hfresh x u (((hknown x).mp hx).resolve_left hxb) hu)
    · rw [hrec a hab] at ht
      have haK := ((hknown a).mp ha).resolve_left hab
      by_cases hxb : x = b
      · obtain rfl := Option.some.inj (hu.symm.trans (hxb ▸ ht₁))
        exact absurd (he.trans hst₁) (hfresh a t haK ht)
      · rw [hrec x hxb] at hu
        exact h.inj a x t u haK (((hknown x).mp hx).resolve_left hxb) ht hu he
  · rw [hrun, hrsp, hrec _ hrunb]
    exact ⟨r₀, hr₀, fun _ => hb₀⟩
  · by_cases har : a = s.running
    · rw [har, ← hrun]
      refine fit_at hrip ⟨⟨?_, (hmem b).mpr hh.2⟩, (hknown b).mpr (Or.inl rfl), ?_⟩ ?_
      · rw [hrun, hold_eq b (hrs b hh.2), hh.1]
      · rw [Mem.finished_eq ht₁, hf₁, ← Mem.finished_eq hr, hf]
      · rw [hrsp, hwords _ (hb₀ ▸ hfresh _ r₀ hself hr₀)]
        exact hps
    · by_cases hab : a = b
      · refine ⟨.trampCall, [], ?_, fun q hq => absurd hq List.not_mem_nil, trivial⟩
        rw [hab, todo, chain_stopped (by rw [hrun]; exact hrunb.symm) hstop₁]
        show (frames (s'.words r.stack) t₁.context.rsp.height).dropWhile _ = _
        rw [hctx₁, frames, frames, hword₁]
        rfl
      · obtain ⟨p, ps, hch, hps, hloc⟩ := h.fits a (((hknown a).mp ha).resolve_left hab)
        refine ⟨p, ps, ?_, hps, hloc.mono (fun x hx => ?_) fun hn => absurd hn hc⟩
        · rw [todo_congr har (by rwa [hrun]) (hstop a hab), hch]
        · have hxb : x ≠ b := by
            rintro rfl
            exact har (Option.some.inj (hx.symm.trans hh.1))
          have hxs : x ≠ r.stack := by
            rintro rfl
            exact har (Option.some.inj (hx.symm.trans hst))
          exact ⟨(hold_eq x hxs).trans hx, hrec x hxb, (hknown x).trans (or_iff_right hxb), by rw [hblocks]; exact id⟩
  · rw [hrip] at hwin
    exact absurd hwin id

/-! ### The list -/

/-- A write to a link of the list. The fiber `d` comes into it or leaves it. -/
theorem Inv.edit_link (h : Inv hold s) {x d : Addr} {r r' : Fiber Context} (hx : s.mem.heap.lookup x = some r)
    (hctx : r'.context = r.context) (hst : r'.stack = r.stack) (hnone : hold x = none) (hd : d ∈ s.mem.heap)
    (hrun : d ≠ s.running) (hown : ∀ y, hold d = some y → y = s.running) {v : Option Addr}
    (hring : Cycle (s.mem.put x r') ∧ ∀ a, Known s a ∧ update hold d v a = none ↔ a ∈ nodes (s.mem.put x r')) :
    Edit hold (update hold d v) s { s with mem := s.mem.put x r' } := by
  have hold_eq : ∀ a, a ≠ d → update hold d v a = hold a := fun a ha => update_of_ne ha _ _
  refine ⟨fun a ha => h.heap a ((mem_put hx).mp ha), fun a y ha => ?_, rfl, fun _ _ hk => hk, fun a ha => ?_,
    (hold_eq _ hrun.symm).trans h.self, fun b y hb hy => ⟨?_, ?_, Iff.rfl, id⟩, fun _ => hring⟩
  · by_cases had : a = d
    · exact Or.inl ((mem_put hx).mpr (had ▸ hd))
    · rw [hold_eq a had] at ha
      exact (h.holdIn a y ha).imp_left (mem_put hx).mpr
  · obtain ⟨t, ht, h1, h2⟩ := h.recs a ha
    have h2 := (hold_eq _ (h.stack_ne ha ht hd)).trans h2
    by_cases hax : a = x
    · obtain rfl := Option.some.inj (hx.symm.trans (hax ▸ ht))
      exact ⟨r, r', ht, Mem.lookup_put.trans (if_pos hax), hctx, hst, h1, h2⟩
    · exact ⟨t, t, ht, (Mem.lookup_put.trans (if_neg hax)).trans ht, rfl, rfl, h1, h2⟩
  · refine (hold_eq b ?_).trans hb
    rintro rfl
    exact hy (hown y hb)
  · refine Mem.lookup_put.trans (if_neg ?_)
    rintro rfl
    cases hb.symm.trans hnone

/-- The link that puts the new fiber in the list: nobody holds it any more. -/
theorem Inv.spawnLink (h : Inv hold s) {b tail : Addr} (hp : s.rip = .spawnLink b tail)
    (hfresh : tail ∈ nodes s.mem ∧ s.mem.next tail = some s.running) (hs : exec o s = .ok s') : ∃ hold', Inv hold' s' := by
  have hw : ¬ s.rip.Window := by rw [hp]; exact id
  have hne : s.rip ≠ .swRet := by rw [hp]; rintro ⟨⟩
  have hc := h.listed (by rw [hp]; exact id)
  have hrun := h.runs hw hc
  obtain ⟨hcy, hn⟩ := h.ring hc
  have hloc := (h.here hw hne).1
  rw [hp] at hloc
  obtain ⟨hb, hk, -, hnext⟩ := hloc
  obtain ⟨htail, htnext⟩ := hfresh
  simp only [exec, hp] at hs
  obtain ⟨r, -, hr, hs⟩ := Mem.get_bind_ok hs
  have hbn : b ∉ nodes s.mem := fun hm => by cases hb.1.symm.trans ((hn b).mpr hm).2
  obtain ⟨hcy', hn'⟩ := hcy.link (r := r) htail (hrun ▸ htnext) hbn (hrun ▸ hnext)
  have hbr : b ≠ s.running := fun he => by cases hb.1.symm.trans (he ▸ h.self)
  have hedit : Edit hold (update hold b none) s { s with mem := s.mem.put tail { r with next := b } } := by
    refine h.edit_link hr (by rfl) (by rfl) ((hn tail).mpr htail).2 hb.2 hbr (fun y hy => Option.some.inj (hy.symm.trans hb.1))
      ⟨hcy', fun a => ?_⟩
    rw [hn', ← hn]
    by_cases hab : a = b
    · rw [hab]
      exact iff_of_true ⟨hk, update_self ..⟩ (Or.inr rfl)
    · rw [update_of_ne hab, or_iff_left hab]
      exact Iff.rfl
  refine ⟨_, h.returns hw hne ?_ (hedit.congr ?_ ?_ ?_) (fun hn => absurd hn hc) hs⟩
  · exact ⟨rfl, rfl, rfl⟩
  · exact rfl
  · exact rfl
  · exact rfl

/-- `prev->next = cur->next;` From here on the running fiber has `cur` to itself. -/
theorem Inv.freeUnlink (h : Inv hold s) {prev c : Addr} (hp : s.rip = .freeUnlink prev c)
    (hfresh : prev ∈ nodes s.mem ∧ s.mem.next prev = some c) (hs : exec o s = .ok s') : ∃ hold', Inv hold' s' := by
  have hw : ¬ s.rip.Window := by rw [hp]; exact id
  have hne : s.rip ≠ .swRet := by rw [hp]; rintro ⟨⟩
  have hc := h.listed (by rw [hp]; exact id)
  obtain ⟨hcy, hn⟩ := h.ring hc
  have hcr := (h.here hw hne).1
  rw [hp] at hcr
  have hcr : c ≠ s.running := hcr
  obtain ⟨hprev, hnext⟩ := hfresh
  simp only [exec, hp] at hs
  obtain ⟨r, -, hr, hs⟩ := Mem.get_bind_ok hs
  obtain ⟨p, -, hpr, hs⟩ := Mem.get_bind_ok hs
  obtain rfl := Except.ok.inj hs
  obtain ⟨hcy', -, hn'⟩ := hcy.unlink hr hpr hprev hnext (h.runs hw hc ▸ hcr)
  have hcs : Shared hold s c := by
    rw [Fibers.next_of_lookup hpr, Option.some.injEq] at hnext
    exact hnext ▸ h.linked hc ((hn prev).mpr hprev) hpr
  have hmem := Mem.mem_of_lookup hr
  have hedit : Edit hold (update hold c (some s.running)) s { s with mem := s.mem.put prev { p with next := r.next } } := by
    refine h.edit_link hpr (by rfl) (by rfl) ((hn prev).mpr hprev).2 hmem hcr (fun y hy => by cases hcs.2.symm.trans hy) ⟨hcy', fun a => ?_⟩
    rw [hn', ← hn]
    by_cases hac : a = c
    · rw [hac, update_self]
      exact iff_of_false (fun hn => by cases hn.2) fun hn => hn.2 rfl
    · rw [update_of_ne hac, and_iff_left hac]
      exact Iff.rfl
  refine ⟨_, h.goes hw hne ?_ hedit (fun hn => absurd hn hc) ⟨⟨update_self .., (mem_put hpr).mpr hmem⟩, hcs.1⟩⟩
  exact ⟨rfl, rfl, rfl⟩

/-! ### The end of a fiber -/

theorem of_freeStack {m m' : Mem Context} {st : Addr} (h : m.freeStack st = .ok m') :
    (∀ b ∈ m'.stackBlocks, b ∈ m.stackBlocks) ∧ ∀ b, b ≠ st → b ∈ m.stackBlocks → b ∈ m'.stackBlocks := by
  unfold Mem.freeStack at h
  split_ifs at h
  · obtain rfl := Except.ok.inj h
    exact ⟨fun _ hb => hb, fun _ _ hb => hb⟩
  · obtain rfl := Except.ok.inj h
    exact ⟨fun _ hb => List.mem_of_mem_erase hb, fun _ hb hm => (List.mem_erase_of_ne hb).mpr hm⟩

/-- `free(cur->stack);` -/
theorem Inv.freeStack (h : Inv hold s) {prev c : Addr} (hp : s.rip = .freeStack prev c) (hs : exec o s = .ok s') : Inv hold s' := by
  have hw : ¬ s.rip.Window := by rw [hp]; exact id
  have hne : s.rip ≠ .swRet := by rw [hp]; rintro ⟨⟩
  have hc := h.listed (by rw [hp]; exact id)
  have hloc := (h.here hw hne).1
  rw [hp] at hloc
  obtain ⟨hh, hk⟩ := hloc
  have hcr : c ≠ s.running := fun he => by cases hh.1.symm.trans (he ▸ h.self)
  simp only [exec, hp] at hs
  obtain ⟨r, -, hr, hs⟩ := Mem.get_bind_ok hs
  obtain ⟨m, hm, hs⟩ := of_bind_ok hs
  obtain rfl := Except.ok.inj hs
  obtain ⟨hmc, hmh⟩ := Mem.of_freeStack_ok hm
  obtain ⟨hsub, hkeep⟩ := of_freeStack hm
  have hstack := (h.stack hk hr).2
  have hknown : ∀ a, (a = s.running ∨ (if a = c then none else s.stopped a).isSome) ↔ Known s a ∧ a ≠ c := fun a => by
    by_cases hac : a = c
    · rw [if_pos hac]
      exact iff_of_false (fun hn => hcr (hac ▸ hn.resolve_right (by rintro ⟨⟩))) fun hn => hn.2 hac
    · rw [if_neg hac]
      exact (and_iff_left hac).symm
  have hedit : Edit hold hold s { s with mem := m, stopped := fun a => if a = c then none else s.stopped a } := by
    refine ⟨fun a ha => ?_, fun a x ha => ?_, rfl, fun a k ha => ?_, fun a ha => ?_, h.self,
      fun b x hb hx => ⟨hb, by rw [hmh], ?_, hkeep b ?_⟩, fun _ => h.same_ring hc hmc (fun a _ => next_congr (by rw [hmh])) fun a => ?_⟩
    · rw [hmh] at ha
      exact ⟨(h.heap a ha).1, fun hn => (h.heap a ha).2 (hsub a hn)⟩
    · rw [hmh]
      refine (h.holdIn a x ha).imp id (hkeep a ?_)
      rintro rfl
      cases hstack.symm.trans ha
    · have ha : (if a = c then none else s.stopped a) = some k := ha
      split_ifs at ha
      exact ha
    · obtain ⟨hka, hac⟩ := (hknown a).mp ha
      obtain ⟨t, ht, h1, h2⟩ := h.recs a hka
      have hst : t.stack ≠ r.stack := fun he => hac (h.inj a c t r hka hk ht hr he)
      exact ⟨t, t, ht, by rw [hmh, ht], rfl, rfl, h1.imp id (hkeep _ hst), h2⟩
    · refine (hknown b).trans (and_iff_left ?_)
      rintro rfl
      exact hx (Option.some.inj (hb.symm.trans hh.1))
    · rintro rfl
      cases hstack.symm.trans hb
    · refine (and_congr_left' (hknown a)).trans ?_
      rw [and_assoc]
      refine and_congr_right fun _ => ⟨fun hn => hn.2, fun hn => ⟨?_, hn⟩⟩
      rintro rfl
      cases hh.1.symm.trans hn
  refine h.goes hw hne ?_ hedit (fun hn => absurd hn hc) ⟨⟨hh.1, ?_⟩, fun hn => ((hknown c).mp hn).2 rfl⟩
  · exact ⟨hmc, rfl, rfl⟩
  · show c ∈ m.heap
    rw [hmh]
    exact hh.2

/-- `free(cur);` -/
theorem Inv.freeFiber (h : Inv hold s) {prev c : Addr} (hp : s.rip = .freeFiber prev c) (hs : exec o s = .ok s') :
    ∃ hold', Inv hold' s' := by
  have hw : ¬ s.rip.Window := by rw [hp]; exact id
  have hne : s.rip ≠ .swRet := by rw [hp]; rintro ⟨⟩
  have hc := h.listed (by rw [hp]; exact id)
  have hloc := (h.here hw hne).1
  rw [hp] at hloc
  obtain ⟨hh, hk⟩ := hloc
  simp only [exec, hp] at hs
  obtain ⟨m, hm, hs⟩ := of_bind_ok hs
  obtain ⟨-, -, rfl⟩ := Mem.of_free_ok hm
  obtain rfl := Except.ok.inj hs
  have hrec : ∀ a, a ≠ c → (s.mem.heap.erase c).lookup a = s.mem.heap.lookup a := fun a ha => AList.lookup_erase_ne ha
  have hkc : ∀ a, Known s a → a ≠ c := fun a ha he => hk (he ▸ ha)
  have hold_eq : ∀ a, a ≠ c → update hold c none a = hold a := fun a ha => update_of_ne ha _ _
  have hself : Known s s.running := Or.inl rfl
  have hedit : Edit hold (update hold c none) s { s with mem := { s.mem with heap := s.mem.heap.erase c } } := by
    refine ⟨fun a ha => h.heap a (AList.mem_erase.mp ha).2, fun a x ha => ?_, rfl, fun _ _ hk => hk, fun a ha => ?_,
      (hold_eq _ (hkc _ hself)).trans h.self, fun b x hb hx => ?_,
      fun _ => h.same_ring hc rfl (fun a ha => next_congr (hrec a (hkc a ha.1))) fun a => ?_⟩
    · by_cases hac : a = c
      · rw [hac, update_self] at ha
        cases ha
      · rw [hold_eq a hac] at ha
        exact (h.holdIn a x ha).imp_left fun hm => AList.mem_erase.mpr ⟨hac, hm⟩
    · obtain ⟨t, ht, h1, h2⟩ := h.recs a ha
      exact ⟨t, t, ht, (hrec a (hkc a ha)).trans ht, rfl, rfl, h1, (hold_eq _ (h.stack_ne ha ht hh.2)).trans h2⟩
    · have hbc : b ≠ c := by
        rintro rfl
        exact hx (Option.some.inj (hb.symm.trans hh.1))
      exact ⟨(hold_eq b hbc).trans hb, hrec b hbc, Iff.rfl, id⟩
    · exact and_congr_right fun ha => by rw [hold_eq a (hkc a ha)]
  refine ⟨_, h.goes hw hne ?_ hedit (fun hn => absurd hn hc) trivial⟩
  exact ⟨rfl, rfl, rfl⟩

/-! ### The two ends of the list's life -/

/-- The end of `InitMainFiber`: `Main` is the list. -/
theorem Inv.initCur (h : Inv hold s) (hp : s.rip = .initCur) (hs : exec o s = .ok s') : Inv hold s' := by
  have hw : ¬ s.rip.Window := by rw [hp]; exact id
  have hne : s.rip ≠ .swRet := by rw [hp]; rintro ⟨⟩
  obtain ⟨hloc, hps⟩ := h.here hw hne
  rw [hp] at hloc
  obtain ⟨hrun, hstop, -⟩ := h.start hloc.1
  simp only [exec, hp] at hs
  obtain ⟨k, hk, rfl⟩ := pop_ok hs
  have hk : s.rsp.height = k + 1 := hk
  rw [hk] at hps
  have hplain : Plain (s.words s.rsp.block k) := hps _ List.mem_cons_self
  have hmain : ∀ a, Known s a → a = Main := fun a ha => by
    rw [Known, hstop] at ha
    exact (ha.resolve_right (by rintro ⟨⟩)).trans hrun
  obtain ⟨r, hr, hb⟩ := h.live
  have hring : Ring s.mem.next Main [] := Ring.single hloc.2
  refine ⟨h.heap, h.holdIn, h.recs, fun hn => (by cases hn), h.self, fun _ => ⟨cycle_of_ring hring, fun a => ?_⟩, fun _ _ => hrun, h.kept,
    h.inj, ⟨r, hr, fun _ => hb fun hl => hw hl.switching.window⟩, fun a ha => ?_, fun hwin => absurd hwin hplain.not_window.1⟩
  · rw [nodes_of_ring (m := { s.mem with currentFiber := Main }) hring, List.mem_singleton]
    refine ⟨fun ha => hmain a ha.1, ?_⟩
    rintro rfl
    exact ⟨Or.inl hrun.symm, hrun ▸ h.self⟩
  · obtain rfl := (hmain a ha).trans hrun.symm
    exact fit_at rfl hplain.local fun q hq => hps q (List.mem_cons_of_mem _ hq)

/-- `CurrentFiber = to`: the window opens. -/
theorem Inv.yieldSet (h : Inv hold s) {frm dst : Addr} (hp : s.rip = .yieldSet frm dst) (hfresh : dst ∈ nodes s.mem)
    (hs : exec o s = .ok s') : Inv hold s' := by
  have hw : ¬ s.rip.Window := by rw [hp]; exact id
  have hne : s.rip ≠ .swRet := by rw [hp]; rintro ⟨⟩
  have hc := h.listed (by rw [hp]; exact id)
  obtain ⟨hcy, hn⟩ := h.ring hc
  obtain ⟨hloc, hps⟩ := h.here hw hne
  rw [hp] at hloc
  obtain ⟨rfl, hds⟩ := hloc
  simp only [exec, hp] at hs
  have hs := Except.ok.inj hs
  have hfits : ∀ a, Known s a → Fit hold s' a := fun a ha => by
    have hrun : s'.running = s.running := by rw [← hs]; rfl
    have hstop : s'.stopped = s.stopped := by rw [← hs]; rfl
    by_cases har : a = s.running
    · refine ⟨.yieldEnd, frames (s'.words s'.rsp.block) s'.rsp.height, ?_, by rwa [← hs], trivial⟩
      have hrip : s'.rip = .yieldSwitch s.running dst := by rw [← hs]; rfl
      rw [har, ← hrun, todo, chain_running (by rw [hrip]; exact id), hrip]
      rfl
    · obtain ⟨p, ps, hch, hps, hloc⟩ := h.fits a ha
      refine ⟨p, ps, ?_, hps, hloc.mono (fun b hb => ⟨hb, by rw [← hs]; rfl, ?_, by rw [← hs]; exact id⟩) fun hn => absurd hn hc⟩
      · rw [todo_congr har (by rwa [hrun]) (by rw [hstop]), hch]
      · rw [Known, Known, hrun, hstop]
  obtain rfl := hs
  have hd0 : dst ≠ NULL := h.ne_null ((hn dst).mpr hfresh).1
  obtain ⟨r, hr, hb⟩ := h.live
  have hring : Cycle { s.mem with currentFiber := dst } ∧ ∀ a, a ∈ nodes { s.mem with currentFiber := dst } ↔ a ∈ nodes s.mem :=
    hcy.enter hfresh rfl
  refine ⟨h.heap, h.holdIn, h.recs, fun hn => absurd hn hd0, h.self, fun _ => ⟨hring.1, fun a => (hn a).trans (hring.2 a).symm⟩,
    fun hn => absurd trivial hn, h.kept, h.inj, ⟨r, hr, fun _ => hb fun hl => hw hl.switching.window⟩,
    hfits, fun _ => ?_⟩
  exact ⟨hd0, hds, fun frm dst he => by obtain ⟨rfl, rfl⟩ := PC.yieldSwitch.inj he; exact ⟨rfl, rfl⟩, fun hn => absurd hn id,
    fun hn => absurd hn id, fun hn => absurd hn id⟩

/-- A `ret` that edits nothing. -/
theorem Inv.leaves (h : Inv hold s) (hw : ¬ s.rip.Window) (hne : s.rip ≠ .swRet) (hc : s.mem.currentFiber ≠ NULL) {g : Regs}
    (hs : s.leave g = .ok s') : Inv hold s' :=
  h.returns hw hne ⟨rfl, rfl, rfl⟩ h.edit (fun hn => absurd hn hc) hs

/-- A call from user code. -/
theorem Inv.user_calls (h : Inv hold s) (hp : s.rip = .user) {g : Regs} {pc : PC} (hloc : Local hold s s.running pc)
    (hpc : Early (s.call g .user pc) pc ↔ (s.call g .user pc).rsp.height = 1 ∧ (s.call g .user pc).words s.rsp.block 0 = .user) :
    Inv hold (s.call g .user pc) := by
  refine h.calls (by rw [hp]; exact id) (by rw [hp]; rintro ⟨⟩) g trivial (fun hn => hpc.mpr ?_) hloc
  have hz := (h.start hn).2.2
  rw [hp] at hz
  have hz : s.rsp.height = 0 := hz
  exact ⟨congrArg Nat.succ hz, if_pos ⟨rfl, hz.symm⟩⟩

/-! ### The functions of `fiber.c`, outside the window -/

section

variable (h : Inv hold s) (hw : ¬ s.rip.Window) (hne : s.rip ≠ .swRet)
include h hw hne

/-- User code. -/
theorem Inv.user (hf : s.rip.func = .user) (hs : exec o s = .ok s') : ∃ hold', Inv hold' s' := by
  have hearly : s.mem.currentFiber = NULL → Early s s.rip := fun hn => (h.start hn).2.2
  cases hp : s.rip with
  | user =>
    rw [hp] at hearly
    simp only [exec, hp] at hs
    cases ha : o.action with
    | work =>
      rw [ha] at hs
      obtain rfl := Except.ok.inj hs
      exact ⟨hold, h.stays hw hne hearly trivial⟩
    | spawn f args | yield | tryJoin =>
      rw [ha] at hs
      obtain rfl := Except.ok.inj hs
      exact ⟨hold, h.user_calls hp trivial Iff.rfl⟩
    | ret =>
      simp only [ha] at hs
      split_ifs at hs with hz
      · obtain rfl := Except.ok.inj hs
        exact ⟨hold, h.stays hw hne hearly trivial⟩
      · exact ⟨hold, h.leaves hw hne (fun hn => hz (hearly hn)) hs⟩
  | _ =>
    rw [hp] at hf
    cases hf

/-- `FiberTrampoline`. -/
theorem Inv.trampoline (hf : s.rip.func = .trampoline) (hs : exec o s = .ok s') : ∃ hold', Inv hold' s' := by
  have hlist := h.listed
  cases hp : s.rip with
  | trampCall =>
    have hc := hlist (by rw [hp]; exact id)
    simp only [exec, hp] at hs
    obtain ⟨r, -, -, hs⟩ := Mem.get_bind_ok hs
    obtain rfl := Except.ok.inj hs
    exact ⟨hold, h.calls hw hne _ trivial (fun hn => absurd hn hc) trivial⟩
  | trampFinish =>
    have hc := hlist (by rw [hp]; exact id)
    have hcur := h.current hc
    simp only [exec, hp] at hs
    obtain ⟨r, -, hr, hs⟩ := Mem.get_bind_ok hs
    obtain rfl := Except.ok.inj hs
    have hedit : Edit hold hold s { s with mem := s.mem.put s.mem.currentFiber { r with finished := true } } :=
      h.edit_put hr rfl rfl (fun y hy => by cases hcur.2.symm.trans hy) fun _ _ => rfl
    refine ⟨hold, h.goes hw hne ?_ ?_ (fun hn => absurd hn hc) ?_⟩
    · exact ⟨rfl, rfl, rfl⟩
    · exact hedit.congr rfl rfl rfl
    · exact trivial
  | trampYield =>
    have hc := hlist (by rw [hp]; exact id)
    simp only [exec, hp] at hs
    obtain rfl := Except.ok.inj hs
    exact ⟨hold, h.calls hw hne _ trivial (fun hn => absurd hn hc) trivial⟩
  | trampAssert =>
    simp only [exec, hp] at hs
    cases hs
  | _ =>
    rw [hp] at hf
    cases hf

/-- `InitMainFiber`. -/
theorem Inv.init (hf : s.rip.func = .init) (hs : exec o s = .ok s') : ∃ hold', Inv hold' s' := by
  have hloc := (h.here hw hne).1
  cases hp : s.rip with
  | initTest =>
    simp only [exec, hp] at hs
    split_ifs at hs with hn
    · exact ⟨hold, h.leaves hw hne hn hs⟩
    · obtain rfl := Except.ok.inj hs
      exact ⟨hold, h.stays hw hne (fun _ => trivial) (not_not.mp hn)⟩
  | initNext =>
    rw [hp] at hloc
    simp only [exec, hp] at hs
    obtain ⟨r, -, hr, hs⟩ := Mem.get_bind_ok hs
    obtain rfl := Except.ok.inj hs
    have hself : hold Main = none := (h.start hloc).1 ▸ h.self
    have hedit : Edit hold hold s { s with mem := s.mem.put Main { r with next := Main } } :=
      h.edit_put hr rfl rfl (fun y hy => by cases hself.symm.trans hy) fun hc => absurd hloc hc
    exact ⟨hold, h.puts hw hne hedit (fun _ => trivial) ⟨hloc, Mem.next_put.trans (if_pos rfl)⟩⟩
  | initF =>
    rw [hp] at hloc
    simp only [exec, hp] at hs
    obtain ⟨r, -, hr, hs⟩ := Mem.get_bind_ok hs
    obtain rfl := Except.ok.inj hs
    have hself : hold Main = none := (h.start hloc.1).1 ▸ h.self
    have hedit : Edit hold hold s { s with mem := s.mem.put Main { r with f := NULL } } :=
      h.edit_put hr rfl rfl (fun y hy => by cases hself.symm.trans hy) fun hc => absurd hloc.1 hc
    refine ⟨hold, h.puts hw hne hedit (fun _ => trivial) ⟨hloc.1, Mem.next_put.trans ((if_pos rfl).trans ?_)⟩⟩
    have hnext := hloc.2
    rwa [Mem.next, hr] at hnext
  | initCur => exact ⟨hold, h.initCur hp hs⟩
  | _ =>
    rw [hp] at hf
    cases hf

/-- `FiberSpawn`. -/
theorem Inv.spawn (hfresh : s.mem.currentFiber ≠ NULL → s.rip.Fresh s.mem s.running) (hf : s.rip.func = .spawn)
    (hs : exec o s = .ok s') : ∃ hold', Inv hold' s' := by
  have hloc := (h.here hw hne).1
  have hearly : s.mem.currentFiber = NULL → Early s s.rip := fun hn => (h.start hn).2.2
  have hlist := h.listed
  have hruns := h.runs hw
  cases hp : s.rip with
  | spawnTest f args =>
    rw [hp] at hearly
    simp only [exec, hp] at hs
    split_ifs at hs with hf
    · refine ⟨hold, h.returns hw hne ⟨rfl, rfl, rfl⟩ h.edit (fun hn => ?_) hs⟩
      obtain ⟨k, hk, rfl⟩ := pop_ok hs
      obtain ⟨h1, h2⟩ := hearly hn
      have hk : s.rsp.height = k + 1 := hk
      obtain rfl : k = 0 := by omega
      show Early _ (s.words s.rsp.block 0)
      rw [h2]
      rfl
    · obtain rfl := Except.ok.inj hs
      exact ⟨hold, h.stays hw hne hearly trivial⟩
  | spawnInit f args =>
    simp only [exec, hp] at hs
    obtain rfl := Except.ok.inj hs
    exact ⟨hold, h.calls hw hne _ trivial (fun _ => trivial) trivial⟩
  | spawnMalloc f args => exact h.spawnMalloc hp hs
  -- a field of the new fiber, which nobody else has
  | spawnF f args b | spawnArgs args b =>
    have hc := hlist (by rw [hp]; exact id)
    rw [hp] at hloc
    simp only [exec, hp] at hs
    obtain ⟨r, hb, -, hs⟩ := Mem.get_bind_ok hs
    obtain rfl := Except.ok.inj hs
    obtain ⟨hh, hk⟩ := hloc hb
    exact ⟨hold, h.puts hw hne (h.edit_own hh hk) (fun hn => absurd hn hc) fun _ => ⟨hh.put, hk⟩⟩
  | spawnFinished b =>
    have hc := hlist (by rw [hp]; exact id)
    rw [hp] at hloc
    simp only [exec, hp] at hs
    obtain ⟨r, hb, -, hs⟩ := Mem.get_bind_ok hs
    obtain rfl := Except.ok.inj hs
    obtain ⟨hh, hk⟩ := hloc hb
    exact ⟨hold, h.puts hw hne (h.edit_own hh hk) (fun hn => absurd hn hc) fun _ => ⟨hh.put, hk, finished_put⟩⟩
  | spawnStack b => exact h.spawnStack hp hs
  | spawnRsp b => exact h.spawnRsp hp hs
  | spawnNext b =>
    have hc := hlist (by rw [hp]; exact id)
    rw [hp] at hloc
    obtain ⟨hh, hk, hf⟩ := hloc
    simp only [exec, hp] at hs
    obtain ⟨r, -, hr, hs⟩ := Mem.get_bind_ok hs
    obtain rfl := Except.ok.inj hs
    rw [Mem.finished_eq hr] at hf
    have hedit : Edit hold hold s { s with mem := s.mem.put b { r with next := s.mem.currentFiber } } :=
      h.edit_put hr rfl rfl (fun y hy => Option.some.inj (hy.symm.trans hh.1)) fun _ hn => by cases hh.1.symm.trans hn.2
    refine ⟨hold, h.puts hw hne hedit (fun hn => absurd hn hc) ⟨hh.put, hk, finished_put.trans hf, ?_⟩⟩
    exact Mem.next_put.trans ((if_pos rfl).trans (congrArg some (hruns hc).symm))
  | spawnTail b =>
    have hc := hlist (by rw [hp]; exact id)
    rw [hp] at hloc
    simp only [exec, hp] at hs
    obtain rfl := Except.ok.inj hs
    exact ⟨hold, h.stays hw hne (fun hn => absurd hn hc) hloc⟩
  | spawnWhile b tail =>
    have hc := hlist (by rw [hp]; exact id)
    rw [hp] at hloc
    simp only [exec, hp] at hs
    obtain ⟨r, -, -, hs⟩ := Mem.get_bind_ok hs
    split_ifs at hs
    · obtain rfl := Except.ok.inj hs
      exact ⟨hold, h.stays hw hne (fun hn => absurd hn hc) hloc⟩
    · obtain rfl := Except.ok.inj hs
      exact ⟨hold, h.stays hw hne (fun hn => absurd hn hc) hloc⟩
  | spawnStep b tail =>
    have hc := hlist (by rw [hp]; exact id)
    rw [hp] at hloc
    simp only [exec, hp] at hs
    obtain ⟨r, -, -, hs⟩ := Mem.get_bind_ok hs
    obtain rfl := Except.ok.inj hs
    exact ⟨hold, h.stays hw hne (fun hn => absurd hn hc) hloc⟩
  | spawnLink b tail =>
    have hc := hlist (by rw [hp]; exact id)
    have hf := hfresh hc
    rw [hp] at hf
    exact h.spawnLink hp hf hs
  | _ =>
    rw [hp] at hf
    cases hf

/-- `FreeFinishedFibers`. -/
theorem Inv.free (hfresh : s.mem.currentFiber ≠ NULL → s.rip.Fresh s.mem s.running) (hf : s.rip.func = .free)
    (hs : exec o s = .ok s') : ∃ hold', Inv hold' s' := by
  have hloc := (h.here hw hne).1
  have hc := h.listed_free hf
  have hruns := h.runs hw
  cases hp : s.rip with
  | freePrev =>
    simp only [exec, hp] at hs
    obtain rfl := Except.ok.inj hs
    exact ⟨hold, h.stays hw hne (fun hn => absurd hn hc) (hruns hc).symm⟩
  | freeCur prev | freeNext prev =>
    simp only [exec, hp] at hs
    obtain ⟨r, -, -, hs⟩ := Mem.get_bind_ok hs
    obtain rfl := Except.ok.inj hs
    exact ⟨hold, h.stays hw hne (fun hn => absurd hn hc) trivial⟩
  | freeWhile prev c =>
    simp only [exec, hp] at hs
    split_ifs at hs with hcc
    · obtain rfl := Except.ok.inj hs
      exact ⟨hold, h.stays hw hne (fun hn => absurd hn hc) (show c ≠ s.running from hruns hc ▸ hcc)⟩
    · exact ⟨hold, h.leaves hw hne hc hs⟩
  | freeIf prev c =>
    rw [hp] at hloc
    simp only [exec, hp] at hs
    obtain ⟨r, -, -, hs⟩ := Mem.get_bind_ok hs
    split_ifs at hs
    · obtain rfl := Except.ok.inj hs
      exact ⟨hold, h.stays hw hne (fun hn => absurd hn hc) hloc⟩
    · obtain rfl := Except.ok.inj hs
      exact ⟨hold, h.stays hw hne (fun hn => absurd hn hc) hloc⟩
  | freeUnlink prev c =>
    have hf := hfresh hc
    rw [hp] at hf
    exact h.freeUnlink hp hf.2 hs
  | freeStack prev c => exact ⟨hold, h.freeStack hp hs⟩
  | freeFiber prev c => exact h.freeFiber hp hs
  | freeMove c =>
    simp only [exec, hp] at hs
    obtain rfl := Except.ok.inj hs
    exact ⟨hold, h.stays hw hne (fun hn => absurd hn hc) rfl⟩
  | freeStep prev c =>
    simp only [exec, hp] at hs
    obtain ⟨r, -, -, hs⟩ := Mem.get_bind_ok hs
    obtain rfl := Except.ok.inj hs
    exact ⟨hold, h.stays hw hne (fun hn => absurd hn hc) trivial⟩
  | _ =>
    rw [hp] at hf
    cases hf

/-- `FiberYield`. -/
theorem Inv.yield (hfresh : s.mem.currentFiber ≠ NULL → s.rip.Fresh s.mem s.running) (hf : s.rip.func = .yield)
    (hs : exec o s = .ok s') : ∃ hold', Inv hold' s' := by
  have hloc := (h.here hw hne).1
  have hlist := h.listed
  have hruns := h.runs hw
  cases hp : s.rip with
  | yieldInit =>
    simp only [exec, hp] at hs
    obtain rfl := Except.ok.inj hs
    exact ⟨hold, h.calls hw hne _ trivial (fun _ => trivial) trivial⟩
  | yieldFree =>
    have hc := hlist (by rw [hp]; exact id)
    simp only [exec, hp] at hs
    obtain rfl := Except.ok.inj hs
    exact ⟨hold, h.calls hw hne _ trivial (fun hn => absurd hn hc) trivial⟩
  | yieldFrom =>
    have hc := hlist (by rw [hp]; exact id)
    simp only [exec, hp] at hs
    obtain rfl := Except.ok.inj hs
    exact ⟨hold, h.stays hw hne (fun hn => absurd hn hc) (hruns hc).symm⟩
  | yieldTo frm =>
    have hc := hlist (by rw [hp]; exact id)
    rw [hp] at hloc
    simp only [exec, hp] at hs
    obtain ⟨r, -, -, hs⟩ := Mem.get_bind_ok hs
    obtain rfl := Except.ok.inj hs
    exact ⟨hold, h.stays hw hne (fun hn => absurd hn hc) hloc⟩
  | yieldTest frm dst =>
    have hc := hlist (by rw [hp]; exact id)
    rw [hp] at hloc
    have hloc : frm = s.running := hloc
    simp only [exec, hp] at hs
    split_ifs at hs with hd
    · exact ⟨hold, h.leaves hw hne hc hs⟩
    · obtain rfl := Except.ok.inj hs
      exact ⟨hold, h.stays hw hne (fun hn => absurd hn hc) ⟨hloc, hloc ▸ hd⟩⟩
  | yieldSet frm dst =>
    have hc := hlist (by rw [hp]; exact id)
    have hf := hfresh hc
    rw [hp] at hf
    exact ⟨hold, h.yieldSet hp hf hs⟩
  | yieldEnd =>
    have hc := hlist (by rw [hp]; exact id)
    simp only [exec, hp] at hs
    exact ⟨hold, h.leaves hw hne hc hs⟩
  | _ =>
    rw [hp] at hf
    cases hf

/-- `FiberTryJoin`. -/
theorem Inv.join (hf : s.rip.func = .join) (hs : exec o s = .ok s') : ∃ hold', Inv hold' s' := by
  have hlist := h.listed
  cases hp : s.rip with
  | joinInit =>
    simp only [exec, hp] at hs
    obtain rfl := Except.ok.inj hs
    exact ⟨hold, h.calls hw hne _ trivial (fun _ => trivial) trivial⟩
  | joinFree =>
    have hc := hlist (by rw [hp]; exact id)
    simp only [exec, hp] at hs
    obtain rfl := Except.ok.inj hs
    exact ⟨hold, h.calls hw hne _ trivial (fun hn => absurd hn hc) trivial⟩
  | joinTest =>
    have hc := hlist (by rw [hp]; exact id)
    simp only [exec, hp] at hs
    obtain ⟨r, -, -, hs⟩ := Mem.get_bind_ok hs
    exact ⟨hold, h.leaves hw hne hc hs⟩
  | _ =>
    rw [hp] at hf
    cases hf

end

/-- **One statement.** Every statement of the C functions outside the window keeps the invariant, if its pointers are fresh. -/
theorem Inv.statement (h : Inv hold s) (hfresh : s.mem.currentFiber ≠ NULL → s.rip.Fresh s.mem s.running) (hw : ¬ s.rip.Window)
    (hne : s.rip ≠ .swRet) (hs : exec o s = .ok s') : ∃ hold', Inv hold' s' := by
  cases hf : s.rip.func with
  | user => exact h.user hw hne hf hs
  | trampoline => exact h.trampoline hw hne hf hs
  | init => exact h.init hw hne hf hs
  | spawn => exact h.spawn hw hne hfresh hf hs
  | free => exact h.free hw hne hfresh hf hs
  | yield => exact h.yield hw hne hfresh hf hs
  | join => exact h.join hw hne hf hs
  | switch => exact absurd (func_switch.mp hf) (not_or.mpr ⟨hw, hne⟩)

end Steps
end PFibers
end OsLabs
