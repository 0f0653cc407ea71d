/-
# The list of fibers under preemption

In a run that is `Careful` the `next` pointers form one cycle with every unfinished fiber in it, and no statement
goes to memory that is not allocated (`one_cycle`); and each fiber that does not run is found where it stopped
(`contexts_kept_iff`). A stale pointer breaks the first: a tick between the search of `FiberSpawn` and
`tail->next = fiber` lets another fiber free `tail` (`tail_freed`). A tick in the window of the switch breaks
the second (`preemptedYield_mixes`).

Main results: `one_cycle`, `contexts_kept_iff`.
-/
import OsLabs.PFibers.Fresh

namespace OsLabs
namespace PFibers
namespace Steps

open Fibers (Addr NULL Main Fiber Fault Mem)
open Run State
open Function (update_of_ne)

variable {hold : Addr → Option Addr} {s s' s₁ : State} {o : Choice} {a b c : Addr}

/-! ### The statements -/

/-- A step or a run that goes to no freed memory. -/
abbrev Sound (r : Except Fault State) : Prop := Sat Good (fun x => ¬ Freed x) r

/-- A read of a record that is allocated, or through a null pointer. -/
theorem sound_get {m : Mem Context} {k : Fiber Context → Except Fault State} (ha : a ≠ NULL → ∃ r, m.heap.lookup a = some r)
    (hk : ∀ r, a ≠ NULL → m.heap.lookup a = some r → Sound (k r)) : Sound (m.get a >>= k) := by
  by_cases hn : a = NULL
  · rw [Mem.get, if_pos hn]
    exact id
  · obtain ⟨r, hr⟩ := ha hn
    rw [Mem.get_ok hn hr]
    exact hk r hn hr

/-- `PrepareStack`: a new fiber at the start of `FiberTrampoline`. -/
theorem Good.spawnRsp (h : Inv hold s) (g : Good s) (hp : s.rip = .spawnRsp b) : Sound (exec o s) := by
  have hw : ¬ s.rip.Window := by rw [hp]; exact id
  have hne : s.rip ≠ .swRet := by rw [hp]; rintro ⟨⟩
  have hc := h.listed (by rw [hp]; exact id)
  have hloc := (h.here hw hne).1
  rw [hp] at hloc
  simp only [exec, hp]
  refine sound_get (fun hb => Mem.exists_of_mem (hloc hb).1.2) fun r hb hr => ?_
  obtain ⟨hh, hk, hf, hstack⟩ := hloc hb
  by_cases hnull : r.stack = NULL
  · rw [if_pos hnull]
    exact id
  obtain ⟨hst, hblock⟩ := hstack r hr hnull
  rw [if_neg hnull, if_neg (not_not.mpr hblock)]
  have hoff := h.held_off hc hh.1
  have hbm := (g.enrolled hc).ne_main hoff
  show Good _
  generalize hs : State.goto _ _ _ = s'
  have hrun : s'.running = s.running := by rw [← hs]; rfl
  have hcur : s'.mem.currentFiber = s.mem.currentFiber := by rw [← hs]; rfl
  have hrsp : s'.rsp = s.rsp := by rw [← hs]; rfl
  have hrip : s'.rip = .spawnNext b := by rw [← hs]; rfl
  have hmem : s'.mem = s.mem.put b { r with context := { r.context with rsp := ⟨r.stack, 1⟩ } } := by rw [← hs]; rfl
  have hun : s'.unfinished = s.unfinished := by rw [← hs]; rfl
  have hstop : ∀ a, a ≠ b → s'.stopped a = s.stopped a := fun a ha => by
    rw [← hs]
    exact if_neg ha
  have hstopb : ∃ k, s'.stopped b = some k ∧ frames k.words k.ctx.rsp.height = [.trampCall] := by
    rw [← hs]
    refine ⟨_, if_pos rfl, ?_⟩
    show [ite _ _ _] = _
    rw [if_pos ⟨rfl, rfl⟩]
  have hwords : ∀ x, x ≠ r.stack → s'.words x = s.words x := fun x hx => by
    rw [← hs]
    funext i
    exact if_neg fun hn => hx hn.1
  clear hs
  have hrunb : b ≠ s.running := fun he => hk (Or.inl he)
  have hown : s.rsp.block ≠ r.stack := fun he => by
    obtain ⟨r₀, hr₀, hb₀⟩ := h.live
    have hnone := (h.stack (Or.inl rfl) hr₀).2
    rw [← hb₀ fun hl => hw hl.switching.window, he, hst] at hnone
    cases hnone
  have hedit : Edits s { s with mem := s'.mem } := hmem ▸ g.edits_put h hc hoff
  have hnest := (g.here hw hne).goes (q := .spawnNext b) (by rw [hp]; rfl)
  refine g.advance hrun (fun a ha har => ?_) ?_ hnest (fun hn => absurd (hcur ▸ hn) hc)
    (fun _ => (hedit.enrolled hc).congr (fun a ha => ⟨ha, rfl⟩) hun) fun _ => trivial
  · by_cases hab : a = b
    · obtain ⟨k, hk', hfr⟩ := hstopb
      refine Or.inr ⟨?_, hab ▸ hbm⟩
      rw [hab, todo, chain_stopped (by rwa [hrun]) hk', hfr]
      rfl
    · left
      rw [Known, hrun, hstop a hab] at ha
      exact ⟨ha, todo_congr har (by rwa [hrun]) (hstop a hab)⟩
  · rw [← hrun, todo_at hrip (by rintro ⟨⟩), hrsp, hwords _ hown]

/-- `CurrentFiber = to`: the window opens. -/
theorem Good.yieldSet (h : Inv hold s) (g : Good s) {frm dst : Addr} (hp : s.rip = .yieldSet frm dst) : Sound (exec o s) := by
  have hw : ¬ s.rip.Window := by rw [hp]; exact id
  have hne : s.rip ≠ .swRet := by rw [hp]; rintro ⟨⟩
  have hc := h.listed (by rw [hp]; exact id)
  have hcy := (h.ring hc).1
  have hfresh := g.pointers hw hne hc
  have hnest := (g.here hw hne).goes (q := .yieldEnd) (by rw [hp]; rfl)
  rw [hp] at hfresh
  have hfresh : dst ∈ nodes s.mem := hfresh
  have hn : ∀ a, a ∈ nodes { s.mem with currentFiber := dst } ↔ a ∈ nodes s.mem := (hcy.enter hfresh (by rfl)).2
  have hd0 : dst ≠ NULL := h.ne_null (((h.ring hc).2 dst).mpr hfresh).1
  simp only [exec, hp]
  show Good _
  generalize hs : State.goto _ _ _ = s'
  have hrun : s'.running = s.running := by rw [← hs]; rfl
  have hrip : s'.rip = .yieldSwitch frm dst := by rw [← hs]; rfl
  have hstop : s'.stopped = s.stopped := by rw [← hs]; rfl
  have hmem : s'.mem = { s.mem with currentFiber := dst } := by rw [← hs]; rfl
  have hun : s'.unfinished = s.unfinished := by rw [← hs]; rfl
  have htop : todo s' s.running = .yieldEnd :: frames (s.words s.rsp.block) s.rsp.height := by
    rw [← hrun, todo, chain_running (by rw [hrip]; exact id), hrip, ← hs]
    rfl
  refine g.advance hrun (fun a ha har => Or.inl (same_todo hrun (fun b k hk => hstop ▸ hk) ha har)) htop hnest
    (fun hz => ?_) (fun _ => (g.enrolled hc).congr (fun a ha => ?_) hun) fun _ => trivial
  · rw [hmem] at hz
    exact absurd hz hd0
  · rw [hmem]
    exact ⟨(hn a).mpr ha, rfl⟩

/-- The end of `InitMainFiber`: `Main` is the list. -/
theorem Good.initCur (h : Inv hold s) (g : Good s) (hp : s.rip = .initCur) : Sound (exec o s) := by
  have hw : ¬ s.rip.Window := by rw [hp]; exact id
  have hne : s.rip ≠ .swRet := by rw [hp]; rintro ⟨⟩
  obtain ⟨hloc, hps⟩ := h.here hw hne
  rw [hp] at hloc
  obtain ⟨-, hstop, -⟩ := h.start hloc.1
  obtain ⟨k, hk⟩ := Nat.exists_eq_succ_of_ne_zero (g.height_ne hw hne hp rfl)
  have hplain := hps (s.words s.rsp.block k) (by rw [hk]; exact List.mem_cons_self)
  have hnest := g.here hw hne
  rw [hk] at hnest
  have hnest : Nested s.running (s.words s.rsp.block k :: frames (s.words s.rsp.block) k) := hnest.returns (by rintro ⟨⟩)
  simp only [exec, hp, leave, pop, hk]
  show Good _
  generalize hs : State.mk _ _ _ _ _ _ _ _ = s'
  have hrun' : s'.running = s.running := by rw [← hs]
  have hstop' : s'.stopped = s.stopped := by rw [← hs]
  have hmem : s'.mem = { s.mem with currentFiber := Main } := by rw [← hs]
  have hun : s'.unfinished = [Main] := by rw [← hs]
  have htop : todo s' s.running = s.words s.rsp.block k :: frames (s.words s.rsp.block) k := by
    obtain ⟨hwin, hret, -⟩ := hplain.not_window
    rw [← hrun', todo_at (p := s.words s.rsp.block k) (by rw [← hs]) fun hl => (level_switching.mp hl).elim hwin hret, ← hs]
  clear hs
  have hring : Ring s.mem.next Main [] := Ring.single hloc.2
  refine g.advance hrun' (fun a ha har => ?_) htop hnest (fun hz => ?_) (fun _ => ?_) fun _ => hplain.fresh
  · rw [Known, hrun', hstop', hstop a] at ha
    exact absurd (ha.resolve_right (by rintro ⟨⟩)) har
  · rw [hmem] at hz
    cases hz
  · refine ⟨by rw [hun]; exact List.mem_cons_self, fun a ha => ?_, by rw [hun]; exact List.nodup_singleton _⟩
    rw [hun, List.mem_singleton] at ha
    rw [ha, hmem]
    refine ⟨?_, g.main hloc.1⟩
    rw [nodes_of_ring (m := { s.mem with currentFiber := Main }) hring]
    exact List.mem_cons_self

/-- `InitMainFiber` writes to `Main`. -/
theorem Good.edits_main (g : Good s) (hc : s.mem.currentFiber = NULL) {r r' : Fiber Context}
    (hr : s.mem.heap.lookup Main = some r) (hf : r'.finished = r.finished) : Edits s { s with mem := s.mem.put Main r' } := by
  refine ⟨⟨rfl, rfl, rfl⟩, rfl, fun _ _ hk => hk, fun hn => ?_, fun hn => absurd hc hn⟩
  have hmain := g.main hn
  rw [Mem.finished_eq hr] at hmain
  exact finished_put.trans (hf.trans hmain)

/-- The end of a stack that is allocated. -/
theorem freeStack_ok {m : Mem Context} {st : Addr} (h : Allocated m st) : ∃ m', m.freeStack st = .ok m' := by
  unfold Mem.freeStack
  split_ifs with hn hb
  · exact ⟨_, rfl⟩
  · exact ⟨_, rfl⟩
  · exact absurd h (not_or.mpr ⟨hn, hb⟩)

/-! ### The functions of `fiber.c`, outside the window -/

/-- The record of `CurrentFiber`, if there is a list. -/
theorem Inv.current_lookup (h : Inv hold s) (hc : s.mem.currentFiber ≠ NULL) : ∃ r, s.mem.heap.lookup s.mem.currentFiber = some r :=
  (h.ring hc).1.lookup (h.ring hc).1.current_mem

/-- The record of `Main`, before there is one. -/
theorem Inv.main_lookup (h : Inv hold s) (hn : s.mem.currentFiber = NULL) : ∃ r, s.mem.heap.lookup Main = some r := by
  obtain ⟨r, hr, -⟩ := h.live
  exact ⟨r, (h.start hn).1 ▸ hr⟩

section

variable (h : Inv hold s) (g : Good s) (hw : ¬ s.rip.Window) (hne : s.rip ≠ .swRet)
include h g hw hne

/-- A function of the library that has edited nothing returns. -/
theorem Good.comes_back {p : PC} {w : Regs} (hp : s.rip = p) (hl : p.level = .library) : Sound (s.leave w) :=
  g.leaves h hw hne g.edits (g.height_ne hw hne hp hl)

/-- User code. -/
theorem Good.user (hf : s.rip.func = .user) : Sound (exec o s) := by
  cases hp : s.rip with
  | user =>
    simp only [exec, hp]
    cases ha : o.action with
    | work => exact g.goes hw hne g.edits hp rfl fun _ => trivial
    | spawn f args | yield | tryJoin => exact g.calls hw hne hp rfl (Or.inl rfl) trivial
    | ret =>
      show Sound (if _ then _ else _)
      split_ifs with hz
      · exact g.goes hw hne g.edits hp rfl fun _ => trivial
      · exact g.leaves h hw hne g.edits hz
  | _ =>
    rw [hp] at hf
    cases hf

/-- `FiberTrampoline`. -/
theorem Good.trampoline (hf : s.rip.func = .trampoline) : Sound (exec o s) := by
  have hlist := h.listed
  have hruns := h.runs hw
  cases hp : s.rip with
  | trampCall =>
    simp only [exec, hp]
    exact sound_get h.current_lookup fun r _ _ => g.calls hw hne hp rfl (Or.inr rfl) trivial
  | trampFinish =>
    have hc := hlist (by rw [hp]; exact id)
    have hmain : s.mem.currentFiber ≠ Main := hruns hc ▸ (g.here hw hne).not_main (by rw [hp]; rfl)
    simp only [exec, hp]
    refine sound_get h.current_lookup fun r _ hr => ?_
    exact g.goes hw hne (g.edits_finish h hc hr hmain) hp rfl fun _ => trivial
  | trampYield =>
    simp only [exec, hp]
    exact g.calls hw hne hp rfl (Or.inl rfl) trivial
  | trampAssert =>
    simp only [exec, hp]
    exact id
  | _ =>
    rw [hp] at hf
    cases hf

/-- `InitMainFiber`. -/
theorem Good.init (hf : s.rip.func = .init) : Sound (exec o s) := by
  have hloc := (h.here hw hne).1
  cases hp : s.rip with
  | initTest =>
    simp only [exec, hp]
    split_ifs with hn
    · exact g.comes_back h hw hne hp rfl
    · exact g.goes hw hne g.edits hp rfl fun _ => trivial
  | initNext =>
    rw [hp] at hloc
    simp only [exec, hp]
    refine sound_get (fun _ => h.main_lookup hloc) fun r _ hr => ?_
    exact g.goes hw hne (g.edits_main hloc hr (by rfl)) hp rfl fun _ => trivial
  | initF =>
    rw [hp] at hloc
    simp only [exec, hp]
    refine sound_get (fun _ => h.main_lookup hloc.1) fun r _ hr => ?_
    exact g.goes hw hne (g.edits_main hloc.1 hr (by rfl)) hp rfl fun _ => trivial
  | initCur => exact g.initCur h hp
  | _ =>
    rw [hp] at hf
    cases hf

/-- `FiberSpawn`. -/
theorem Good.spawn (hf : s.rip.func = .spawn) : Sound (exec o s) := by
  have hloc := (h.here hw hne).1
  have hfresh := g.pointers hw hne
  have hlist := h.listed
  have hruns := h.runs hw
  cases hp : s.rip with
  | spawnTest f args =>
    simp only [exec, hp]
    split_ifs with hf
    · exact g.comes_back h hw hne hp rfl
    · exact g.goes hw hne g.edits hp rfl fun _ => trivial
  | spawnInit f args =>
    simp only [exec, hp]
    exact g.calls hw hne hp rfl (Or.inl rfl) trivial
  | spawnMalloc f args =>
    have hc := hlist (by rw [hp]; exact id)
    simp only [exec, hp]
    split_ifs with hm
    · exact g.goes hw hne g.edits hp rfl fun _ => trivial
    · have hoff := h.off hc fun hn => (h.unused (malloc_unused hm)).1 hn.1
      exact g.goes hw hne (g.edits_put h hc hoff) hp rfl fun _ => trivial
  | spawnF f args b | spawnArgs args b | spawnFinished b =>
    have hc := hlist (by rw [hp]; exact id)
    rw [hp] at hloc
    simp only [exec, hp]
    refine sound_get (fun hb => Mem.exists_of_mem (hloc hb).1.2) fun r hb _ => ?_
    exact g.goes hw hne (g.edits_put h hc (h.held_off hc (hloc hb).1.1)) hp rfl fun _ => trivial
  | spawnStack b =>
    have hc := hlist (by rw [hp]; exact id)
    rw [hp] at hloc
    simp only [exec, hp]
    refine sound_get (fun hb => Mem.exists_of_mem (hloc hb).1.2) fun r hb hr => ?_
    have hoff := h.held_off hc (hloc hb).1.1
    split_ifs with hm
    · exact g.goes hw hne (g.edits_put h hc hoff) hp rfl fun _ => trivial
    · have hput : Edits s { s with mem := { s.mem.put b { r with stack := malloc s.mem o.malloc } with
            stackBlocks := malloc s.mem o.malloc :: s.mem.stackBlocks } } ∧
          nodes { s.mem.put b { r with stack := malloc s.mem o.malloc } with
            stackBlocks := malloc s.mem o.malloc :: s.mem.stackBlocks } = nodes s.mem := by
        refine g.edits_off h hc ?_ hoff (fun a ha => Mem.lookup_put.trans (if_neg ha)) rfl (fun _ _ hk => hk) rfl
        exact ⟨rfl, rfl, rfl⟩
      exact g.goes hw hne hput.1 hp rfl fun _ => trivial
  | spawnRsp b => exact g.spawnRsp h hp
  | spawnNext b =>
    have hc := hlist (by rw [hp]; exact id)
    rw [hp] at hloc
    simp only [exec, hp]
    refine sound_get (fun _ => Mem.exists_of_mem hloc.1.2) fun r _ hr => ?_
    exact g.goes hw hne (g.edits_put h hc (h.held_off hc hloc.1.1)) hp rfl fun _ => trivial
  | spawnTail b =>
    simp only [exec, hp]
    exact g.goes hw hne g.edits hp rfl fun hc => (h.ring hc).1.current_mem
  | spawnWhile b tail =>
    have hc := hlist (by rw [hp]; exact id)
    have hfresh := hfresh hc
    rw [hp] at hfresh
    simp only [exec, hp]
    refine sound_get (fun _ => (h.ring hc).1.lookup hfresh) fun r _ hr => ?_
    split_ifs with hn
    · exact g.goes hw hne g.edits hp rfl fun _ => hfresh
    · refine g.goes hw hne g.edits hp rfl fun _ => ⟨hfresh, ?_⟩
      exact (Fibers.next_of_lookup hr).trans (congrArg some ((not_not.mp hn).trans (hruns hc).symm))
  | spawnStep b tail =>
    have hc := hlist (by rw [hp]; exact id)
    have hfresh := hfresh hc
    rw [hp] at hfresh
    simp only [exec, hp]
    refine sound_get (fun _ => (h.ring hc).1.lookup hfresh) fun r _ hr => ?_
    exact g.goes hw hne g.edits hp rfl fun _ => (h.ring hc).1.next_mem hfresh hr
  | spawnLink b tail =>
    have hc := hlist (by rw [hp]; exact id)
    have hfresh := hfresh hc
    rw [hp] at hloc hfresh
    obtain ⟨htail, hnext⟩ := hfresh
    obtain ⟨hh, -, hf, hbn⟩ := hloc
    simp only [exec, hp]
    refine sound_get (fun _ => (h.ring hc).1.lookup htail) fun r _ hr => ?_
    have hedit := g.edits_link h hc hr (h.held_off hc hh.1) hf (hruns hc ▸ hbn) htail (hruns hc ▸ hnext)
    rw [hp] at hedit
    exact g.leaves h hw hne hedit (g.height_ne hw hne hp rfl)
  | _ =>
    rw [hp] at hf
    cases hf

/-- `FreeFinishedFibers`. -/
theorem Good.free (hf : s.rip.func = .free) : Sound (exec o s) := by
  have hloc := (h.here hw hne).1
  have hc := h.listed_free hf
  have hfresh := g.pointers hw hne hc
  have hruns := h.runs hw hc
  have hcy := (h.ring hc).1
  -- the loop goes on behind `prev`
  have hwalk : ∀ {prev : Addr} {r : Fiber Context}, prev ∈ nodes s.mem → s.mem.heap.lookup prev = some r →
      r.next ≠ s.running → r.next ∈ nodes s.mem ∧
        (s.mem.finished r.next = true → prev ∈ nodes s.mem ∧ s.mem.next prev = some r.next) := fun hprev hr _ =>
    ⟨hcy.next_mem hprev hr, fun _ => ⟨hprev, Fibers.next_of_lookup hr⟩⟩
  cases hp : s.rip with
  | freePrev =>
    simp only [exec, hp]
    exact g.goes hw hne g.edits hp rfl fun _ => trivial
  | freeCur prev =>
    rw [hp] at hloc
    have hprev : prev ∈ nodes s.mem := (show prev = s.running from hloc) ▸ h.self_mem hc
    simp only [exec, hp]
    refine sound_get (fun _ => hcy.lookup hprev) fun r _ hr => ?_
    exact g.goes hw hne g.edits hp rfl fun _ => hwalk hprev hr
  | freeWhile prev c =>
    simp only [exec, hp]
    split_ifs with hcc
    · rw [hp] at hfresh
      exact g.goes hw hne g.edits hp rfl fun _ => hfresh (hruns ▸ hcc)
    · exact g.comes_back h hw hne hp rfl
  | freeIf prev c =>
    rw [hp] at hfresh
    obtain ⟨hcn, hprev⟩ := hfresh
    simp only [exec, hp]
    refine sound_get (fun _ => hcy.lookup hcn) fun r _ hr => ?_
    split_ifs with hf
    · have hf := (Mem.finished_eq hr).trans hf
      exact g.goes hw hne g.edits hp rfl fun _ => ⟨hf, hprev hf⟩
    · exact g.goes hw hne g.edits hp rfl fun _ => hcn
  | freeUnlink prev c =>
    rw [hp] at hloc hfresh
    have hcr : c ≠ s.running := hloc
    obtain ⟨hf, hprev, hnext⟩ := hfresh
    obtain ⟨p, hpr⟩ := hcy.lookup hprev
    have hcn : c ∈ nodes s.mem := by
      rw [Fibers.next_of_lookup hpr, Option.some.injEq] at hnext
      exact hnext ▸ hcy.next_mem hprev hpr
    simp only [exec, hp]
    refine sound_get (fun _ => hcy.lookup hcn) fun r _ hr => sound_get (fun _ => ⟨p, hpr⟩) fun q _ hq => ?_
    obtain ⟨hedit, hmem⟩ := g.edits_unlink h hc hr hq hprev hnext (hruns ▸ hcr) hf
    exact g.goes hw hne hedit hp rfl fun _ => hmem
  | freeStack prev c =>
    rw [hp] at hloc hfresh
    obtain ⟨hh, hk⟩ := hloc
    obtain ⟨r, hr, hst, -⟩ := h.recs c hk
    obtain ⟨m, hm⟩ := freeStack_ok hst
    obtain ⟨hmc, hmh⟩ := Mem.of_freeStack_ok hm
    simp only [exec, hp]
    refine sound_get (fun _ => ⟨r, hr⟩) fun t _ ht => ?_
    obtain rfl := Option.some.inj (hr.symm.trans ht)
    rw [hm, ok_bind]
    have hend : Edits s { s with mem := m, stopped := fun a => if a = c then none else s.stopped a } ∧ nodes m = nodes s.mem := by
      refine g.edits_off h hc ⟨hmc, rfl, rfl⟩ (h.held_off hc hh.1) (fun a _ => by rw [hmh]) rfl (fun a k ha => ?_) rfl
      have ha : (if a = c then none else s.stopped a) = some k := ha
      split_ifs at ha
      exact ha
    refine g.goes hw hne hend.1 hp rfl fun _ => ?_
    show prev ∈ nodes m
    rwa [hend.2]
  | freeFiber prev c =>
    rw [hp] at hloc hfresh
    have hoff := h.held_off hc hloc.1.1
    have hfree : s.mem.free c = .ok { s.mem with heap := s.mem.heap.erase c } :=
      if_neg fun hn => hn.elim ((g.enrolled hc).ne_main hoff) fun hn => hn hloc.1.2
    simp only [exec, hp]
    rw [hfree, ok_bind]
    have hend : Edits s { s with mem := { s.mem with heap := s.mem.heap.erase c } } ∧
        nodes { s.mem with heap := s.mem.heap.erase c } = nodes s.mem :=
      g.edits_off h hc ⟨rfl, rfl, rfl⟩ hoff (fun a ha => AList.lookup_erase_ne ha) rfl (fun _ _ hk => hk) rfl
    refine g.goes hw hne hend.1 hp rfl fun _ => ?_
    show prev ∈ nodes { s.mem with heap := s.mem.heap.erase c }
    rwa [hend.2]
  | freeNext prev =>
    rw [hp] at hfresh
    simp only [exec, hp]
    refine sound_get (fun _ => hcy.lookup hfresh) fun r _ hr => ?_
    exact g.goes hw hne g.edits hp rfl fun _ => hwalk hfresh hr
  | freeMove c =>
    simp only [exec, hp]
    rw [hp] at hfresh
    exact g.goes hw hne g.edits hp rfl fun _ => hfresh
  | freeStep prev c =>
    rw [hp] at hloc hfresh
    obtain rfl : prev = c := hloc
    simp only [exec, hp]
    refine sound_get (fun _ => hcy.lookup hfresh) fun r _ hr => ?_
    exact g.goes hw hne g.edits hp rfl fun _ => hwalk hfresh hr
  | _ =>
    rw [hp] at hf
    cases hf

/-- `FiberYield`. -/
theorem Good.yield (hf : s.rip.func = .yield) : Sound (exec o s) := by
  have hfresh := g.pointers hw hne
  cases hp : s.rip with
  | yieldInit | yieldFree =>
    simp only [exec, hp]
    exact g.calls hw hne hp rfl (Or.inl rfl) trivial
  | yieldFrom =>
    simp only [exec, hp]
    exact g.goes hw hne g.edits hp rfl fun _ => trivial
  | yieldTo frm =>
    simp only [exec, hp]
    refine sound_get h.current_lookup fun r _ hr => ?_
    exact g.goes hw hne g.edits hp rfl fun hc => (h.ring hc).1.next_mem (h.ring hc).1.current_mem hr
  | yieldTest frm dst =>
    rw [hp] at hfresh
    simp only [exec, hp]
    split_ifs with hd
    · exact g.comes_back h hw hne hp rfl
    · exact g.goes hw hne g.edits hp rfl hfresh
  | yieldSet frm dst => exact g.yieldSet h hp
  | yieldEnd =>
    simp only [exec, hp]
    exact g.comes_back h hw hne hp rfl
  | _ =>
    rw [hp] at hf
    cases hf

/-- `FiberTryJoin`. -/
theorem Good.join (hf : s.rip.func = .join) : Sound (exec o s) := by
  cases hp : s.rip with
  | joinInit | joinFree =>
    simp only [exec, hp]
    exact g.calls hw hne hp rfl (Or.inl rfl) trivial
  | joinTest =>
    simp only [exec, hp]
    exact sound_get h.current_lookup fun r _ _ => g.comes_back h hw hne hp rfl
  | _ =>
    rw [hp] at hf
    cases hf

end

/-- What the code of the library does at a statement with the right locals. -/
theorem Good.statement (h : Inv hold s) (g : Good s) (hw : ¬ s.rip.Window) (hne : s.rip ≠ .swRet) : Sound (exec o s) := by
  cases hf : s.rip.func with
  | user => exact g.user h hw hne hf
  | trampoline => exact g.trampoline h hw hne hf
  | init => exact g.init h hw hne hf
  | spawn => exact g.spawn h hw hne hf
  | free => exact g.free h hw hne hf
  | yield => exact g.yield h hw hne hf
  | join => exact g.join h hw hne hf
  | switch => exact absurd (func_switch.mp hf) (not_or.mpr ⟨hw, hne⟩)

/-! ### The switch and the tick -/

/-- After a handover the fiber that runs finds its pointers as they were. -/
theorem Good.handover (h : Inv hold s) (g : Good s) (hc : s.mem.currentFiber ≠ NULL) (hh : Handover hold s s')
    (hcur : s'.mem.currentFiber ∈ nodes s.mem) (hfresh : Fresh s s'.running) : Good s' := by
  obtain ⟨-, hn⟩ := (h.ring hc).1.enter hcur hh.next
  have hrun := (hh.known _).mp (Or.inl rfl)
  have hc' : s'.mem.currentFiber ≠ NULL := h.ne_null (((h.ring hc).2 _).mpr hcur).1
  refine ⟨fun hz => absurd hz hc', fun a ha => ?_, fun _ => (g.enrolled hc).congr (fun a ha => ⟨(hn a).mpr ha, hh.finished a⟩) hh.unfinished,
    fun _ p hp => ?_⟩
  · rw [hh.todo a ((hh.known a).mp ha)]
    exact g.nested a ((hh.known a).mp ha)
  · rw [hh.todo _ hrun] at hp
    exact (hfresh p hp).congr hn hh.next hh.finished

/-- An instruction of the window goes to the records of the two fibers only. -/
theorem Inv.window_ok (h : Inv hold s) (hw : s.rip.Window) :
    ∃ s', exec o s = .ok s' ∧ s'.mem.currentFiber = s.mem.currentFiber ∧
      (s.rip = .loadRsi → s'.running = s.mem.currentFiber) := by
  have hsw := h.switch hw
  have hcy := (h.ring hsw.current).1
  obtain ⟨r, hr⟩ := hcy.lookup (h.self_mem hsw.current)
  obtain ⟨t, ht⟩ := hcy.lookup hcy.current_mem
  have hfrom := Mem.get_ok (h.ne_null (Or.inl rfl)) hr
  have hto := Mem.get_ok hsw.current ht
  have hrdi := hsw.rdi
  have hrsi := hsw.rsi
  cases hp : s.rip with
  | yieldSwitch frm dst | pushfq | popfq fl =>
    simp only [exec, hp]
    exact ⟨_, rfl, rfl, by rintro ⟨⟩⟩
  | popSaved fl =>
    rw [hp] at hrdi
    simp only [exec, hp, hrdi trivial, hfrom, ok_bind]
    exact ⟨_, rfl, rfl, by rintro ⟨⟩⟩
  | save rest =>
    rw [hp] at hrdi
    cases rest <;> simp only [exec, hp, hrdi trivial, hfrom, ok_bind] <;> exact ⟨_, rfl, rfl, by rintro ⟨⟩⟩
  | load rest =>
    rw [hp] at hrsi
    cases rest <;> simp only [exec, hp, hrsi trivial, hto, ok_bind] <;> exact ⟨_, rfl, rfl, by rintro ⟨⟩⟩
  | pushSaved =>
    rw [hp] at hrsi
    simp only [exec, hp, hrsi trivial, hto, ok_bind]
    exact ⟨_, rfl, rfl, by rintro ⟨⟩⟩
  | loadRsi =>
    rw [hp] at hrsi
    simp only [exec, hp, hrsi trivial, hto, ok_bind]
    exact ⟨_, rfl, rfl, fun _ => rfl⟩
  | _ =>
    rw [hp] at hw
    exact absurd hw id

theorem Good.in_window (h : Inv hold s) (g : Good s) (hw : s.rip.Window) (hcare : s.rip = .loadRsi → Fresh s s.mem.currentFiber) :
    Sound (exec o s) := by
  have hc := (h.switch hw).current
  have hcm := (h.ring hc).1.current_mem
  obtain ⟨s', hs, hcur, hrun⟩ := h.window_ok (o := o) hw
  rw [hs]
  show Good s'
  by_cases hp : s.rip = .loadRsi
  · obtain ⟨hh, -, -⟩ := h.loadRsi hp hs
    exact g.handover h hc hh (hcur ▸ hcm) (hrun hp ▸ hcare hp)
  · have hsame := exec_running (o := o) hp
    rw [hs] at hsame
    have hsame : s'.running = s.running := hsame
    exact g.handover h hc (h.in_window hw hp hs).1 (hcur ▸ hcm) (hsame ▸ g.fresh hc)

theorem Good.swRet (h : Inv hold s) (g : Good s) (hp : s.rip = .swRet) : Sound (exec o s) := by
  have hc := h.listed (by rw [hp]; exact id)
  have hsw : ¬ s.rip.Switching := by rw [hp]; exact id
  simp only [exec, hp]
  cases hs : s.pop with
  | ok s' =>
    obtain ⟨hh, -⟩ := h.swRet hp hs
    obtain ⟨k, -, rfl⟩ := pop_ok hs
    exact g.handover h hc hh (h.ring hc).1.current_mem (g.fresh hc)
  | error x =>
    -- the fiber has still something to do
    have hnest := g.nested _ (Or.inl rfl)
    unfold pop at hs
    split at hs
    · next hz =>
      rw [todo, chain_running hsw, hp, hz] at hnest
      exact absurd hnest id
    · cases hs

/-- The stack of a stopped fiber is not empty. -/
theorem Good.stopped (h : Inv hold s) (g : Good s) (hk : Known s a) (har : a ≠ s.running) {t : Fiber Context}
    (ht : s.mem.heap.lookup a = some t) : Allocated s.mem t.context.rsp.block ∧ t.context.rsp.height ≠ 0 := by
  obtain ⟨k, hk'⟩ := Option.isSome_iff_exists.mp (hk.resolve_left har)
  obtain ⟨hctx, hst, -⟩ := h.kept a k t har hk' ht
  refine ⟨?_, fun hz => ?_⟩
  · rw [hctx, ← hst]
    exact (h.stack hk ht).1
  · have hnest := g.nested a hk
    rw [todo, chain_stopped har hk', ← hctx, hz] at hnest
    exact hnest

/-- The code and the handler run on a stack that is allocated. -/
theorem Good.rsp (h : Inv hold s) (g : Good s) : Allocated s.mem s.rsp.block := by
  obtain ⟨r, hr, hb⟩ := h.live
  by_cases hl : s.rip.Loaded
  · have hsw := h.switch hl.switching.window
    have hcur := (h.current hsw.current).1
    obtain ⟨t, ht, -⟩ := h.recs _ hcur
    obtain ⟨k, -, -, -, hstage⟩ := hsw.stage hl.switching r hr
    have hrsp : s.rsp = t.context.rsp := by
      cases hp : s.rip <;> rw [hp] at hl hstage <;> first | exact absurd hl id | exact (hstage.2 t ht).1
    rw [hrsp]
    exact (g.stopped h hcur hsw.ne ht).1
  · rw [hb hl]
    exact (h.stack (Or.inl rfl) hr).1

/-- A tick outside the window. -/
theorem Good.tick (h : Inv hold s) (g : Good s) (hw : ¬ s.rip.Window) (hcare : ∀ d ∈ s.mem.next s.mem.currentFiber, Fresh s d) :
    Sound (step s .tick) := by
  have hrsp := g.rsp h
  by_cases hc : s.mem.currentFiber = NULL
  · rw [step, if_neg (not_not.mpr hrsp)]
    show Sound (fiberSched s)
    unfold fiberSched
    dsimp only
    rw [Mem.get, if_pos hc]
    exact id
  have hcy := (h.ring hc).1
  obtain ⟨r, hr⟩ := hcy.lookup hcy.current_mem
  by_cases hn : r.next = s.mem.currentFiber
  · rw [step, if_neg (not_not.mpr hrsp)]
    show Sound (fiberSched s)
    unfold fiberSched
    dsimp only
    rw [Mem.get_ok hc hr, ok_bind, if_pos hn]
    exact g
  · have hk := (h.linked hc (h.current hc) hr).1
    obtain ⟨t, ht, -⟩ := h.recs _ hk
    have haway := fiberSched_away hc hr hn (h.ne_null hk) ht
    rw [step, if_neg (not_not.mpr hrsp)]
    show Sound (fiberSched s)
    cases hs : fiberSched s with
    | error x =>
      rw [hs] at haway
      exact absurd (g.stopped h hk (h.runs hw hc ▸ hn) ht) haway.2
    | ok s' =>
      rw [hs] at haway
      obtain ⟨n, hsw⟩ := haway
      obtain ⟨hto, -, -⟩ := h.tick hw hsw
      obtain ⟨-, -, -, -, -, -, -, rfl⟩ := hsw
      exact g.handover h hc hto (hcy.next_mem hcy.current_mem hr) (hcare _ (Fibers.next_of_lookup hr))

/-- **One step.** -/
theorem Good.careful (h : Inv hold s) (g : Good s) {e : Event} (he : Careful s e) : Sound (step s e) := by
  cases e with
  | tick => exact g.tick h he.1 he.2
  | exec o =>
    rw [step, if_neg (not_not.mpr (g.rsp h))]
    show Sound (exec o s)
    by_cases hw : s.rip.Window
    · exact g.in_window h hw he.2
    · by_cases hne : s.rip = .swRet
      · exact g.swRet h hne
      · exact g.statement h hw hne

/-- The pointers of a statement outside the window; in it there are none. -/
theorem Good.rip (g : Good s) (hc : s.mem.currentFiber ≠ NULL) : s.rip.Fresh s.mem s.running := by
  by_cases hw : s.rip.level = .switching
  · cases hp : s.rip <;> rw [hp] at hw <;> first | exact trivial | cases hw
  · exact g.pointers (fun hn => hw (level_switching.mpr (Or.inl hn))) (fun hn => hw (level_switching.mpr (Or.inr hn))) hc

/-- What every careful run keeps. -/
def Safe (s : State) : Prop := (∃ hold, Inv hold s) ∧ Good s

theorem Safe.sound (h : Safe s) {e : Event} (he : Careful s e) : Sat (fun s' => Safe s' ∧ Resumed s s') (fun x => ¬ Freed x) (step s e) := by
  obtain ⟨⟨hold, hinv⟩, g⟩ := h
  have hsound := g.careful hinv he
  cases hs : step s e with
  | ok s' =>
    rw [hs] at hsound
    obtain ⟨h1, h2⟩ := hinv.stepped g.rip he.1 hs
    exact ⟨⟨h1, hsound⟩, h2⟩
  | error x =>
    rw [hs] at hsound
    exact hsound

theorem init_safe (w : Regs) : Safe (init w) := by
  refine ⟨⟨_, init_inv w⟩, fun _ => rfl, fun a ha => ?_, fun hc => absurd rfl hc, fun hc => absurd rfl hc⟩
  rw [show a = Main from ha.resolve_right (by rintro ⟨⟩)]
  exact Or.inr ⟨rfl, Or.inl rfl⟩

/-- **One cycle.** In every run in which no tick comes in the window of the switch, and each fiber that gets the processor finds
its pointers into the list fresh, the `next` pointers form one cycle in every state, with every fiber that was spawned and has
not finished in it, and no step goes to memory that was freed. -/
theorem one_cycle (w : Regs) (es : List Event) (h : Along step Careful (init w) es) :
    Sat OneCycle (fun x => ¬ Freed x) (run step (init w) es) := by
  have hrun : Sat Safe (fun x => ¬ Freed x) (run step (init w) es) :=
    run_sat (fun s e hs he => (hs.sound he).mono (fun s' hs' => hs'.1) fun x hx => hx) es (init_safe w) h
  refine hrun.mono (fun s hs hc => ?_) fun x hx => hx
  obtain ⟨⟨hold, hinv⟩, g⟩ := hs
  have hcy := (hinv.ring hc).1
  refine ⟨_, hcy, fun a ha => ?_⟩
  rw [← hcy.nodes_eq]
  exact ((g.enrolled hc).listed a ha).1

/-- After a C statement, with zero registers; `malloc` returns `p`. -/
def zeroed (p : Addr) (a : Action) : Event := .exec ⟨fun _ => 0, p, ⟨⟨fun _ => 0, ⟨NULL, 0⟩⟩, NULL, NULL, NULL, NULL, false⟩, a⟩

/-- `n` statements. -/
def works (n : ℕ) : List Event := List.replicate n (zeroed NULL .work)

/-- A call of `FiberSpawn` that comes to its first `malloc` after `n` statements, for a record at `p` with its stack at `q`; `k` statements
after the second one. -/
def spawns (n : ℕ) (p q : Addr) (k : ℕ) : List Event :=
  [zeroed NULL (.spawn 5 NULL)] ++ works n ++ [zeroed p .work] ++ works 3 ++ [zeroed q .work] ++ works k

/-- `main` spawns a fiber, which returns and is freed, and spawns another one, whose record and stack are the first one's
stack and record. Then each of the two is interrupted in the walk of its `FiberTryJoin`, behind the test of `cur`. -/
def recycled : List Event :=
  spawns 6 2 3 5 ++ [.tick] ++ works 1 ++ [zeroed NULL .ret] ++ works 1 ++ [.tick, zeroed NULL .tryJoin] ++ works 13 ++
    spawns 3 3 2 5 ++ [zeroed NULL .tryJoin] ++ works 7 ++ [.tick] ++ works 1 ++ [zeroed NULL .tryJoin] ++ works 6 ++ [.tick] ++
    works 4 ++ [.tick] ++ works 1

theorem one_cycle_recycled : ∃ s, run step (init fun _ => 0) recycled = .ok s ∧ s.unfinished = [3, Main] ∧ OneCycle s := by
  have hsat := one_cycle (fun _ => 0) recycled (by decide +kernel)
  have hrun : (run step (init fun _ => 0) recycled).toOption.map (fun s => s.unfinished) = some [3, Main] := by decide +kernel
  cases hs : run step (init fun _ => 0) recycled with
  | error x =>
    rw [hs] at hrun
    cases hrun
  | ok s =>
    rw [hs] at hsat hrun
    exact ⟨s, rfl, Option.some.inj hrun, hsat⟩

/-- `main` spawns two fibers. Ticks give each of them the processor; the second one returns and is interrupted behind
`CurrentFiber->finished = 1`. `main` spawns again, and is interrupted before `tail->next = fiber`, with the finished fiber for
`tail`. The first fiber frees it. -/
def lateLink : List Event :=
  spawns 6 2 3 5 ++ spawns 3 4 5 7 ++ [.tick, .tick] ++ works 1 ++ [zeroed NULL .ret] ++ works 1 ++ [.tick] ++ spawns 3 6 7 8 ++
    [.tick] ++ works 1 ++ [zeroed NULL .tryJoin] ++ works 17 ++ [.tick] ++ works 1

/-- The link is then written to freed memory. -/
theorem tail_freed : failure (run step (init fun _ => 0) lateLink) = some (.dangling 4) ∧
    ¬ ∀ w es, Sat OneCycle (fun x => ¬ Freed x) (run step (init w) es) := by
  have hfreed : ∀ es, failure (run step (init fun _ => 0) es) = some (.dangling 4) →
      ¬ ∀ w es, Sat OneCycle (fun x => ¬ Freed x) (run step (init w) es) := fun es hes h => (h _ es).of_failure hes trivial
  have hrun : failure (run step (init fun _ => 0) lateLink) = some (.dangling 4) := by decide +kernel
  exact ⟨hrun, hfreed _ hrun⟩

/-! ### The contexts -/

/-- A tick in the window does not keep the contexts, or goes to a stack that is gone. -/
theorem Safe.tick (h : Safe s) (hw : s.rip.Window) : ¬ StepKeeps s .tick := by
  obtain ⟨⟨hold, hinv⟩, g⟩ := h
  have hsw := hinv.switch hw
  have hcy := (hinv.ring hsw.current).1
  obtain ⟨c, hc⟩ := hcy.lookup hcy.current_mem
  have hk := (hinv.linked hsw.current (hinv.current hsw.current) hc).1
  obtain ⟨t, ht, -⟩ := hinv.recs _ hk
  -- the running fiber is another one in the list
  have hn : c.next ≠ s.mem.currentFiber := fun he => by
    have hnil := (Ring.next_eq_self hcy).mp ((Fibers.next_of_lookup hc).trans (congrArg some he))
    have hrun := hinv.self_mem hsw.current
    rw [hcy.nodes_eq, hnil, List.mem_singleton] at hrun
    exact hsw.ne hrun.symm
  have haway := fiberSched_away hsw.current hc hn (hinv.ne_null hk) ht
  rw [StepKeeps, step, if_neg (not_not.mpr (g.rsp hinv))]
  show ¬ Sat _ _ (fiberSched s)
  cases hs : fiberSched s with
  | error x =>
    rw [hs] at haway
    exact not_not.mpr haway.1
  | ok s' =>
    rw [hs] at haway
    obtain ⟨n, hsw'⟩ := haway
    exact fun hkept => tick_in_window hinv hw hsw' hkept.1

theorem Safe.kept (h : Safe s) : Kept s := h.1.elim fun _ h => h.kept

theorem Safe.keeps_iff (h : Safe s) {e : Event} (he : Pointed s e) : StepKeeps s e ↔ Undisturbed s e := by
  refine ⟨fun hk => ?_, fun hu => (h.sound ⟨hu, he⟩).mono (fun s' hs' => ⟨hs'.1.kept, hs'.2⟩) fun x hx => hx⟩
  cases e with
  | exec o => exact trivial
  | tick => exact fun hw => h.tick hw hk

/-- **Stopped fibers keep their contexts.** In every run in which each fiber that gets the processor finds its pointers into the
list fresh, each step leaves the stopped fibers the contexts at which they stopped, and resumes a fiber only there, exactly if no
tick comes between `CurrentFiber = to` and the last load of `SwitchFiberContext`. -/
theorem contexts_kept_iff (w : Regs) (es : List Event) (h : Along step Pointed (init w) es) :
    Along step StepKeeps (init w) es ↔ Along step Undisturbed (init w) es := by
  refine along_iff (I := Safe) (fun s e s' hs hp hk he => ?_) (fun s e hs hp => hs.keeps_iff hp) es (init_safe w) h
  have hstep := hs.sound ⟨(hs.keeps_iff hp).mp hk, hp⟩
  rw [he] at hstep
  exact hstep.1

/-- `main` spawns a fiber and yields to it; a tick comes before `CurrentFiber = to`, and gives the fiber the processor. The next one
gives it back to `main`, which goes through the whole switch, and the last one comes right behind it. -/
def besideSwitch : List Event :=
  spawns 6 2 3 5 ++ [zeroed NULL .yield] ++ works 13 ++ [.tick] ++ works 2 ++ [.tick] ++ works 42 ++ [.tick]

theorem contexts_kept_iff_besideSwitch :
    (run step (init fun _ => 0) besideSwitch).toOption.map (fun s => (s.running, s.rip)) = some (Main, .yieldEnd) ∧
      Along step StepKeeps (init fun _ => 0) besideSwitch :=
  ⟨by decide +kernel, (contexts_kept_iff (fun _ => 0) besideSwitch (by decide +kernel)).mpr (by decide +kernel)⟩

/-- `main` spawns a fiber, which runs until the next tick; then `main` yields to it, and a tick comes right after
`CurrentFiber = to`. -/
def preemptedYield : List Event :=
  spawns 6 2 3 5 ++ [.tick] ++ works 1 ++ [.tick, zeroed NULL .yield] ++ works 14 ++ [.tick]

/-- The fiber stopped on its own stack, 3, and its record has the stack of `main`. -/
theorem preemptedYield_mixes :
    (run step (init fun _ => 0) preemptedYield).toOption.map (fun s =>
      (s.running, (s.stopped 2).map fun k => k.ctx.rsp, (s.mem.heap.lookup 2).map fun r => r.context.rsp)) =
        some (Main, some ⟨3, 2⟩, some ⟨NULL, 2⟩) ∧
      ¬ Along step StepKeeps (init fun _ => 0) preemptedYield := by
  have hrun : (run step (init fun _ => 0) preemptedYield).toOption.map (fun s =>
      (s.running, (s.stopped 2).map fun k => k.ctx.rsp, (s.mem.heap.lookup 2).map fun r => r.context.rsp)) =
        some (Main, some ⟨3, 2⟩, some ⟨NULL, 2⟩) := by decide +kernel
  refine ⟨hrun, fun h => ?_⟩
  cases hs : run step (init fun _ => 0) preemptedYield with
  | error x =>
    rw [hs] at hrun
    cases hrun
  | ok s =>
    have hstep : ∀ s e s', Kept s → StepKeeps s e → step s e = .ok s' → Kept s' := fun s e s' _ hP hs => by
      rw [StepKeeps, hs] at hP
      exact hP.1
    have hkept : Kept s := run_inv hstep _ (init_inv _).kept h hs
    rw [hs] at hrun
    obtain ⟨h1, h2⟩ := Prod.mk.inj (Option.some.inj hrun)
    obtain ⟨h2, h3⟩ := Prod.mk.inj h2
    obtain ⟨k, hk, hkr⟩ := Option.map_eq_some_iff.mp h2
    obtain ⟨r, hr, hrr⟩ := Option.map_eq_some_iff.mp h3
    have hctx := (hkept 2 k r (by rw [h1]; decide) hk hr).1
    have hrsp : (⟨NULL, 2⟩ : Rsp) = ⟨3, 2⟩ := by rw [← hrr, ← hkr, hctx]
    exact absurd hrsp (by decide)

end Steps
end PFibers
end OsLabs
