/-
# Pointers that a switch can make stale

A fiber that gets the processor in the middle of a library call goes on with the pointers that it
had. `Pointed` asks that they are fresh at that moment (`PC.Fresh`); the statements of the running fiber
then keep them so. With no tick in the window of the switch, that is all: `Careful`.

The rest of what the list needs holds by itself (`Good`): calls begin in user code or in `FiberTrampoline`, so
that `main` never finishes, and a fiber is enrolled in the list from its last statement of `FiberSpawn` to
its `finished = 1`.

Key definitions: `Careful`, `Good`.
-/
import OsLabs.PFibers.Switch

namespace OsLabs
namespace PFibers
namespace Steps

open Fibers (Addr NULL Main Fiber Fault Mem)
open Run State

/-- The statement at which `a` goes on has fresh pointers. -/
def Fresh (s : State) (a : Addr) : Prop := ∀ p ∈ (todo s a).head?, p.Fresh s.mem a

instance (s : State) : DecidablePred (Fresh s) := fun a =>
  inferInstanceAs (Decidable (∀ p ∈ (todo s a).head?, p.Fresh s.mem a))

/-- A fiber that gets the processor finds its pointers fresh. -/
def Pointed (s : State) : Event → Prop
  | .tick => ∀ d ∈ s.mem.next s.mem.currentFiber, Fresh s d
  | .exec _ => s.rip = .loadRsi → Fresh s s.mem.currentFiber

instance (s : State) : DecidablePred (Pointed s)
  | .tick => inferInstanceAs (Decidable (∀ d ∈ s.mem.next s.mem.currentFiber, Fresh s d))
  | .exec _ => inferInstanceAs (Decidable (_ → _))

/-- No tick comes in the window, and a fiber that gets the processor finds its pointers fresh. -/
def Careful (s : State) (e : Event) : Prop := Undisturbed s e ∧ Pointed s e

instance (s : State) : DecidablePred (Careful s) := fun e => inferInstanceAs (Decidable (Undisturbed s e ∧ Pointed s e))

/-- The `next` pointers form one cycle, with every fiber that was spawned and has not finished. -/
def OneCycle (s : State) : Prop :=
  s.mem.currentFiber ≠ NULL →
    ∃ l, Ring s.mem.next s.mem.currentFiber l ∧ ∀ a ∈ s.unfinished, a ∈ s.mem.currentFiber :: l

/-! ### What holds by itself -/

/-- Which part of the code. -/
inductive Level
  | library
  | user
  | trampoline
  | switching
  deriving DecidableEq

def PC.level : PC → Level
  | .user => .user
  | .trampCall | .trampFinish | .trampYield | .trampAssert => .trampoline
  | .yieldSwitch _ _ | .pushfq | .popSaved _ | .save _ | .load _ | .pushSaved | .popfq _ | .loadRsi | .swRet => .switching
  | _ => .library

/-- Calls begin in `FiberTrampoline`, or in the code of `main`. -/
def Nested (a : Addr) : List PC → Prop
  | [] => False
  | p :: ps => (p.level ≠ .trampoline ∧ Nested a ps) ∨ (ps = [] ∧ (p.level = .user ∨ (p.level = .trampoline ∧ a ≠ Main)))

/-- The fibers that have not finished are in the list; `main` is one of them. -/
structure Enrolled (s : State) : Prop where
  main : Main ∈ s.unfinished
  listed : ∀ a ∈ s.unfinished, a ∈ nodes s.mem ∧ s.mem.finished a = false
  nodup : s.unfinished.Nodup

/-- With `Inv`, what every step preserves that is `Careful`. -/
structure Good (s : State) : Prop where
  main : s.mem.currentFiber = NULL → s.mem.finished Main = false
  nested : ∀ a, Known s a → Nested a (todo s a)
  enrolled : s.mem.currentFiber ≠ NULL → Enrolled s
  fresh : s.mem.currentFiber ≠ NULL → Fresh s s.running

/-! ### A statement of the running fiber -/

section

variable {hold : Addr → Option Addr} {s s' s₁ : State} {a b : Addr} {p q : PC} {ps : List PC} {w : Regs}

theorem level_switching : p.level = .switching ↔ p.Window ∨ p = .swRet := by
  cases p <;> simp [PC.level, PC.Window, PC.Switching]

/-- A statement is followed by another one of the same function. -/
theorem Nested.goes (h : Nested a (p :: ps)) (hq : q.level = p.level) : Nested a (q :: ps) := by
  unfold Nested at h ⊢
  rwa [hq]

theorem Nested.calls (h : Nested a (p :: ps)) (hq : q.level ≠ .trampoline) : Nested a (q :: p :: ps) := Or.inl ⟨hq, h⟩

theorem Nested.returns (h : Nested a (p :: ps)) (hps : ps ≠ []) : Nested a ps :=
  h.elim (fun h => h.2) fun h => absurd h.1 hps

/-- A function of the library has a caller. -/
theorem Nested.caller (h : Nested a (p :: ps)) (hp : p.level = .library) : ps ≠ [] := by
  rintro rfl
  rcases h with ⟨-, h⟩ | ⟨-, h | h⟩
  · exact h
  · exact absurd (hp.symm.trans h) (by decide)
  · exact absurd (hp.symm.trans h.1) (by decide)

theorem Nested.not_main (h : Nested a (p :: ps)) (hp : p.level = .trampoline) : a ≠ Main := by
  rcases h with ⟨h, -⟩ | ⟨-, h | h⟩
  · exact absurd hp h
  · exact absurd (hp.symm.trans h) (by decide)
  · exact h.2

/-- What is not in the list. -/
theorem Inv.off (h : Inv hold s) (hc : s.mem.currentFiber ≠ NULL) (ha : ¬ Shared hold s a) : a ∉ nodes s.mem :=
  fun hn => ha (((h.ring hc).2 a).mpr hn)

theorem Inv.held_off (h : Inv hold s) (hc : s.mem.currentFiber ≠ NULL) (ha : hold a = some b) : a ∉ nodes s.mem :=
  h.off hc fun hn => by cases ha.symm.trans hn.2

theorem Inv.self_mem (h : Inv hold s) (hc : s.mem.currentFiber ≠ NULL) : s.running ∈ nodes s.mem :=
  ((h.ring hc).2 _).mp ⟨Or.inl rfl, h.self⟩

theorem Enrolled.ne_main (h : Enrolled s) (ha : a ∉ nodes s.mem) : a ≠ Main := by
  rintro rfl
  exact ha (h.listed _ h.main).1

/-- The fibers of the list and their flags are all that it depends on. -/
theorem Enrolled.congr (h : Enrolled s) (hn : ∀ a ∈ nodes s.mem, a ∈ nodes s'.mem ∧ s'.mem.finished a = s.mem.finished a)
    (hu : s'.unfinished = s.unfinished) : Enrolled s' := by
  refine ⟨hu ▸ h.main, fun a ha => ?_, hu ▸ h.nodup⟩
  rw [hu] at ha
  obtain ⟨h1, h2⟩ := h.listed a ha
  exact ⟨(hn a h1).1, (hn a h1).2.trans h2⟩

/-- **One statement.** A statement of the running fiber that keeps the list enrolled, and goes on at a statement
with fresh pointers. The other fibers have to do what they had, or begin in `FiberTrampoline`. -/
theorem Good.advance (g : Good s) (hrun : s'.running = s.running)
    (hothers : ∀ a, Known s' a → a ≠ s.running → (Known s a ∧ todo s' a = todo s a) ∨ (todo s' a = [.trampCall] ∧ a ≠ Main))
    (htodo : todo s' s.running = p :: ps) (hnest : Nested s.running (p :: ps))
    (hmain : s'.mem.currentFiber = NULL → s'.mem.finished Main = false) (henrolled : s'.mem.currentFiber ≠ NULL → Enrolled s')
    (hfresh : s'.mem.currentFiber ≠ NULL → p.Fresh s'.mem s.running) : Good s' := by
  refine ⟨hmain, fun a ha => ?_, henrolled, fun hc q hq => ?_⟩
  · by_cases har : a = s.running
    · rw [har, htodo]
      exact hnest
    · rcases hothers a ha har with ⟨hka, hta⟩ | ⟨hta, ham⟩
      · rw [hta]
        exact g.nested a hka
      · rw [hta]
        exact Or.inr ⟨rfl, Or.inr ⟨rfl, ham⟩⟩
  · rw [hrun, htodo, List.head?_cons, Option.mem_some_iff] at hq
    rw [hrun, ← hq]
    exact hfresh hc

/-- `s₁` is at the same place as `s`, with other records. -/
structure Edits (s s₁ : State) : Prop where
  place : SamePlace s s₁
  running : s₁.running = s.running
  stops : ∀ a k, s₁.stopped a = some k → s.stopped a = some k
  main : s.mem.currentFiber = NULL → s₁.mem.finished Main = false
  enrolled : s.mem.currentFiber ≠ NULL → Enrolled s₁

/-- No edit. -/
theorem Good.edits (g : Good s) : Edits s s := ⟨⟨rfl, rfl, rfl⟩, rfl, fun _ _ hk => hk, g.main, g.enrolled⟩

/-- The other fibers have still to do what they had. -/
theorem same_todo (hrun : s'.running = s.running) (hstops : ∀ a k, s'.stopped a = some k → s.stopped a = some k) (ha : Known s' a)
    (har : a ≠ s.running) : Known s a ∧ todo s' a = todo s a := by
  obtain ⟨k, hk⟩ := Option.isSome_iff_exists.mp (ha.resolve_left (by rwa [hrun]))
  have hk' := hstops a k hk
  exact ⟨Or.inr (by rw [hk']; rfl), todo_congr har (by rwa [hrun]) (hk.trans hk'.symm)⟩

/-- One that starts no fiber. -/
theorem Good.next (g : Good s) (he : Edits s s₁) (hmem : s'.mem = s₁.mem) (hrun : s'.running = s₁.running)
    (hstop : s'.stopped = s₁.stopped) (hun : s'.unfinished = s₁.unfinished) (htodo : todo s' s.running = p :: ps)
    (hnest : Nested s.running (p :: ps)) (hfresh : s.mem.currentFiber ≠ NULL → p.Fresh s₁.mem s.running) : Good s' := by
  refine g.advance (hrun.trans he.running) (fun a ha har => Or.inl ?_) htodo hnest ?_ ?_ ?_
  · exact same_todo (hrun.trans he.running) (by rw [hstop]; exact he.stops) ha har
  · rw [hmem, he.place.current]
    exact he.main
  · rw [hmem, he.place.current]
    exact fun hc => (he.enrolled hc).congr (fun a ha => ⟨by rwa [hmem], by rw [hmem]⟩) hun
  · rw [hmem, he.place.current]
    exact hfresh

/-- A return address has no pointers. -/
theorem Plain.fresh {m : Mem Context} (h : Plain p) : p.Fresh m a := by
  cases p <;> first | exact absurd h id | exact trivial

/-- The statement is not one of the switch. -/
theorem Good.level_ne (hw : ¬ s.rip.Window) (hne : s.rip ≠ .swRet) : s.rip.level ≠ .switching := fun hl =>
  (level_switching.mp hl).elim hw hne

theorem todo_at (hp : s.rip = p) (hl : p.level ≠ .switching) :
    todo s s.running = p :: frames (s.words s.rsp.block) s.rsp.height := by
  rw [todo_running (fun hw => hl (level_switching.mpr (Or.inl (hp ▸ hw)))) fun hn => hl (level_switching.mpr (Or.inr (hp ▸ hn))), hp]

/-- The pointers of the running fiber. -/
theorem Good.pointers (g : Good s) (hw : ¬ s.rip.Window) (hne : s.rip ≠ .swRet) (hc : s.mem.currentFiber ≠ NULL) :
    s.rip.Fresh s.mem s.running := g.fresh hc s.rip (by rw [todo_running hw hne]; rfl)

/-- The running fiber's calls. -/
theorem Good.here (g : Good s) (hw : ¬ s.rip.Window) (hne : s.rip ≠ .swRet) :
    Nested s.running (s.rip :: frames (s.words s.rsp.block) s.rsp.height) := by
  rw [← todo_running hw hne]
  exact g.nested _ (Or.inl rfl)

/-- A statement that edits the records and goes on at `pc`. -/
theorem Good.goes (g : Good s) (hw : ¬ s.rip.Window) (hne : s.rip ≠ .swRet) (he : Edits s s₁) {pc : PC} (hp : s.rip = p)
    (hpc : pc.level = p.level) (hfresh : s.mem.currentFiber ≠ NULL → pc.Fresh s₁.mem s.running) : Good (s₁.goto w pc) := by
  have hpc : pc.level = s.rip.level := by rw [hpc, hp]
  have htodo : todo (s₁.goto w pc) s.running = pc :: frames (s.words s.rsp.block) s.rsp.height := by
    have hrun : (s₁.goto w pc).running = s.running := he.running
    have htop := todo_at (s := s₁.goto w pc) (p := pc) rfl (hpc ▸ Good.level_ne hw hne)
    rw [hrun] at htop
    rw [htop, ← he.place.rsp, ← he.place.words]
    rfl
  exact g.next he rfl rfl rfl rfl htodo ((g.here hw hne).goes hpc) hfresh

/-- A call. -/
theorem Good.calls (g : Good s) (hw : ¬ s.rip.Window) (hne : s.rip ≠ .swRet) {back pc : PC} (hp : s.rip = p)
    (hback : back.level = p.level) (hpc : pc.level = .library ∨ pc.level = .user) (hfresh : pc.Fresh s.mem s.running) :
    Good (s.call w back pc) := by
  have hback : back.level = s.rip.level := by rw [hback, hp]
  have htodo : todo (s.call w back pc) s.running = pc :: back :: frames (s.words s.rsp.block) s.rsp.height := by
    refine (todo_at (s := s.call w back pc) (p := pc) rfl fun hn => by rw [hn] at hpc; exact absurd hpc (by decide)).trans ?_
    exact congrArg (pc :: ·) (frames_call w back pc)
  have hnest := ((g.here hw hne).goes hback).calls (q := pc) fun hn => by rw [hn] at hpc; exact absurd hpc (by decide)
  exact g.next g.edits rfl rfl rfl rfl htodo hnest fun _ => hfresh

/-- A `ret`, after an edit of the records. -/
theorem Good.leaves (h : Inv hold s) (g : Good s) (hw : ¬ s.rip.Window) (hne : s.rip ≠ .swRet) (he : Edits s s₁)
    (hh : s.rsp.height ≠ 0) : Sat Good (fun x => ¬ Freed x) (s₁.leave w) := by
  obtain ⟨k, hk⟩ := Nat.exists_eq_succ_of_ne_zero hh
  have hpop : s₁.leave w = .ok { s₁ with regs := w, rsp := ⟨s₁.rsp.block, k⟩, rip := s₁.words s₁.rsp.block k } := by
    unfold leave pop
    simp only [he.place.rsp, hk]
  rw [hpop]
  have hplain := (h.here hw hne).2 (s.words s.rsp.block k) (by rw [hk]; exact List.mem_cons_self)
  have hrip : s₁.words s₁.rsp.block k = s.words s.rsp.block k := by rw [he.place.words, he.place.rsp]
  have hnest := g.here hw hne
  rw [hk] at hnest
  have hnest : Nested s.running (s.words s.rsp.block k :: frames (s.words s.rsp.block) k) := hnest.returns (by rintro ⟨⟩)
  refine g.next he rfl rfl rfl rfl ?_ hnest fun _ => hplain.fresh
  rw [← he.running]
  obtain ⟨hwin, hret, -⟩ := hplain.not_window
  refine (todo_at hrip fun hl => (level_switching.mp hl).elim hwin hret).trans ?_
  show _ :: frames (s₁.words s₁.rsp.block) k = _
  rw [he.place.words, he.place.rsp]

/-- A function of the library returns to its caller. -/
theorem Good.height_ne (g : Good s) (hw : ¬ s.rip.Window) (hne : s.rip ≠ .swRet) (hp : s.rip = p) (hl : p.level = .library) :
    s.rsp.height ≠ 0 := fun hh => by
  refine (g.here hw hne).caller (by rw [hp, hl]) ?_
  rw [hh]
  rfl

/-! ### What the statements write -/

/-- A write outside the list. -/
theorem Good.edits_off (h : Inv hold s) (g : Good s) (hc : s.mem.currentFiber ≠ NULL) (hp : SamePlace s s₁) {x : Addr}
    (hx : x ∉ nodes s.mem) (hm : ∀ a, a ≠ x → s₁.mem.heap.lookup a = s.mem.heap.lookup a) (hrun : s₁.running = s.running)
    (hstops : ∀ a k, s₁.stopped a = some k → s.stopped a = some k) (hu : s₁.unfinished = s.unfinished) :
    Edits s s₁ ∧ nodes s₁.mem = nodes s.mem := by
  have hsame : ∀ a ∈ nodes s.mem, s₁.mem.heap.lookup a = s.mem.heap.lookup a := fun a ha => by
    refine hm a ?_
    rintro rfl
    exact hx ha
  obtain ⟨-, hn⟩ := (h.ring hc).1.congr hp.current fun a ha => next_congr (hsame a ha)
  exact ⟨⟨hp, hrun, hstops, fun hn => absurd hn hc, fun _ =>
    (g.enrolled hc).congr (fun a ha => ⟨hn ▸ ha, finished_congr (hsame a ha)⟩) hu⟩, hn⟩

theorem Good.edits_put (h : Inv hold s) (g : Good s) (hc : s.mem.currentFiber ≠ NULL) {b : Addr} {r' : Fiber Context}
    (hb : b ∉ nodes s.mem) : Edits s { s with mem := s.mem.put b r' } := by
  have hedit : Edits s { s with mem := s.mem.put b r' } ∧ nodes (s.mem.put b r') = nodes s.mem := by
    refine g.edits_off h hc ?_ hb (fun a ha => Mem.lookup_put.trans (if_neg ha)) rfl (fun _ _ hk => hk) rfl
    exact ⟨rfl, rfl, rfl⟩
  exact hedit.1

/-- `CurrentFiber->finished = 1;` -/
theorem Good.edits_finish (h : Inv hold s) (g : Good s) (hc : s.mem.currentFiber ≠ NULL) {r : Fiber Context}
    (hr : s.mem.heap.lookup s.mem.currentFiber = some r) (hmain : s.mem.currentFiber ≠ Main) :
    Edits s { s with mem := s.mem.put s.mem.currentFiber { r with finished := true },
                     unfinished := s.unfinished.erase s.mem.currentFiber } := by
  have he := g.enrolled hc
  have hn : nodes (s.mem.put s.mem.currentFiber { r with finished := true }) = nodes s.mem := by
    refine ((h.ring hc).1.congr (by rfl) fun a _ => ?_).2
    rw [Mem.next_put]
    split_ifs with hac
    · rw [hac, Fibers.next_of_lookup hr]
    · rfl
  refine ⟨⟨rfl, rfl, rfl⟩, rfl, fun _ _ hk => hk, fun hn => absurd hn hc, fun _ => ⟨?_, fun a ha => ?_, he.nodup.erase _⟩⟩
  · exact (List.mem_erase_of_ne hmain.symm).mpr he.main
  · obtain ⟨hac, ha⟩ := (he.nodup.mem_erase_iff).mp ha
    obtain ⟨h1, h2⟩ := he.listed a ha
    exact ⟨hn ▸ h1, (finished_congr (Mem.lookup_put.trans (if_neg hac))).trans h2⟩

/-- A write to a link of the list leaves the flags. -/
theorem finished_link {m : Mem Context} {x v : Addr} {r : Fiber Context} (hx : m.heap.lookup x = some r) (a : Addr) :
    (m.put x { r with next := v }).finished a = m.finished a := by
  by_cases hax : a = x
  · rw [hax, finished_put, Mem.finished_eq hx]
  · exact finished_congr (Mem.lookup_put.trans (if_neg hax))

/-- `tail->next = fiber;` -/
theorem Good.edits_link (h : Inv hold s) (g : Good s) (hc : s.mem.currentFiber ≠ NULL) {tail : Addr} {r : Fiber Context}
    (hr : s.mem.heap.lookup tail = some r) (hb : b ∉ nodes s.mem) (hf : s.mem.finished b = false)
    (hbn : s.mem.next b = some s.mem.currentFiber) (htail : tail ∈ nodes s.mem) (hnext : s.mem.next tail = some s.mem.currentFiber) :
    Edits s { s with mem := s.mem.put tail { r with next := b }, unfinished := b :: s.unfinished } := by
  have he := g.enrolled hc
  obtain ⟨-, hn⟩ := (h.ring hc).1.link (r := r) htail hnext hb hbn
  refine ⟨⟨rfl, rfl, rfl⟩, rfl, fun _ _ hk => hk, fun hn => absurd hn hc, fun _ => ⟨List.mem_cons_of_mem _ he.main, fun a ha => ?_, ?_⟩⟩
  · rcases List.mem_cons.mp ha with hab | ha
    · exact ⟨(hn a).mpr (Or.inr hab), (finished_link hr a).trans (hab ▸ hf)⟩
    · obtain ⟨h1, h2⟩ := he.listed a ha
      exact ⟨(hn a).mpr (Or.inl h1), (finished_link hr a).trans h2⟩
  · exact List.nodup_cons.mpr ⟨fun hm => hb (he.listed b hm).1, he.nodup⟩

/-- `prev->next = cur->next;` -/
theorem Good.edits_unlink (h : Inv hold s) (g : Good s) (hc : s.mem.currentFiber ≠ NULL) {prev c : Addr} {r p : Fiber Context}
    (hr : s.mem.heap.lookup c = some r) (hpr : s.mem.heap.lookup prev = some p) (hprev : prev ∈ nodes s.mem)
    (hnext : s.mem.next prev = some c) (hcc : c ≠ s.mem.currentFiber) (hf : s.mem.finished c = true) :
    Edits s { s with mem := s.mem.put prev { p with next := r.next } } ∧ prev ∈ nodes (s.mem.put prev { p with next := r.next }) := by
  have he := g.enrolled hc
  obtain ⟨-, hpc, hn⟩ := (h.ring hc).1.unlink hr hpr hprev hnext hcc
  refine ⟨⟨⟨rfl, rfl, rfl⟩, rfl, fun _ _ hk => hk, fun hn => absurd hn hc, fun _ => ⟨he.main, fun a ha => ?_, he.nodup⟩⟩,
    (hn prev).mpr ⟨hprev, hpc⟩⟩
  obtain ⟨h1, h2⟩ := he.listed a ha
  refine ⟨(hn a).mpr ⟨h1, ?_⟩, (finished_link hpr a).trans h2⟩
  rintro rfl
  cases hf.symm.trans h2

end

end Steps
end PFibers
end OsLabs
