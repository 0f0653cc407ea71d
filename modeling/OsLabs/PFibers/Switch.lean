/-
# The switch of the context

From `CurrentFiber = to` in `FiberYield` to the end of `SwitchFiberContext`, the invariant of
`OsLabs/PFibers/Contexts.lean` says how many registers are saved or loaded (`Stage`). At the
end of the loads the registers are those of the stop that `to` has in its record.

A tick that gives the processor away stores the registers under `CurrentFiber`. Outside the window
that is the running fiber. Inside it is not, and what it stores is not where `to` stopped.

Main results: `Inv.stepped`, `tick_in_window`.
-/
import OsLabs.PFibers.Statements

namespace OsLabs
namespace PFibers
namespace Steps

open Fibers (Addr NULL Main Fiber Fault Mem)
open Run State

variable {hold : Addr → Option Addr} {s s' : State} {o : Choice}

/-! ### In the window -/

/-- The call of `SwitchFiberContext`: here the running fiber stops. -/
theorem Inv.yieldSwitch (h : Inv hold s) {frm dst : Addr} (hp : s.rip = .yieldSwitch frm dst) (hs : exec o s = .ok s') :
    Handover hold s s' ∧ Inv hold s' := by
  have hsw : ¬ s.rip.Switching := by rw [hp]; exact id
  have hsw₀ := h.switch (by rw [hp]; exact trivial)
  obtain ⟨rfl, rfl⟩ := hsw₀.call _ _ hp
  obtain ⟨r, hr, hb⟩ := h.live
  have hb := hb fun hl => hsw hl.switching
  have hself : Known s s.running := Or.inl rfl
  simp only [exec, hp] at hs
  have hs := Except.ok.inj hs
  have hrun : s'.running = s.running := by rw [← hs]; rfl
  have hmem : s'.mem = s.mem := by rw [← hs]; rfl
  have hrip : s'.rip = .pushfq := by rw [← hs]; rfl
  have hun : s'.unfinished = s.unfinished := by rw [← hs]; rfl
  have hrsp : s'.rsp = ⟨s.rsp.block, s.rsp.height + 1⟩ := by rw [← hs]; rfl
  have hregs : s'.regs .rdi = s.running ∧ s'.regs .rsi = s.mem.currentFiber := by
    rw [← hs]
    exact ⟨rfl, rfl⟩
  have hstop : s'.stopped s.running = some ⟨⟨s'.regs, s'.rsp⟩, s'.words s'.rsp.block⟩ := by
    rw [← hs]
    exact if_pos rfl
  have hstops : ∀ a, a ≠ s.running → s'.stopped a = s.stopped a := fun a ha => by
    rw [← hs]
    exact if_neg ha
  have htop : s'.words s.rsp.block s.rsp.height = .yieldEnd := by
    rw [← hs]
    exact if_pos ⟨rfl, rfl⟩
  have hbelow : ∀ i < s.rsp.height, s'.words s.rsp.block i = s.words s.rsp.block i := fun i hi => by
    rw [← hs]
    exact if_neg fun hn => absurd hn.2 (Nat.ne_of_lt hi)
  have hwords : ∀ b, b ≠ s.rsp.block → s'.words b = s.words b := fun b hn => by
    rw [← hs]
    funext i
    exact if_neg fun he => hn he.1
  clear hs
  have hsw' : s'.rip.Switching := by rw [hrip]; exact trivial
  have hknown : ∀ a, Known s' a ↔ Known s a := fun a => by
    by_cases har : a = s.running
    · exact iff_of_true (Or.inl (har.trans hrun.symm)) (Or.inl har)
    · rw [Known, Known, hrun, hstops a har]
  have htodo : ∀ a, todo s' a = todo s a := fun a => by
    by_cases har : a = s.running
    · rw [har, todo, todo, chain_running hsw, hp, ← hrun, chain_switching hsw' (hrun ▸ hstop), hrsp]
      show (s'.words s.rsp.block s.rsp.height :: frames (s'.words s.rsp.block) s.rsp.height).dropWhile _ = _
      rw [htop, frames_congr hbelow]
      rfl
    · rw [todo_congr har (by rwa [hrun]) (hstops a har)]
  have hh : Handover hold s s' :=
    ⟨hknown, fun a _ => htodo a, fun a => by rw [hmem], fun a x _ => by rw [hmem], by rw [hmem], hun⟩
  refine ⟨hh, h.handover hh hsw₀.current (hmem ▸ h.current hsw₀.current) (hrun ▸ h.self) (fun hn => absurd hsw'.window hn)
    (fun a k t ha hk ht => ?_) ⟨r, by rw [hmem, hrun, hr], fun _ => by rw [hrsp, hb]⟩ fun _ => ?_⟩
  · rw [hrun] at ha
    rw [hstops a ha] at hk
    rw [hmem] at ht
    have haK : Known s a := Or.inr (by rw [hk]; rfl)
    rw [hwords _ fun he => ha (h.inj a _ t r haK hself ht hr (he.trans hb))]
    exact h.kept a k t ha hk ht
  · refine ⟨hmem ▸ hsw₀.current, by rw [hmem, hrun]; exact hsw₀.ne, fun frm dst he => (by cases hrip.symm.trans he),
      fun _ => hrun ▸ hregs.1, fun _ => hmem ▸ hregs.2, fun _ t ht => ?_⟩
    rw [hmem, hrun, hr] at ht
    obtain rfl := Option.some.inj ht
    refine ⟨_, hrun ▸ hstop, ?_, fun i _ => ?_, ?_⟩
    · rw [hrsp, hb]
    · rw [hrsp, hb]
    · rw [hrip]
      exact ⟨rfl, rfl⟩

/-- What an instruction of `SwitchFiberContext` leaves alone. -/
structure Instruction (s s' : State) : Prop where
  running : s'.running = s.running
  stopped : s'.stopped = s.stopped
  words : s'.words = s.words
  current : s'.mem.currentFiber = s.mem.currentFiber
  blocks : s'.mem.stackBlocks = s.mem.stackBlocks
  unfinished : s'.unfinished = s.unfinished
  others : ∀ a, a ≠ s.running → s'.mem.heap.lookup a = s.mem.heap.lookup a
  own : ∀ r, s.mem.heap.lookup s.running = some r → ∃ r', s'.mem.heap.lookup s.running = some r' ∧ r'.bare = r.bare

/-- An instruction of `SwitchFiberContext`. -/
theorem Inv.switching (h : Inv hold s) (hsw : s.rip.Switching) (hsw' : s'.rip.Switching) (hi : Instruction s s')
    (hblock : ¬ s'.rip.Loaded → s'.rsp = s.rsp ∧ ¬ s.rip.Loaded) (hswitch : Switch s') : Handover hold s s' ∧ Inv hold s' := by
  obtain ⟨r, hr, hb⟩ := h.live
  obtain ⟨r', hr', hbare⟩ := hi.own r hr
  obtain ⟨k, hk, -⟩ := (h.switch hsw.window).stage hsw r hr
  have hc := (h.switch hsw.window).current
  have hh : Handover hold s s' := by
    refine ⟨fun a => by rw [Known, Known, hi.running, hi.stopped], fun a _ => ?_, fun a => ?_, fun a x ha => hi.others a ?_,
      hi.blocks, hi.unfinished⟩
    · by_cases har : a = s.running
      · rw [har, todo, todo, chain_switching hsw hk, ← hi.running,
          chain_switching (k := k) hsw' (by rw [hi.running, hi.stopped, hk])]
      · rw [todo_congr har (by rwa [hi.running]) (by rw [hi.stopped])]
    · by_cases har : a = s.running
      · rw [har, hr', hr, Option.map_some, Option.map_some, hbare]
      · rw [hi.others a har]
    · rintro rfl
      cases ha.symm.trans h.self
  refine ⟨hh, h.handover hh hc (hi.current ▸ h.current hc) (hi.running ▸ h.self) (fun hn => absurd hsw'.window hn)
    (fun a k t ha hk ht => ?_) ⟨r', by rw [hi.running, hr'], fun hl => ?_⟩ fun _ => hswitch⟩
  · rw [hi.running] at ha
    rw [hi.stopped] at hk
    rw [hi.others a ha] at ht
    rw [hi.words]
    exact h.kept a k t ha hk ht
  · rw [(hblock hl).1, (Fiber.of_bare hbare).2.1]
    exact hb (hblock hl).2

/-- All registers but the flags are saved, and all but `rsi` and the flags are loaded before `rsp`. -/
theorem mem_savedRegs (x : Reg) : x = .flags ∨ x ∈ savedRegs := by cases x <;> decide

theorem mem_loadedRegs (x : Reg) : x = .flags ∨ x = .rsi ∨ x ∈ loadedRegs := by cases x <;> decide

theorem ne_of_mem_savedRegs {x : Reg} (h : x ∈ savedRegs) : x ≠ .flags := by
  rintro rfl
  exact absurd h (by decide)

theorem ne_of_mem_loadedRegs {x : Reg} (h : x ∈ loadedRegs) : x ≠ .rsi := by
  rintro rfl
  exact absurd h (by decide)

@[simp] theorem Regs.set_self (g : Regs) (x : Reg) (v : ℕ) : g.set x v x = v := if_pos rfl

theorem Regs.set_of_ne (g : Regs) {x y : Reg} (v : ℕ) (h : y ≠ x) : g.set x v y = g y := if_neg h

/-- One more register of a list is done. -/
theorem Regs.set_done {g f : Regs} {x : Reg} {done : List Reg} (h : ∀ y ∈ done, g y = f y) :
    ∀ y ∈ done ++ [x], g.set x (f x) y = f y := fun y hy => by
  by_cases hyx : y = x
  · rw [hyx, Regs.set_self]
  · rw [Regs.set_of_ne g _ hyx]
    exact h y ((List.mem_append.mp hy).resolve_right fun hn => hyx (List.mem_singleton.mp hn))

/-- The save of one part of the context into the record of the running fiber. -/
theorem Inv.saves (h : Inv hold s) (hsv : s.rip.Saving) {pc : PC} {r : Fiber Context} {ctx : Context}
    (hpc : pc.Switching) (hr : s.mem.heap.lookup s.running = some r)
    (hrdi : pc.Saving → s.regs .rdi = s.running)
    (hstage : ∀ k, Stage s k r s.rip →
      Stage { s with mem := s.mem.put s.running { r with context := ctx }, rip := pc } k { r with context := ctx } pc) :
    Handover hold s { s with mem := s.mem.put s.running { r with context := ctx }, rip := pc } ∧
      Inv hold { s with mem := s.mem.put s.running { r with context := ctx }, rip := pc } := by
  have hsw := hsv.switching
  have hloaded := hsv.not_loaded
  have hsw₀ := h.switch hsw.window
  refine h.switching hsw hpc
    ⟨rfl, rfl, rfl, rfl, rfl, rfl, fun a ha => Mem.lookup_put.trans (if_neg ha), fun t ht => ?_⟩ (fun _ => ⟨rfl, hloaded⟩)
    ⟨hsw₀.current, hsw₀.ne, fun frm dst he => ?_, hrdi, fun _ => hsw₀.rsi hsw, fun _ t ht => ?_⟩
  · obtain rfl := Option.some.inj (hr.symm.trans ht)
    exact ⟨_, Mem.lookup_put.trans (if_pos rfl), rfl⟩
  · have he : pc = .yieldSwitch frm dst := he
    rw [he] at hpc
    exact absurd hpc id
  · obtain rfl := Option.some.inj (ht.symm.trans (Mem.lookup_put.trans (if_pos rfl)))
    obtain ⟨k, hk, hst, hwords, hstg⟩ := hsw₀.stage hsw r hr
    exact ⟨k, hk, hst, hwords, hstage k hstg⟩

/-- An instruction that leaves the memory alone. -/
theorem Inv.loads (h : Inv hold s) (hsw : s.rip.Switching) {g : Regs} {rsp : Rsp} {pc : PC} (hpc : pc.Switching)
    (hrdi : pc.Saving → g .rdi = s.running) (hrsi : g .rsi = s.regs .rsi) (hl : ¬ pc.Loaded → rsp = s.rsp ∧ ¬ s.rip.Loaded)
    (hstage : ∀ r k, Stage s k r s.rip → Stage { s with regs := g, rsp := rsp, rip := pc } k r pc) :
    Handover hold s { s with regs := g, rsp := rsp, rip := pc } ∧ Inv hold { s with regs := g, rsp := rsp, rip := pc } := by
  have hsw₀ := h.switch hsw.window
  refine h.switching hsw hpc ⟨rfl, rfl, rfl, rfl, rfl, rfl, fun _ _ => rfl, fun t ht => ⟨t, ht, rfl⟩⟩ hl
    ⟨hsw₀.current, hsw₀.ne, fun frm dst he => ?_, hrdi, fun _ => hrsi.trans (hsw₀.rsi hsw), fun _ r hr => ?_⟩
  · have he : pc = .yieldSwitch frm dst := he
    rw [he] at hpc
    exact absurd hpc id
  · obtain ⟨k, hk, hst, hwords, hstg⟩ := hsw₀.stage hsw r hr
    exact ⟨k, hk, hst, hwords, hstage r k hstg⟩

/-- Every instruction of the window but the last keeps the invariant. -/
theorem Inv.in_window (h : Inv hold s) (hw : s.rip.Window) (hne : s.rip ≠ .loadRsi) (hs : exec o s = .ok s') :
    Handover hold s s' ∧ Inv hold s' := by
  have hsw₀ := h.switch hw
  cases hp : s.rip with
  | yieldSwitch frm dst => exact h.yieldSwitch hp hs
  | pushfq =>
    have hsv : s.rip.Saving := by rw [hp]; exact trivial
    simp only [exec, hp] at hs
    obtain rfl := Except.ok.inj hs
    refine h.loads hsv.switching trivial (fun _ => hsw₀.rdi hsv) rfl (fun _ => ⟨rfl, hsv.not_loaded⟩) fun r k hk => ?_
    rw [hp] at hk
    exact ⟨hk.1, hk.2, congrFun hk.1 .flags⟩
  | popSaved fl =>
    have hsv : s.rip.Saving := by rw [hp]; exact trivial
    have hrdi := hsw₀.rdi hsv
    simp only [exec, hp, hrdi] at hs
    obtain ⟨r, -, hr, hs⟩ := Mem.get_bind_ok hs
    obtain rfl := Except.ok.inj hs
    refine h.saves hsv (by exact trivial) hr (fun _ => hrdi) fun k hk => ?_
    rw [hp] at hk
    obtain ⟨h1, h2, rfl⟩ := hk
    exact ⟨h1, h2, Regs.set_self r.context.regs .flags _, [], rfl, fun x hx => absurd hx List.not_mem_nil⟩
  | save rest =>
    have hsv : s.rip.Saving := by rw [hp]; exact trivial
    have hrdi := hsw₀.rdi hsv
    cases rest with
    | cons x xs =>
      simp only [exec, hp, hrdi] at hs
      obtain ⟨r, -, hr, hs⟩ := Mem.get_bind_ok hs
      obtain rfl := Except.ok.inj hs
      refine h.saves hsv (by exact trivial) hr (fun _ => hrdi) fun k hk => ?_
      rw [hp] at hk
      obtain ⟨h1, h2, h3, done, h4, h5⟩ := hk
      have hx : x ∈ savedRegs := by rw [h4]; simp
      refine ⟨h1, h2, ?_, done ++ [x], by rw [h4]; simp, ?_⟩
      · exact (Regs.set_of_ne _ _ (ne_of_mem_savedRegs hx).symm).trans h3
      · rw [h1]
        exact Regs.set_done h5
    | nil =>
      simp only [exec, hp, hrdi] at hs
      obtain ⟨r, -, hr, hs⟩ := Mem.get_bind_ok hs
      obtain rfl := Except.ok.inj hs
      refine h.saves hsv (by exact trivial) hr (fun hn => absurd hn id) fun k hk => ?_
      rw [hp] at hk
      obtain ⟨h1, h2, h3, done, h4, h5⟩ := hk
      rw [List.append_nil] at h4
      have hregs : r.context.regs = k.ctx.regs := funext fun x => by
        rcases mem_savedRegs x with rfl | hx
        · exact h3
        · exact h5 x (h4 ▸ hx)
      refine ⟨?_, h2, [], rfl, fun t _ x hx => absurd hx List.not_mem_nil⟩
      show (⟨r.context.regs, s.rsp⟩ : Context) = k.ctx
      rw [hregs, h2]
  | load rest =>
    have hsw : s.rip.Switching := by rw [hp]; exact trivial
    have hl : ¬ s.rip.Loaded := by rw [hp]; exact id
    have hrsi := hsw₀.rsi hsw
    cases rest with
    | cons x xs =>
      simp only [exec, hp, hrsi] at hs
      obtain ⟨t, -, ht, hs⟩ := Mem.get_bind_ok hs
      obtain rfl := Except.ok.inj hs
      have hx : ∀ done, loadedRegs = done ++ x :: xs → x ≠ .rsi := fun done hd =>
        ne_of_mem_loadedRegs (by rw [hd]; simp)
      have hxr : x ≠ .rsi := by
        obtain ⟨r, hr, -⟩ := h.live
        obtain ⟨k, -, -, -, hk⟩ := hsw₀.stage hsw r hr
        rw [hp] at hk
        obtain ⟨-, -, done, hd, -⟩ := hk
        exact hx done hd
      refine h.loads hsw trivial (fun hn => absurd hn id) (Regs.set_of_ne _ _ hxr.symm) (fun _ => ⟨rfl, hl⟩) fun r k hk => ?_
      rw [hp] at hk
      obtain ⟨h1, h2, done, h3, h4⟩ := hk
      refine ⟨h1, h2, done ++ [x], by rw [h3]; simp, fun u hu => ?_⟩
      obtain rfl := Option.some.inj (ht.symm.trans hu)
      exact Regs.set_done (h4 t ht)
    | nil =>
      simp only [exec, hp, hrsi] at hs
      obtain ⟨t, -, ht, hs⟩ := Mem.get_bind_ok hs
      obtain rfl := Except.ok.inj hs
      refine h.loads hsw trivial (fun hn => absurd hn id) rfl (fun hn => absurd trivial hn) fun r k hk => ?_
      rw [hp] at hk
      obtain ⟨h1, -, done, h3, h4⟩ := hk
      rw [List.append_nil] at h3
      refine ⟨h1, fun u hu => ?_⟩
      obtain rfl := Option.some.inj (ht.symm.trans hu)
      exact ⟨rfl, h3 ▸ h4 t ht⟩
  | pushSaved =>
    have hsw : s.rip.Switching := by rw [hp]; exact trivial
    simp only [exec, hp, hsw₀.rsi hsw] at hs
    obtain ⟨t, -, ht, hs⟩ := Mem.get_bind_ok hs
    obtain rfl := Except.ok.inj hs
    refine h.loads hsw trivial (fun hn => absurd hn id) rfl (fun hn => absurd trivial hn) fun r k hk => ?_
    rw [hp] at hk
    refine ⟨hk.1, fun u hu => ?_⟩
    obtain rfl := Option.some.inj (ht.symm.trans hu)
    exact ⟨(hk.2 t ht).1, (hk.2 t ht).2, rfl⟩
  | popfq fl =>
    have hsw : s.rip.Switching := by rw [hp]; exact trivial
    simp only [exec, hp] at hs
    obtain rfl := Except.ok.inj hs
    refine h.loads hsw trivial (fun hn => absurd hn id) (Regs.set_of_ne _ _ (by rintro ⟨⟩)) (fun hn => absurd trivial hn) fun r k hk => ?_
    rw [hp] at hk
    refine ⟨hk.1, fun u hu => ?_⟩
    obtain ⟨h1, h2, h3⟩ := hk.2 u hu
    refine ⟨h1, fun x hx => ?_, (Regs.set_self s.regs .flags fl).trans h3⟩
    refine (Regs.set_of_ne _ _ ?_).trans (h2 x hx)
    rintro rfl
    exact absurd hx (by decide)
  | loadRsi => exact absurd hp hne
  | _ =>
    rw [hp] at hw
    exact absurd hw id

/-- The processor's new fiber goes on where it stopped. -/
theorem Inv.loadRsi (h : Inv hold s) (hp : s.rip = .loadRsi) (hs : exec o s = .ok s') :
    Handover hold s s' ∧ Inv hold s' ∧ Resumed s s' := by
  have hsw : s.rip.Switching := by rw [hp]; exact trivial
  have hsw₀ := h.switch hsw.window
  have hc := hsw₀.current
  have hshared := h.current hc
  obtain ⟨r, hr, -⟩ := h.live
  obtain ⟨k, hk, hst, hwk, hstage⟩ := hsw₀.stage hsw r hr
  rw [hp] at hstage
  simp only [exec, hp, hsw₀.rsi hsw] at hs
  obtain ⟨t, -, ht, hs⟩ := Mem.get_bind_ok hs
  obtain ⟨hrsp, hregs, hflags⟩ := hstage.2 t ht
  obtain ⟨k', hk'⟩ := Option.isSome_iff_exists.mp (hshared.1.resolve_left hsw₀.ne)
  obtain ⟨hctx', hst', hwk'⟩ := h.kept _ k' t hsw₀.ne hk' ht
  have hs := Except.ok.inj hs
  have hrun : s'.running = s.mem.currentFiber := by rw [← hs]
  have hstop : s'.stopped = s.stopped := by rw [← hs]
  have hmem : s'.mem = s.mem := by rw [← hs]
  have hwords : s'.words = s.words := by rw [← hs]
  have hrip : s'.rip = .swRet := by rw [← hs]
  have hun : s'.unfinished = s.unfinished := by rw [← hs]
  have hrsp' : s'.rsp = k'.ctx.rsp := by rw [← hs, ← hctx', ← hrsp]
  have hregs' : s'.regs = k'.ctx.regs := by
    rw [← hs, ← hctx']
    funext x
    rcases mem_loadedRegs x with rfl | rfl | hx
    · exact (Regs.set_of_ne s.regs (t.context.regs .rsi) (x := .rsi) (by decide)).trans hflags
    · exact Regs.set_self s.regs .rsi _
    · exact (Regs.set_of_ne _ _ (ne_of_mem_loadedRegs hx)).trans (hregs x hx)
  clear hs
  have hknown : ∀ a, Known s' a ↔ Known s a := fun a => by
    unfold Known
    rw [hrun, hstop]
    constructor
    · rintro (rfl | ha)
      · exact hshared.1
      · exact Or.inr ha
    · rintro (rfl | ha)
      · exact Or.inr (by rw [hk]; rfl)
      · exact Or.inr ha
  have htodo : ∀ a, todo s' a = todo s a := fun a => by
    by_cases hac : a = s.mem.currentFiber
    · rw [hac, todo, todo, chain_stopped hsw₀.ne hk', ← hrun, chain_running (by rw [hrip]; exact id), hrip, hwords, hrsp']
      show (PC.swRet :: frames (s.words k'.ctx.rsp.block) k'.ctx.rsp.height).dropWhile _ = _
      rw [List.dropWhile_cons_of_pos (by simp), ← hst', frames_congr hwk']
    · by_cases har : a = s.running
      · rw [har, todo, todo, chain_switching hsw hk, chain_stopped (by rw [hrun]; exact hsw₀.ne.symm) (hstop.symm ▸ hk)]
      · rw [todo_congr har (by rwa [hrun]) (by rw [hstop])]
  have hh : Handover hold s s' :=
    ⟨hknown, fun a _ => htodo a, fun a => by rw [hmem], fun a x _ => by rw [hmem], by rw [hmem], hun⟩
  refine ⟨hh, h.handover hh hc (hmem ▸ hshared) (hrun ▸ hshared.2) (fun _ => by rw [hmem, hrun]) (fun a q u ha hq hu => ?_)
    ⟨t, by rw [hmem, hrun, ht], fun _ => by rw [hrsp', hst']⟩ (fun hwin => ?_),
    fun _ => ⟨k', by rw [hrun, hk'], hregs', Or.inl ⟨hrip, hrsp'⟩⟩⟩
  · rw [hmem] at hu
    rw [hstop] at hq
    rw [hwords]
    by_cases har : a = s.running
    · obtain rfl := Option.some.inj (hr.symm.trans (har ▸ hu))
      obtain rfl := Option.some.inj (hk.symm.trans (har ▸ hq))
      exact ⟨hstage.1, hst, hwk⟩
    · exact h.kept a q u har hq hu
  · rw [hrip] at hwin
    exact absurd hwin id

/-- The `ret` of `SwitchFiberContext`. -/
theorem Inv.swRet (h : Inv hold s) (hrip : s.rip = .swRet) (hs : s.pop = .ok s') : Handover hold s s' ∧ Inv hold s' := by
  obtain ⟨k, hk, hs⟩ := pop_ok hs
  have hw : ¬ s.rip.Window := by rw [hrip]; exact id
  have hc := h.listed (by rw [hrip]; exact id)
  obtain ⟨r, hr, hb⟩ := h.live
  have hchain : todo s s.running = (s.words s.rsp.block k :: frames (s.words s.rsp.block) k).dropWhile (· = .swRet) := by
    rw [todo, chain_running (by rw [hrip]; exact id), hrip, hk]
    exact List.dropWhile_cons_of_pos (by simp [PC.back])
  have htop : ¬ (s.words s.rsp.block k).Window := by
    obtain ⟨p, ps, hch, -, hloc⟩ := h.fits _ (Or.inl rfl)
    exact hloc.top (hchain ▸ hch)
  have hrun : s'.running = s.running := by rw [hs]
  have hstop : s'.stopped = s.stopped := by rw [hs]
  have hrip' : s'.rip = s.words s.rsp.block k := by rw [hs]
  have hframes : frames (s'.words s'.rsp.block) s'.rsp.height = frames (s.words s.rsp.block) k := by rw [hs]
  have htodo : ∀ a, todo s' a = todo s a := fun a => by
    by_cases har : a = s.running
    · rw [har, hchain, ← hrun, todo, chain_running (by rw [hrip']; exact fun hn => htop hn.window),
        PC.back_eq (by rwa [hrip']), hrip', hframes]
    · rw [todo_congr har (by rwa [hrun]) (by rw [hstop])]
  have hh : Handover hold s s' := by
    refine ⟨fun a => by rw [Known, Known, hrun, hstop], fun a _ => htodo a, fun a => ?_, fun a x _ => ?_, ?_, ?_⟩ <;> rw [hs]
  refine ⟨hh, h.handover hh hc ?_ (hrun ▸ h.self) (fun _ => ?_) ?_ ⟨r, ?_, fun _ => ?_⟩ fun hn => absurd (hrip' ▸ hn) htop⟩
  · rw [hs]
    exact h.current hc
  · rw [hs]
    exact h.runs hw hc
  · rw [hs]
    exact h.kept
  · rw [hs, hr]
  · rw [hs]
    exact hb fun hl => hw hl.switching.window

theorem sat_bind {ε α β : Type} {I : β → Prop} {x : Except ε α} {k : α → Except ε β}
    (h : ∀ a, Sat I (fun _ => True) (k a)) : Sat I (fun _ => True) (x >>= k) := by
  cases x with
  | ok a => exact h a
  | error e => exact trivial

theorem sat_leave {g : Regs} {r : Addr} (h : s.running = r) : Sat (fun s' => s'.running = r) (fun _ => True) (s.leave g) := by
  cases hs : s.leave g with
  | error e => exact trivial
  | ok s' =>
    obtain ⟨k, -, rfl⟩ := pop_ok hs
    exact h

/-- Only the end of `SwitchFiberContext` changes which fiber runs. -/
theorem exec_running (hne : s.rip ≠ .loadRsi) :
    Sat (fun s' => s'.running = s.running) (fun _ => True) (exec o s) := by
  unfold exec
  dsimp only
  split
  all_goals
    repeat first
      | exact absurd ‹s.rip = .loadRsi› hne
      | exact rfl
      | exact trivial
      | exact sat_leave rfl
      | refine sat_bind fun _ => ?_
      | split

/-! ### The tick -/

/-- An access to memory that is not allocated. -/
def Freed : Fault → Prop
  | .dangling _ | .badFree _ => True
  | _ => False

/-- What a tick makes of the state that gives the processor to the fiber after `CurrentFiber`. `c` is
the record of `CurrentFiber`, `t` the next one's, with `h + 1` words on its stack. -/
def switched (s : State) (c t : Fiber Context) (h : ℕ) : State :=
  let ctx := ⟨s.regs, ⟨s.rsp.block, s.rsp.height + 1⟩⟩
  let words := (s.write s.rsp.block s.rsp.height s.rip).words
  { s with
    mem := { s.mem.put s.mem.currentFiber { c with context := ctx } with currentFiber := c.next }
    words := words
    regs := t.context.regs
    rsp := ⟨t.context.rsp.block, h⟩
    rip := words t.context.rsp.block h
    running := c.next
    stopped := fun a => if a = s.running then some ⟨ctx, words s.rsp.block⟩ else s.stopped a }

/-- The tick gives the processor away. -/
def Switched (s s' : State) (c t : Fiber Context) (h : ℕ) : Prop :=
  s.mem.currentFiber ≠ NULL ∧ s.mem.heap.lookup s.mem.currentFiber = some c ∧ c.next ≠ s.mem.currentFiber ∧ c.next ≠ NULL ∧
    s.mem.heap.lookup c.next = some t ∧ Allocated s.mem t.context.rsp.block ∧ t.context.rsp.height = h + 1 ∧
    s' = switched s c t h

theorem fiberSched_cases (hs : fiberSched s = .ok s') : s' = s ∨ ∃ c t h, Switched s s' c t h := by
  unfold fiberSched at hs
  obtain ⟨c, hc, hlc, hs⟩ := Mem.get_bind_ok hs
  split_ifs at hs with hn
  · exact Or.inl (Except.ok.inj hs).symm
  · obtain ⟨t, ht, hlt, hs⟩ := Mem.get_bind_ok hs
    split_ifs at hs with ha
    obtain ⟨h, hh, rfl⟩ := pop_ok hs
    have hlt : s.mem.heap.lookup c.next = some t := (Mem.lookup_put.trans (if_neg hn)).symm.trans hlt
    exact Or.inr ⟨c, t, h, hc, hlc, hn, ht, hlt, ha, hh, rfl⟩

/-- A tick outside the window: the running fiber stops, and the next one goes on. -/
theorem Inv.tick (h : Inv hold s) (hw : ¬ s.rip.Window) {c t : Fiber Context} {n : ℕ} (hs : Switched s s' c t n) :
    Handover hold s s' ∧ Inv hold s' ∧ Resumed s s' := by
  obtain ⟨hc, hlc, hn, hn0, hlt, -, hh, hs⟩ := hs
  have hcr := h.runs hw hc
  have hsw : ¬ s.rip.Switching := fun hn => hw hn.window
  have hcur := h.current hc
  have hnext := h.linked hc hcur hlc
  obtain ⟨k, hk⟩ := Option.isSome_iff_exists.mp (hnext.1.resolve_left (by rwa [hcr]))
  obtain ⟨hctx, hst, hwk⟩ := h.kept _ k t (by rwa [hcr]) hk hlt
  obtain ⟨r, hr, hb⟩ := h.live
  rw [hcr, hlc] at hr
  obtain rfl := Option.some.inj hr
  have hb := hb fun hl => hsw hl.switching
  have hstack : ∀ a u, Known s a → s.mem.heap.lookup a = some u → a ≠ s.mem.currentFiber → u.stack ≠ s.rsp.block :=
    fun a u ha hu hac he => hac (h.inj a _ u c ha hcur.1 hu hlc (he.trans hb))
  have hrun : s'.running = c.next := by rw [hs]; rfl
  have hun : s'.unfinished = s.unfinished := by rw [hs]; rfl
  have hblocks : s'.mem.stackBlocks = s.mem.stackBlocks := by rw [hs]; rfl
  have hcf : s'.mem.currentFiber = c.next := by rw [hs]; rfl
  have hrecs : ∀ a, a ≠ s.mem.currentFiber → s'.mem.heap.lookup a = s.mem.heap.lookup a := fun a ha => by
    rw [hs]
    exact Mem.lookup_put.trans (if_neg ha)
  have hrec : s'.mem.heap.lookup s.mem.currentFiber = some { c with context := ⟨s.regs, ⟨s.rsp.block, s.rsp.height + 1⟩⟩ } := by
    rw [hs]
    exact Mem.lookup_put.trans (if_pos rfl)
  have hstop : s'.stopped s.mem.currentFiber = some ⟨⟨s.regs, ⟨s.rsp.block, s.rsp.height + 1⟩⟩, s'.words s.rsp.block⟩ := by
    rw [hs]
    exact if_pos hcr.symm
  have hstops : ∀ a, a ≠ s.mem.currentFiber → s'.stopped a = s.stopped a := fun a ha => by
    rw [hs]
    exact if_neg (by rwa [hcr])
  have htop : s'.words s.rsp.block s.rsp.height = s.rip := by
    rw [hs]
    exact if_pos ⟨rfl, rfl⟩
  have hbelow : ∀ i < s.rsp.height, s'.words s.rsp.block i = s.words s.rsp.block i := fun i hi => by
    rw [hs]
    exact if_neg fun he => absurd he.2 (Nat.ne_of_lt hi)
  have hwords : ∀ b, b ≠ s.rsp.block → s'.words b = s.words b := fun b hn => by
    rw [hs]
    funext i
    exact if_neg fun he => hn he.1
  have hregs : s'.regs = k.ctx.regs := by rw [hs, ← hctx]; rfl
  have hrsp : s'.rsp = ⟨t.stack, n⟩ := by rw [hs, hst, ← hctx]; rfl
  have hrip : s'.rip = s'.words t.stack n := by rw [hs, hst, ← hctx]; rfl
  clear hs
  have hkh : k.ctx.rsp.height = n + 1 := by rw [← hctx, hh]
  have htw : s'.words t.stack = s.words t.stack := hwords _ (hstack _ t hnext.1 hlt hn)
  have hripk : s'.rip = k.words n := by rw [hrip, htw, hwk n (by omega)]
  have hknown : ∀ a, Known s' a ↔ Known s a := fun a => by
    unfold Known
    rw [hrun, hcr]
    by_cases hac : a = s.mem.currentFiber
    · rw [hac, hstop]
      exact iff_of_true (Or.inr rfl) (Or.inl rfl)
    · rw [hstops a hac]
      constructor
      · rintro (rfl | ha)
        · exact Or.inr (by rw [hk]; rfl)
        · exact Or.inr ha
      · exact fun ha => Or.inr (ha.resolve_left hac)
  have hchain : chain s c.next = k.words n :: frames k.words n := by
    rw [chain_stopped (by rwa [hcr]) hk, hkh]
    rfl
  have hw' : ¬ s'.rip.Window := by
    obtain ⟨p, ps, hch, -, hloc⟩ := h.fits _ hnext.1
    rw [todo, hchain] at hch
    rw [hripk]
    exact hloc.top hch
  have htodo : ∀ a, todo s' a = todo s a := fun a => by
    by_cases han : a = c.next
    · rw [han, todo, todo, hchain, ← hrun, chain_running fun hn => hw' hn.window, PC.back_eq hw', hripk, hrsp]
      show (k.words n :: frames (s'.words t.stack) n).dropWhile _ = _
      rw [htw, frames_congr fun i hi => hwk i (by omega)]
    · by_cases hac : a = s.mem.currentFiber
      · rw [hac, todo, todo, chain_stopped (by rw [hrun]; exact hn.symm) hstop, ← hcr, chain_running hsw, PC.back_eq hw]
        show (s'.words s.rsp.block s.rsp.height :: frames (s'.words s.rsp.block) s.rsp.height).dropWhile _ = _
        rw [htop, frames_congr hbelow]
      · rw [todo_congr (by rwa [hcr]) (by rwa [hrun]) (hstops a hac)]
  have hh : Handover hold s s' := by
    refine ⟨hknown, fun a _ => htodo a, fun a => ?_, fun a x ha => hrecs a ?_, hblocks, hun⟩
    · by_cases hac : a = s.mem.currentFiber
      · rw [hac, hrec, hlc]
        rfl
      · rw [hrecs a hac]
    · rintro rfl
      cases ha.symm.trans hcur.2
  refine ⟨hh, h.handover hh hc (hcf ▸ hnext) (hrun ▸ hnext.2) (fun _ => by rw [hrun, hcf]) (fun a q u ha hq hu => ?_)
    ⟨t, by rw [hrun, hrecs _ hn, hlt], fun _ => by rw [hrsp]⟩ (fun hwin => absurd hwin hw'),
    fun _ => ⟨k, by rw [hrun, hk], hregs, Or.inr ⟨n, ?_, ?_, hripk⟩⟩⟩
  · by_cases hac : a = s.mem.currentFiber
    · obtain rfl := Option.some.inj (hu.symm.trans (hac ▸ hrec))
      obtain rfl := Option.some.inj (hq.symm.trans (hac ▸ hstop))
      exact ⟨rfl, hb.symm, fun i _ => by rw [hb]⟩
    · rw [hstops a hac] at hq
      rw [hrecs a hac] at hu
      have haK : Known s a := Or.inr (by rw [hq]; rfl)
      rw [hwords _ (hstack a u haK hu hac)]
      exact h.kept a q u (by rwa [hcr]) hq hu
  · rw [hrsp, ← hkh, hst]
  · rw [hrsp]

/-- A tick that finds a fiber to give the processor to. -/
theorem fiberSched_eq {c t : Fiber Context} (hc : s.mem.currentFiber ≠ NULL) (hlc : s.mem.heap.lookup s.mem.currentFiber = some c)
    (hn : c.next ≠ s.mem.currentFiber) (hn0 : c.next ≠ NULL) (hlt : s.mem.heap.lookup c.next = some t) :
    fiberSched s = if ¬ Allocated s.mem t.context.rsp.block then .error (.dangling t.context.rsp.block)
      else { switched s c t 0 with rsp := t.context.rsp, rip := s.rip }.pop := by
  have hget : ∀ ctx, Mem.get { s.mem.put s.mem.currentFiber { c with context := ctx } with currentFiber := c.next } c.next = .ok t :=
    fun ctx => Mem.get_ok hn0 ((Mem.lookup_put.trans (if_neg hn)).trans hlt)
  unfold fiberSched
  dsimp only
  rw [Mem.get_ok hc hlc, ok_bind, if_neg hn]
  refine (congrArg (· >>= _) (hget _)).trans ?_
  rw [ok_bind]
  rfl

/-- It gives it away, unless that fiber has no stack to go on with. -/
theorem fiberSched_away {c t : Fiber Context} (hc : s.mem.currentFiber ≠ NULL) (hlc : s.mem.heap.lookup s.mem.currentFiber = some c)
    (hn : c.next ≠ s.mem.currentFiber) (hn0 : c.next ≠ NULL) (hlt : s.mem.heap.lookup c.next = some t) :
    Sat (fun s' => ∃ h, Switched s s' c t h) (fun x => Freed x ∧ ¬ (Allocated s.mem t.context.rsp.block ∧ t.context.rsp.height ≠ 0))
      (fiberSched s) := by
  rw [fiberSched_eq hc hlc hn hn0 hlt]
  split_ifs with ha
  · unfold pop
    split
    · next hz => exact ⟨trivial, fun hn => hn.2 hz⟩
    · next h hh => exact ⟨h, hc, hlc, hn, hn0, hlt, ha, hh, rfl⟩
  · exact ⟨trivial, fun hn => ha hn.1⟩

/-- **In the window.** A tick that gives the processor away stores the registers of the running fiber, or some of
each, where another fiber's context was. -/
theorem tick_in_window (h : Inv hold s) (hw : s.rip.Window) {c t : Fiber Context} {n : ℕ} (hs : Switched s s' c t n) :
    ¬ Kept s' := by
  obtain ⟨hc, hlc, hn, -, -, -, -, hs⟩ := hs
  have hsw₀ := h.switch hw
  have hcur := (h.current hc).1
  obtain ⟨k, hk⟩ := Option.isSome_iff_exists.mp (hcur.resolve_left hsw₀.ne)
  obtain ⟨r, hr, hb⟩ := h.live
  have hctx := (h.kept _ k c hsw₀.ne hk hlc).1
  intro hkept
  obtain ⟨h1, h2, -⟩ := hkept s.mem.currentFiber k { c with context := ⟨s.regs, ⟨s.rsp.block, s.rsp.height + 1⟩⟩ }
    (by rw [hs]; exact hn.symm) (by rw [hs]; exact (if_neg hsw₀.ne).trans hk) (by rw [hs]; exact Mem.lookup_put.trans (if_pos rfl))
  have hrsp : (⟨s.rsp.block, s.rsp.height + 1⟩ : Rsp) = k.ctx.rsp := congrArg Context.rsp h1
  have h2 : c.stack = k.ctx.rsp.block := h2
  by_cases hl : s.rip.Loaded
  · -- the stack is `to`'s already, and one word higher
    obtain ⟨k', -, -, -, hstage⟩ := hsw₀.stage hl.switching r hr
    have heq : s.rsp = c.context.rsp := by
      cases hp : s.rip <;> rw [hp] at hl hstage <;> first | exact absurd hl id | exact (hstage.2 c hlc).1
    rw [hctx, ← hrsp] at heq
    exact absurd (congrArg Rsp.height heq) (Nat.ne_of_lt (Nat.lt_succ_self _))
  · -- the stack is that of the fiber that is still to stop
    have hblock : c.stack = r.stack := by rw [h2, ← hrsp, hb hl]
    exact hsw₀.ne (h.inj _ _ c r hcur (Or.inl rfl) hlc hr hblock)

/-- After the step, the fibers that do not run have the contexts at which they stopped; if it gave the processor to
another fiber, that one goes on where it stopped. No context comes from memory that was freed. -/
def StepKeeps (s : State) (e : Event) : Prop :=
  Sat (fun s' => Kept s' ∧ Resumed s s') (fun x => ¬ Freed x) (step s e)

/-- No tick comes in the window. -/
def Undisturbed (s : State) : Event → Prop
  | .tick => ¬ s.rip.Window
  | .exec _ => True

instance (s : State) : DecidablePred (Undisturbed s)
  | .tick => inferInstanceAs (Decidable (¬ _))
  | .exec _ => isTrue trivial

/-- **One step.** If the pointers of the running fiber are fresh, a step outside the window, or a statement in it, keeps the
invariant, and resumes a fiber only where it stopped. -/
theorem Inv.stepped (h : Inv hold s) (hfresh : s.mem.currentFiber ≠ NULL → s.rip.Fresh s.mem s.running) {e : Event}
    (he : Undisturbed s e) (hs : step s e = .ok s') : (∃ hold', Inv hold' s') ∧ Resumed s s' := by
  have ha : Allocated s.mem s.rsp.block := by
    by_contra ha
    rw [step.eq_def, if_pos ha] at hs
    cases hs
  rw [step.eq_def, if_neg (not_not.mpr ha)] at hs
  cases e with
  | exec o =>
    have hs : exec o s = .ok s' := hs
    by_cases hp : s.rip = .loadRsi
    · obtain ⟨-, h1, h2⟩ := h.loadRsi hp hs
      exact ⟨⟨hold, h1⟩, h2⟩
    · have hrun := exec_running (o := o) hp
      rw [hs] at hrun
      refine ⟨?_, fun hn => absurd hrun hn⟩
      by_cases hw : s.rip.Window
      · exact ⟨hold, (h.in_window hw hp hs).2⟩
      · by_cases hne : s.rip = .swRet
        · simp only [exec, hne] at hs
          exact ⟨hold, (h.swRet hne hs).2⟩
        · exact h.statement hfresh hw hne hs
  | tick =>
    rcases fiberSched_cases hs with rfl | ⟨c, t, n, hsw⟩
    · exact ⟨⟨hold, h⟩, fun hn => absurd rfl hn⟩
    · obtain ⟨-, h1, h2⟩ := h.tick he hsw
      exact ⟨⟨hold, h1⟩, h2⟩

end Steps
end PFibers
end OsLabs
