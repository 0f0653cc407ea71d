/-
# The entries of the table

A process that is in use has a stack of its own, an unused entry has none. Between the critical sections of `fork` the entry of the child is
nobody else's.

Key definitions: `Slots`, `Sound`.
Key theorems: `Tasks.micro`, `Slots.micro`.
-/
import OsLabs.Xv6.Processors

namespace OsLabs
namespace Xv6
namespace Ptable

open Function (update)
open Alarm (NPROC ProcState initproc)

variable {ι : Type} [DecidableEq ι] {s s' : State ι}

omit [DecidableEq ι] in
theorem Tasks.congr (h : Tasks s) (hprocs : s'.procs = s.procs) : Tasks s' := by
  obtain ⟨hembryo, hkalloc, hcopyuvm, hstart, hsingle, halive⟩ := h
  rw [← hprocs] at hembryo hkalloc hcopyuvm hstart hsingle halive
  exact ⟨hembryo, hkalloc, hcopyuvm, hstart, hsingle, halive⟩

structure Slots (s : State ι) : Prop where
  used : ∀ p, (s.procs p).InUse → (s.procs p).kstack ≠ none
  unused : ∀ p, (s.procs p).state = .unused → (s.procs p).kstack = none ∧ (s.procs p).parent = none
  distinct : ∀ p q k, (s.procs p).kstack = some k → (s.procs q).kstack = some k → p = q
  cont : ∀ p, (s.procs p).Alive → (s.procs p).cont ≠ .exit

/-- What is asked of the table but for the families. -/
structure Sound (s : State ι) : Prop where
  cpus : Cpus s
  tasks : Tasks s
  slots : Slots s

omit [DecidableEq ι] in
/-- What leaves the forks as they are, and their children. -/
theorem Tasks.frame (h : Tasks s) (htask : ∀ q, (s'.procs q).task = (s.procs q).task)
    (hembryo : ∀ q, (s.procs q).state = .embryo →
      (s'.procs q).state = .embryo ∧ (s'.procs q).kstack = (s.procs q).kstack ∧ (s'.procs q).cont = (s.procs q).cont)
    (hparent : ∀ p q, (s.procs p).task.child = some q → (s'.procs q).parent = (s.procs q).parent)
    (halive : ∀ q, (s.procs q).task ≠ .none → (s.procs q).Alive → (s'.procs q).Alive) : Tasks s' := by
  refine ⟨fun p q hq => ?_, fun p q hq => ?_, fun p q hq => ?_, fun p q hq => ?_, fun p p' q hp hp' => ?_, fun p hp => ?_⟩
  · rw [htask] at hq
    exact (hembryo q (h.embryo p q hq)).1
  · rw [htask] at hq
    have hchild : (s.procs p).task.child = some q := by rw [hq]; rfl
    obtain ⟨-, hk, -⟩ := hembryo q (h.embryo p q hchild)
    rw [hk, hparent p q hchild]
    exact h.kalloc p q hq
  · rw [htask] at hq
    have hchild : (s.procs p).task.child = some q := by rw [hq]; rfl
    obtain ⟨-, hk, hc⟩ := hembryo q (h.embryo p q hchild)
    rw [hk, hc, hparent p q hchild]
    exact h.copyuvm p q hq
  · rw [htask] at hq
    have hchild : (s.procs p).task.child = some q := by rw [hq]; rfl
    obtain ⟨-, hk, hc⟩ := hembryo q (h.embryo p q hchild)
    rw [hk, hc, hparent p q hchild]
    exact h.start p q hq
  · rw [htask] at hp hp'
    exact h.single p p' q hp hp'
  · rw [htask] at hp
    exact halive p hp (h.alive p hp)

omit [DecidableEq ι] in
theorem Tasks.child_parent (h : Tasks s) {p q : Fin NPROC} (hq : (s.procs p).task.child = some q) :
    (s.procs q).parent = none ∨ (s.procs q).parent = some p := by
  cases htask : (s.procs p).task with
  | none =>
    rw [htask] at hq
    cases hq
  | kalloc r =>
    rw [htask] at hq
    obtain rfl := Option.some.inj hq
    exact .inl (h.kalloc p r htask).2
  | copyuvm r =>
    rw [htask] at hq
    obtain rfl := Option.some.inj hq
    exact .inl (h.copyuvm p r htask).2.2
  | start r =>
    rw [htask] at hq
    obtain rfl := Option.some.inj hq
    exact .inr (h.start p r htask).2.2

omit [DecidableEq ι] in
/-- An edit of one slot that is no child's. -/
theorem Tasks.set (h : Tasks s) {p : Fin NPROC} {x : Slot} (htask : x.task = (s.procs p).task)
    (hembryo : (s.procs p).state ≠ .embryo) (halive : x.task ≠ .none → x.Alive) : Tasks (s.set p x) := by
  refine h.frame (fun q => ?_) (fun q hq => ?_) (fun r q hq => ?_) fun q hq ha => ?_
  · rw [set_procs]
    split_ifs with hqp
    · rw [htask, hqp]
    · rfl
  · rw [set_procs, if_neg fun hqp : q = p => hembryo (hqp ▸ hq)]
    exact ⟨hq, rfl, rfl⟩
  · rw [set_procs, if_neg fun hqp : q = p => hembryo (hqp ▸ h.embryo r q hq)]
  · rw [set_procs]
    split_ifs with hqp
    · exact halive (htask.trans_ne (hqp ▸ hq))
    · exact ha

omit [DecidableEq ι] in
theorem Tasks.task_none (h : Tasks s) {p : Fin NPROC} (hp : ¬ (s.procs p).Alive) : (s.procs p).task = .none :=
  of_not_not (mt (h.alive p) hp)

/-- What a task asks of the child. -/
def Task.Fits (p : Fin NPROC) (x : Slot) : Task → Prop
  | .none => True
  | .kalloc _ => x.state = .embryo ∧ x.kstack = Option.none ∧ x.parent = Option.none
  | .copyuvm _ => x.state = .embryo ∧ x.kstack ≠ Option.none ∧ x.cont = .forkret ∧ x.parent = Option.none
  | .start _ => x.state = .embryo ∧ x.kstack ≠ Option.none ∧ x.cont = .forkret ∧ x.parent = some p

omit [DecidableEq ι] in
/-- A step of the fork of `p`, which is the only one for `q`. -/
theorem Tasks.forks (h : Tasks s) {p q : Fin NPROC} {x : Slot} {t : Task} (hp : (s.procs p).Alive) (hq : (s.procs q).task = .none)
    (halone : ∀ r, r ≠ p → (s.procs r).task.child ≠ some q) (hne : q ≠ p) (hx : x.task = .none)
    (hchild : ∀ r, t.child = some r → r = q) (hfits : t.Fits p x) :
    Tasks ((s.set q x).set p { s.procs p with task := t }) := by
  have htask : ∀ r, (((s.set q x).set p { s.procs p with task := t }).procs r).task = if r = p then t else (s.procs r).task := by
    intro r
    simp only [set_procs]
    split_ifs with hrp hrq
    · rfl
    · rw [hx, hrq, hq]
    · rfl
  have hother : ∀ {r r'}, r ≠ p → (s.procs r).task.child = some r' →
      ((s.set q x).set p { s.procs p with task := t }).procs r' = s.procs r' := by
    intro r r' hr hr'
    have hrq : r' ≠ q := fun heq => halone r hr (heq ▸ hr')
    have hrp : r' ≠ p := by
      rintro rfl
      have hembryo := h.embryo r r' hr'
      simp [Slot.Alive, hembryo] at hp
    simp only [set_procs, if_neg hrp, if_neg hrq]
  have hself : ((s.set q x).set p { s.procs p with task := t }).procs q = x := by
    simp only [set_procs, if_neg hne, if_true]
  refine ⟨fun r r' hr' => ?_, fun r r' hr' => ?_, fun r r' hr' => ?_, fun r r' hr' => ?_, fun r r' u hu hu' => ?_, fun r hr => ?_⟩
  · rw [htask] at hr'
    split_ifs at hr' with hrp
    · obtain rfl := hchild r' hr'
      rw [hself]
      cases t <;> simp_all [Task.Fits, Task.child]
    · rw [hother hrp hr']
      exact h.embryo r r' hr'
  · rw [htask] at hr'
    split_ifs at hr' with hrp
    · obtain rfl := hchild r' (by rw [hr']; rfl)
      rw [hr'] at hfits
      rw [hself]
      exact hfits.2
    · rw [hother hrp (by rw [hr']; rfl)]
      exact h.kalloc r r' hr'
  · rw [htask] at hr'
    split_ifs at hr' with hrp
    · obtain rfl := hchild r' (by rw [hr']; rfl)
      rw [hr'] at hfits
      rw [hself]
      exact hfits.2
    · rw [hother hrp (by rw [hr']; rfl)]
      exact h.copyuvm r r' hr'
  · rw [htask] at hr'
    split_ifs at hr' with hrp
    · obtain rfl := hchild r' (by rw [hr']; rfl)
      rw [hr'] at hfits
      rw [hself, hrp]
      exact hfits.2
    · rw [hother hrp (by rw [hr']; rfl)]
      exact h.start r r' hr'
  · rw [htask] at hu hu'
    split_ifs at hu hu' with hr hr' hr'
    · rw [hr, hr']
    · exact absurd (hchild u hu ▸ hu') (halone r' hr')
    · exact absurd (hchild u hu' ▸ hu) (halone r hr)
    · exact h.single r r' u hu hu'
  · rw [htask] at hr
    by_cases hrp : r = p
    · simp only [set_procs, if_pos hrp]
      exact hp
    · rw [if_neg hrp] at hr
      have hrq : r ≠ q := fun heq => hr (heq ▸ hq)
      simp only [set_procs, if_neg hrp, if_neg hrq]
      exact h.alive r hr

omit [DecidableEq ι] in
theorem Leaves.task {p : Fin NPROC} {x : Slot} (h : Leaves s p x) : x.task = (s.procs p).task ∧ (x.task ≠ .none → x.Alive) := by
  cases h with
  | exit _ htask => exact ⟨rfl, fun h => absurd htask h⟩
  | _ => exact ⟨rfl, fun _ => by simp [Slot.Alive]⟩

theorem Tasks.micro (h : Sound s) (hstep : Micro s s') : Tasks s' := by
  have ht := h.tasks
  cases hstep with
  | acquire | skip | rest | grab | release | switch => exact ht.congr rfl
  | pick hc hp =>
    have hp' := ht.set (x := { s.procs _ with state := .running }) rfl (by rw [hp]; simp) fun _ => .inr (.inr rfl)
    exact hp'.congr rfl
  | leave hc hx =>
    have hrun := h.cpus.runs _ _ (.inr hc)
    exact (ht.set hx.task.1 (by rw [hrun]; simp) hx.task.2).congr rfl
  | clear hc =>
    have hrun := h.cpus.runs _ _ (.inr hc)
    exact ht.set rfl (by rw [hrun]; simp) fun _ => .inr (.inr hrun)
  | wakeup chan =>
    refine ht.frame (fun q => wakeup1_task ..) (fun q hq => ?_) (fun _ q _ => wakeup1_parent ..) fun q _ ha => ?_
    · simp [wakeup1, hq]
    · rcases wakeup1_state chan s.procs q with heq | ⟨-, hrunnable⟩
      · unfold Slot.Alive
        rw [heq]
        exact ha
      · exact .inr (.inl hrunnable)
  | kill q =>
    refine ht.frame (fun r => ?_) (fun r hr => ?_) (fun _ r _ => ?_) fun r _ ha => ?_
    all_goals rw [set_procs]; split_ifs with hrq
    all_goals grind [Slot.Alive]
  | adopt hc hp htask hinit =>
    refine ht.frame (fun q => adopt_task ..) (fun q hq => ⟨(adopt_state ..).trans hq, adopt_kstack .., adopt_cont ..⟩)
      (fun r q hq => ?_) fun q _ ha => ?_
    · refine congrArg Slot.parent (adopt_parent_ne _ fun hparent => ?_)
      rcases ht.child_parent hq with hnone | hsome
      · simp [hnone] at hparent
      · have hrp : r = _ := Option.some.inj (hsome.symm.trans hparent)
        rw [hrp, htask] at hq
        cases hq
    · show (adopt _ s.procs q).Alive
      unfold Slot.Alive
      rw [adopt_state]
      exact ha
  | @reap c p q hc hq =>
    have hset := ht.set (p := q) (x := { s.procs q with
      state := .unused, pid := 0, parent := none, killed := false, kstack := none }) rfl (by simp [hq.2]) fun htask => by
        have halive := ht.alive q htask
        simp [Slot.Alive, hq.2] at halive
    exact hset.congr rfl
  | @fork c p q hc htask hq =>
    have hrun := h.cpus.runs _ _ (.inr hc)
    obtain ⟨hk, hparent⟩ := h.slots.unused q hq
    have hqtask := ht.task_none (p := q) (by simp [Slot.Alive, hq])
    have hne : q ≠ p := fun heq => by simp [← heq, hq] at hrun
    have halone : ∀ r, r ≠ p → (s.procs r).task.child ≠ some q := fun r _ hr => by
      have hembryo := ht.embryo r q hr
      simp [hq] at hembryo
    have hfits : (Task.kalloc q).Fits p { s.procs q with state := .embryo, pid := s.nextpid } := ⟨rfl, hk, hparent⟩
    have hforks := ht.forks (t := .kalloc q) (.inr (.inr hrun)) hqtask halone hne (x := { s.procs q with
      state := .embryo, pid := s.nextpid }) hqtask (fun r hr => (Option.some.inj hr).symm) hfits
    exact hforks.congr rfl
  | @forks s' c p hc hforks =>
    have hp : (s.procs p).Alive := .inr (.inr (h.cpus.runs _ _ (.inl hc)))
    -- The child is this fork's, whichever step it is at.
    have hadvance : ∀ {q x t}, (s.procs p).task.child = some q → x.task = (s.procs q).task →
        (∀ r, t.child = some r → r = q) → t.Fits p x → Tasks ((s.set q x).set p { s.procs p with task := t }) := by
      intro q x t hchild hx ht' hfits
      have hembryo := ht.embryo p q hchild
      have hqtask := ht.task_none (p := q) (by simp [Slot.Alive, hembryo])
      have hne : q ≠ p := fun heq => by simp [Slot.Alive, ← heq, hembryo] at hp
      exact ht.forks hp hqtask (fun r hr hrq => hr (ht.single r p q hrq hchild)) hne (hx.trans hqtask) ht' hfits
    have hembryo := ht.embryo p
    cases hforks with
    | nokalloc htask => exact hadvance (by rw [htask]; rfl) rfl (fun r hr => by cases hr) trivial
    | @kalloc q k htask hfree =>
      rw [htask] at hembryo
      obtain ⟨-, hparent⟩ := ht.kalloc p q htask
      exact hadvance (by rw [htask]; rfl) rfl (fun r hr => (Option.some.inj hr).symm) ⟨hembryo q rfl, by simp, rfl, hparent⟩
    | nocopy htask => exact hadvance (by rw [htask]; rfl) rfl (fun r hr => by cases hr) trivial
    | @copy q htask =>
      rw [htask] at hembryo
      obtain ⟨hk, hcont, -⟩ := ht.copyuvm p q htask
      exact hadvance (by rw [htask]; rfl) rfl (fun r hr => (Option.some.inj hr).symm) ⟨hembryo q rfl, hk, hcont, rfl⟩
    | @start q htask =>
      have hstart := hadvance (t := .none) (x := { s.procs q with state := .runnable }) (by rw [htask]; rfl) rfl
        (fun r hr => by cases hr) trivial
      exact hstart.congr rfl

omit [DecidableEq ι] in
theorem Slots.congr (h : Slots s) (hprocs : s'.procs = s.procs) : Slots s' := by
  obtain ⟨hused, hunused, hdistinct, hcont⟩ := h
  rw [← hprocs] at hused hunused hdistinct hcont
  exact ⟨hused, hunused, hdistinct, hcont⟩

omit [DecidableEq ι] in
/-- An edit of one slot. -/
theorem Slots.set (h : Slots s) {p : Fin NPROC} {x : Slot} (hused : x.InUse → x.kstack ≠ none)
    (hunused : x.state = .unused → x.kstack = none ∧ x.parent = none)
    (hfresh : ∀ k, x.kstack = some k → ∀ q, q ≠ p → (s.procs q).kstack ≠ some k) (hcont : x.Alive → x.cont ≠ .exit) :
    Slots (s.set p x) := by
  refine ⟨fun q => ?_, fun q => ?_, fun q r k => ?_, fun q => ?_⟩
  · rw [set_procs]
    split_ifs
    · exact hused
    · exact h.used q
  · rw [set_procs]
    split_ifs
    · exact hunused
    · exact h.unused q
  · rw [set_procs, set_procs]
    split_ifs with hq hr hr
    · exact fun _ _ => hq.trans hr.symm
    · exact fun hk hk' => absurd hk' (hfresh k hk r hr)
    · exact fun hk hk' => absurd hk (hfresh k hk' q hq)
    · exact h.distinct q r k
  · rw [set_procs]
    split_ifs
    · exact hcont
    · exact h.cont q

omit [DecidableEq ι] in
/-- The same page for the stack, or none. -/
theorem Slots.own (h : Slots s) {p : Fin NPROC} {x : Slot} (hx : x.kstack = (s.procs p).kstack ∨ x.kstack = none) (k : ℕ)
    (hk : x.kstack = some k) (q : Fin NPROC) (hq : q ≠ p) : (s.procs q).kstack ≠ some k := by
  rcases hx with hx | hx
  · exact fun hqk => hq (h.distinct q p k hqk (hx.symm.trans hk))
  · simp [hx] at hk

omit [DecidableEq ι] in
/-- The task of a process is not in it. -/
theorem Slots.task {p q : Fin NPROC} {x : Slot} (h : Slots (s.set q x)) (hne : p ≠ q) (t : Task) :
    Slots ((s.set q x).set p { s.procs p with task := t }) := by
  have hp : (s.set q x).procs p = s.procs p := by rw [set_procs, if_neg hne]
  have hused := h.used p
  have hunused := h.unused p
  have hcont := h.cont p
  have hown := h.own (p := p) (x := s.procs p) (.inl (by rw [hp]))
  rw [hp] at hused hunused hcont
  exact h.set hused hunused hown hcont

omit [DecidableEq ι] in
/-- What leaves the stacks. -/
theorem Slots.frame (h : Slots s) (hkstack : ∀ q, (s'.procs q).kstack = (s.procs q).kstack)
    (hcont : ∀ q, (s'.procs q).cont = (s.procs q).cont)
    (hunused : ∀ q, (s'.procs q).state = .unused → (s.procs q).state = .unused ∧ (s'.procs q).parent = (s.procs q).parent)
    (hstate : ∀ q, (s'.procs q).InUse → (s'.procs q).state = (s.procs q).state ∨ (s.procs q).Alive) : Slots s' := by
  refine ⟨fun q hq => ?_, fun q hq => ?_, fun q r k hq hr => ?_, fun q hq => ?_⟩
  · rw [hkstack]
    refine h.used q ((hstate q hq).elim (fun heq => ?_) .inl)
    unfold Slot.InUse Slot.Alive at hq ⊢
    rwa [heq] at hq
  · obtain ⟨hu, hparent⟩ := hunused q hq
    rw [hkstack, hparent]
    exact h.unused q hu
  · rw [hkstack] at hq hr
    exact h.distinct q r k hq hr
  · rw [hcont]
    refine h.cont q ((hstate q (.inl hq)).elim (fun heq => ?_) id)
    unfold Slot.Alive at hq ⊢
    rwa [heq] at hq

omit [DecidableEq ι] in
theorem Leaves.slot {p : Fin NPROC} {x : Slot} (h : Leaves s p x) : x.kstack = (s.procs p).kstack ∧ (x.Alive → x.cont ≠ .exit) := by
  cases h <;> simp [Slot.Alive]

theorem Slots.micro (h : Sound s) (hstep : Micro s s') : Slots s' := by
  have hs := h.slots
  cases hstep with
  | acquire | skip | rest | grab | release | switch => exact hs.congr rfl
  | @pick c n p hc hp =>
    have halive : (s.procs p).Alive := .inr (.inl hp)
    have hpick := hs.set (p := p) (x := { s.procs p with state := .running }) (fun _ => hs.used p (.inl halive)) (by simp)
      (hs.own (.inl rfl)) fun _ => hs.cont p halive
    exact hpick.congr rfl
  | @leave c p x hc hx =>
    have halive : (s.procs p).Alive := .inr (.inr (h.cpus.runs c p (.inr hc)))
    have hstate := hx.state
    have hleave := hs.set (p := p) (x := x) (fun _ => hx.slot.1 ▸ hs.used p (.inl halive)) (fun hu => by simp [hu] at hstate)
      (hs.own (.inl hx.slot.1)) hx.slot.2
    exact hleave.congr rfl
  | @clear c p hc =>
    have hrun := h.cpus.runs c p (.inr hc)
    exact hs.set (hs.used p) (fun hu => by simp [hrun] at hu) (hs.own (.inl rfl)) (hs.cont p)
  | wakeup chan =>
    have hstate := wakeup1_state chan s.procs
    have hsame := wakeup1_same chan s.procs
    refine hs.frame (fun q => (hsame q).1) (fun q => (hsame q).2) (fun q hq => ?_) (fun q hq => ?_)
    · rcases hstate q with heq | ⟨-, hrunnable⟩
      · exact ⟨heq.symm.trans hq, wakeup1_parent ..⟩
      · exact absurd (hrunnable.symm.trans hq) (by simp)
    · rcases hstate q with heq | ⟨hsleep, -⟩
      · exact .inl heq
      · exact .inr (.inl hsleep)
  | @kill q =>
    refine hs.set (fun hq => hs.used q ?_) (fun hq => ?_) (hs.own (.inl rfl)) fun hq => hs.cont q ?_
    · unfold Slot.InUse Slot.Alive at hq ⊢
      dsimp only at hq
      split_ifs at hq with hsleep
      · exact .inl (.inl hsleep)
      · exact hq
    · dsimp only at hq
      split_ifs at hq
      exact hs.unused q hq
    · unfold Slot.Alive at hq ⊢
      dsimp only at hq
      split_ifs at hq with hsleep
      · exact .inl hsleep
      · exact hq
  | adopt hc hp htask hinit =>
    refine hs.frame (fun q => adopt_kstack ..) (fun q => adopt_cont ..) (fun q hq => ?_) (fun q hq => .inl (adopt_state ..))
    have hq' : (s.procs q).state = .unused := (adopt_state ..).symm.trans hq
    have hparent : (s.procs q).parent = none := (hs.unused q hq').2
    exact ⟨hq', congrArg Slot.parent (adopt_parent_ne _ (by simp [hparent]))⟩
  | @reap c p q hc hq =>
    have hreap := hs.set (p := q) (x := { s.procs q with
      state := .unused, pid := 0, parent := none, killed := false, kstack := none }) (by simp [Slot.InUse, Slot.Alive])
      (fun _ => ⟨rfl, rfl⟩) (hs.own (.inr rfl)) (by simp [Slot.Alive])
    exact hreap.congr rfl
  | @fork c p q hc htask hq =>
    have hrun := h.cpus.runs c p (.inr hc)
    have hne : p ≠ q := fun heq => by simp [heq, hq] at hrun
    have hembryo := hs.set (p := q) (x := { s.procs q with state := .embryo, pid := s.nextpid }) (by simp [Slot.InUse, Slot.Alive])
      (by simp) (hs.own (.inl rfl)) (by simp [Slot.Alive])
    exact (hembryo.task hne (.kalloc q)).congr rfl
  | @forks s' c p hc hforks =>
    have hrun := h.cpus.runs c p (.inl hc)
    have hne : ∀ {q}, (s.procs p).task.child = some q → p ≠ q := fun hq heq => by
      have hembryo := h.tasks.embryo p _ hq
      simp [← heq, hrun] at hembryo
    cases hforks with
    | @nokalloc q htask =>
      obtain ⟨hk, hparent⟩ := h.tasks.kalloc p q htask
      have hunused := hs.set (p := q) (x := { s.procs q with state := .unused }) (by simp [Slot.InUse, Slot.Alive])
        (fun _ => ⟨hk, hparent⟩) (hs.own (.inl rfl)) (by simp [Slot.Alive])
      exact hunused.task (hne (by rw [htask]; rfl)) .none
    | @kalloc q k htask hfree =>
      have hembryo := h.tasks.embryo p q (by rw [htask]; rfl)
      have hstack := hs.set (p := q) (x := { s.procs q with kstack := some k, cont := .forkret }) (by simp) (by simp [hembryo])
        (fun k' hk' r _ => Option.some.inj hk' ▸ hfree r) (by simp)
      exact hstack.task (hne (by rw [htask]; rfl)) (.copyuvm q)
    | @nocopy q htask =>
      obtain ⟨-, -, hparent⟩ := h.tasks.copyuvm p q htask
      have hunused := hs.set (p := q) (x := { s.procs q with kstack := none, state := .unused })
        (by simp [Slot.InUse, Slot.Alive]) (fun _ => ⟨rfl, hparent⟩) (hs.own (.inr rfl)) (by simp [Slot.Alive])
      exact hunused.task (hne (by rw [htask]; rfl)) .none
    | @copy q htask =>
      have hembryo := h.tasks.embryo p q (by rw [htask]; rfl)
      have hparent := hs.set (p := q) (x := { s.procs q with parent := some p }) (hs.used q) (by simp [hembryo])
        (hs.own (.inl rfl)) (hs.cont q)
      exact hparent.task (hne (by rw [htask]; rfl)) (.start q)
    | @start q htask =>
      obtain ⟨hk, hcont, -⟩ := h.tasks.start p q htask
      have hstart := hs.set (p := q) (x := { s.procs q with state := .runnable }) (fun _ => hk) (by simp) (hs.own (.inl rfl))
        (by simp [hcont])
      exact (hstart.task (hne (by rw [htask]; rfl)) .none).congr rfl

theorem Sound.micro (h : Sound s) (hstep : Micro s s') : Sound s' :=
  ⟨h.cpus.micro h.tasks hstep, Tasks.micro h hstep, Slots.micro h hstep⟩

end Ptable
end Xv6
end OsLabs
