/-
# Parents and children

In every run of the table on any number of processors a process that sleeps in `wait` has a child and no zombie, and a zombie
has a parent that lives: `exit` wakes the parent and passes the children to `initproc`, awake if one of them is a zombie.

Key definitions: `Family`, `Inv`.
Key theorems: `stack_alone`, `wait_sleeps`.
-/
import OsLabs.Xv6.Slots

namespace OsLabs
namespace Xv6
namespace Ptable

open Function (update)
open Alarm (NPROC ProcState initproc)
open Run (Sat run)

variable {ι : Type} [DecidableEq ι] {s s' : State ι}

structure Family (s : State ι) : Prop where
  init : (s.procs initproc).Alive ∧ (s.procs initproc).parent = none
  self : ∀ p, (s.procs p).parent ≠ some p
  parent : ∀ q p, (s.procs q).parent = some p → (s.procs p).Alive
  orphan : ∀ q, (s.procs q).InUse → q ≠ initproc → (s.procs q).parent ≠ none
  waits : ∀ p, Waits s p → (∃ q, (s.procs q).parent = some p) ∧
    (∀ q, (s.procs q).parent = some p → (s.procs q).state ≠ .zombie) ∧ (s.procs p).killed = false

omit [DecidableEq ι] in
theorem Family.congr (h : Family s) (hprocs : s'.procs = s.procs) : Family s' := by
  obtain ⟨hinit, hself, hparent, horphan, hwaits⟩ := h
  unfold Waits at hwaits
  rw [← hprocs] at hinit hself hparent horphan hwaits
  exact ⟨hinit, hself, hparent, horphan, hwaits⟩

omit [DecidableEq ι] in
theorem waits_set {p : Fin NPROC} {x : Slot} {q : Fin NPROC} :
    Waits (s.set p x) q ↔ if q = p then x.state = .sleeping ∧ x.chan = some (.proc p) else Waits s q := by
  unfold Waits
  rw [set_procs]
  split_ifs with hq
  · rw [hq]
  · rfl

omit [DecidableEq ι] in
/-- An edit of one slot: what it asks of the process as a child, as a parent and as a sleeper. -/
theorem Family.set (h : Family s) {p : Fin NPROC} {x : Slot} (hinit : p = initproc → x.Alive ∧ x.parent = none)
    (hparent : ∀ q, x.parent = some q → q ≠ p ∧ (s.procs q).Alive) (halive : (∃ q, (s.procs q).parent = some p) → x.Alive)
    (horphan : x.InUse → p ≠ initproc → x.parent ≠ none)
    (hwaits : x.state = .sleeping → x.chan = some (.proc p) → (∃ q, (s.procs q).parent = some p) ∧
      (∀ q, (s.procs q).parent = some p → (s.procs q).state ≠ .zombie) ∧ x.killed = false)
    (hchild : ∀ q, Waits s q → ((s.procs p).parent = some q → x.parent = some q) ∧ (x.parent = some q → x.state ≠ .zombie)) :
    Family (s.set p x) := by
  have hp : x.parent ≠ some p := fun heq => (hparent p heq).1 rfl
  have hpar : ∀ q r, ((s.set p x).procs q).parent = some r → q ≠ p → (s.procs q).parent = some r := fun q r hq hne => by
    rwa [set_procs, if_neg hne] at hq
  refine ⟨?_, fun q => ?_, fun q r hq => ?_, fun q => ?_, fun q hq => ?_⟩
  · rw [set_procs]
    split_ifs with heq
    · exact hinit heq.symm
    · exact h.init
  · rw [set_procs]
    split_ifs with heq
    · exact heq ▸ hp
    · exact h.self q
  · by_cases hqp : q = p
    · rw [hqp, set_procs, if_pos rfl] at hq
      obtain ⟨hne, hr⟩ := hparent r hq
      rw [set_procs, if_neg hne]
      exact hr
    · have hqr := hpar q r hq hqp
      rw [set_procs]
      split_ifs with hrp
      · exact halive ⟨q, hrp ▸ hqr⟩
      · exact h.parent q r hqr
  · rw [set_procs]
    split_ifs with heq
    · exact heq ▸ horphan
    · exact h.orphan q
  · rw [waits_set] at hq
    split_ifs at hq with hqp
    · obtain ⟨⟨r, hr⟩, hzombie, hkilled⟩ := hwaits hq.1 hq.2
      have hrp : r ≠ p := fun heq => h.self p (heq ▸ hr)
      refine ⟨⟨r, ?_⟩, fun r' hr' => ?_, ?_⟩
      · rw [set_procs, if_neg hrp, hqp]
        exact hr
      · have hrp' : r' ≠ p := by
          rintro rfl
          rw [set_procs, if_pos rfl, hqp] at hr'
          exact hp hr'
        rw [set_procs, if_neg hrp']
        exact hzombie r' (hqp ▸ hpar r' q hr' hrp')
      · rw [set_procs, if_pos hqp]
        exact hkilled
    · obtain ⟨⟨r, hr⟩, hzombie, hkilled⟩ := h.waits q hq
      obtain ⟨hstay, hlive⟩ := hchild q hq
      refine ⟨⟨r, ?_⟩, fun r' hr' => ?_, ?_⟩
      · rw [set_procs]
        split_ifs with hrp
        · exact hstay (hrp ▸ hr)
        · exact hr
      · rw [set_procs] at hr' ⊢
        split_ifs at hr' ⊢ with hrp
        · exact hlive hr'
        · exact hzombie r' hr'
      · rw [set_procs, if_neg hqp]
        exact hkilled

omit [DecidableEq ι] in
/-- An edit of a process that stays what it is to others and does not sleep in `wait`. -/
theorem Family.keep (h : Family s) {p : Fin NPROC} {x : Slot} (hparent : x.parent = (s.procs p).parent)
    (hstate : x.state = (s.procs p).state ∨ (s.procs p).Alive ∧ x.Alive) (hwaits : x.state = .sleeping → x.chan = some (.proc p) →
      Waits s p ∧ x.killed = (s.procs p).killed) : Family (s.set p x) := by
  have halive : (s.procs p).Alive → x.Alive := fun ha => by
    rcases hstate with heq | ⟨-, hx⟩
    · unfold Slot.Alive at ha ⊢
      rwa [heq]
    · exact hx
  have hused : x.InUse → (s.procs p).InUse := fun hx => by
    rcases hstate with heq | ⟨ha, -⟩
    · unfold Slot.InUse Slot.Alive at hx ⊢
      rwa [heq] at hx
    · exact .inl ha
  refine h.set (fun hp => ?_) (fun q hq => ?_) (fun hkid => halive (hkid.elim fun q hq => h.parent q p hq)) (fun hx hp => ?_) (fun hs hc => ?_) fun q hq => ?_
  · rw [hparent]
    exact ⟨halive (hp ▸ h.init.1), hp ▸ h.init.2⟩
  · rw [hparent] at hq
    exact ⟨fun heq => h.self p (heq ▸ hq), h.parent p q hq⟩
  · rw [hparent]
    exact h.orphan p (hused hx) hp
  · obtain ⟨hw, hkilled⟩ := hwaits hs hc
    rw [hkilled]
    exact h.waits p hw
  · rw [hparent]
    refine ⟨id, fun hp hz => ?_⟩
    rcases hstate with heq | ⟨-, hx⟩
    · exact (h.waits q hq).2.1 p hp (heq ▸ hz)
    · simp [Slot.Alive, hz] at hx

omit [DecidableEq ι] in
/-- Only a process that lives has children. -/
theorem Family.childless (h : Family s) {p : Fin NPROC} (hp : ¬ (s.procs p).Alive) : ¬ ∃ q, (s.procs q).parent = some p := by
  rintro ⟨q, hq⟩
  exact hp (h.parent q p hq)

omit [DecidableEq ι] in
/-- An edit of an entry that is not used before or after. -/
theorem Family.idle (h : Family s) {p : Fin NPROC} {x : Slot} (hdead : ¬ (s.procs p).Alive) (hx : x.state = .unused ∨ x.state = .embryo)
    (hparent : x.parent = none) (hnone : (s.procs p).parent = none) : Family (s.set p x) := by
  refine h.set (fun heq => absurd h.init.1 (heq ▸ hdead)) (fun q hq => ?_) (fun hkid => absurd hkid (h.childless hdead))
    (fun hused => ?_) (fun hs => ?_) fun q _ => ⟨fun hq => ?_, fun hq => ?_⟩
  · simp [hparent] at hq
  · rcases hx with hx | hx <;> simp [Slot.InUse, Slot.Alive, hx] at hused
  · rcases hx with hx | hx <;> simp [hx] at hs
  · simp [hnone] at hq
  · simp [hparent] at hq

omit [DecidableEq ι] in
/-- The task of a process is not in it. -/
theorem Family.task {p q : Fin NPROC} {x : Slot} (h : Family (s.set q x)) (hne : p ≠ q) (t : Task) :
    Family ((s.set q x).set p { s.procs p with task := t }) := by
  have hp : (s.set q x).procs p = s.procs p := by rw [set_procs, if_neg hne]
  refine h.keep (by rw [hp]) (.inl (by rw [hp])) fun hs hc => ?_
  unfold Waits
  rw [hp]
  exact ⟨⟨hs, hc⟩, rfl⟩

omit [DecidableEq ι] in
theorem Family.leave (h : Family s) {p : Fin NPROC} {x : Slot} (hp : (s.procs p).Alive) (hx : Leaves s p x) : Family (s.set p x) := by
  cases hx with
  | yield => exact h.keep rfl (.inr ⟨hp, .inr (.inl rfl)⟩) fun hs => by simp at hs
  | sleep n => exact h.keep rfl (.inr ⟨hp, .inl rfl⟩) fun _ hc => by simp at hc
  | wait hkids hzombies hkilled =>
    refine h.set (fun heq => ⟨.inl rfl, heq ▸ h.init.2⟩) (fun q hq => ⟨fun heq => h.self p (heq ▸ hq), h.parent p q hq⟩)
      (fun _ => .inl rfl) (fun _ => h.orphan p (.inl hp)) (fun _ _ => ⟨hkids, hzombies, hkilled⟩) fun q _ => ⟨id, by simp⟩
  | exit hinit htask hkids hparent =>
    refine h.set (fun heq => absurd heq hinit) (fun q hq => ⟨fun heq => h.self p (heq ▸ hq), h.parent p q hq⟩)
      (fun hkid => hkid.elim fun q hq => absurd hq (hkids q)) (fun _ => h.orphan p (.inl hp)) (by simp) fun q hq => ⟨id, fun hpq => ?_⟩
    exact absurd hq (hparent q hpq)

theorem Family.micro (h : Sound s) (hf : Family s) (hstep : Micro s s') : Family s' := by
  cases hstep with
  | acquire | skip | rest | grab | release | switch => exact hf.congr rfl
  | @pick c n p hc hp =>
    have hpick := hf.keep (p := p) (x := { s.procs p with state := .running }) rfl (.inr ⟨.inr (.inl hp), .inr (.inr rfl)⟩) (by simp)
    exact hpick.congr rfl
  | @leave c p x hc hx => exact (hf.leave (.inr (.inr (h.cpus.runs c p (.inr hc)))) hx).congr rfl
  | clear hc => exact hf.keep rfl (.inl rfl) (by simp)
  | wakeup chan =>
    have halive := wakeup1_alive chan s.procs
    refine ⟨⟨(halive _).mpr hf.init.1, (wakeup1_parent ..).trans hf.init.2⟩, fun q hq => ?_, fun q r hq => ?_, fun q hq => ?_,
      fun q hq => ?_⟩
    · exact hf.self q ((wakeup1_parent ..).symm.trans hq)
    · exact (halive r).mpr (hf.parent q r ((wakeup1_parent ..).symm.trans hq))
    · intro hne hparent
      exact hf.orphan q (hq.imp (halive q).mp (wakeup1_zombie ..).mp) hne ((wakeup1_parent ..).symm.trans hparent)
    · obtain ⟨⟨r, hr⟩, hzombie, hkilled⟩ := hf.waits q hq.of_wakeup1
      refine ⟨⟨r, (wakeup1_parent ..).trans hr⟩, fun r' hr' hz => ?_, ?_⟩
      · exact hzombie r' ((wakeup1_parent ..).symm.trans hr') ((wakeup1_zombie ..).mp hz)
      · exact (wakeup1_killed ..).trans hkilled
  | @kill q =>
    by_cases hsleep : (s.procs q).state = .sleeping
    · refine hf.keep rfl (.inr ⟨.inl hsleep, .inr (.inl (if_pos hsleep))⟩) fun hs => ?_
      rw [if_pos hsleep] at hs
      cases hs
    · refine hf.keep rfl (.inl (if_neg hsleep)) fun hs => ?_
      rw [if_neg hsleep] at hs
      exact absurd hs hsleep
  | @adopt c p hc hp htask hinit =>
    have hrun := h.cpus.runs c p (.inr hc)
    have halive : ∀ {q}, (s.procs q).Alive → (adopt p s.procs q).Alive := fun {q} ha => by
      unfold Slot.Alive
      rwa [adopt_state]
    -- Whose child it is now.
    have hparent : ∀ {q r}, (adopt p s.procs q).parent = some r →
        (s.procs q).parent = some p ∧ r = initproc ∨ (s.procs q).parent = some r := fun {q r} hq => by
      unfold adopt at hq
      split_ifs at hq with hqp
      · exact .inl ⟨hqp, (Option.some.inj hq).symm⟩
      · exact .inr hq
    refine ⟨⟨halive hf.init.1, ?_⟩, fun q hq => ?_, fun q r hq => ?_, fun q hq hne hnone => ?_, fun q hq => ?_⟩
    · exact (congrArg Slot.parent (adopt_parent_ne _ (by simp [hf.init.2]))).trans hf.init.2
    · rcases hparent hq with ⟨hqp, rfl⟩ | hq'
      · simp [hf.init.2] at hqp
      · exact hf.self q hq'
    · rcases hparent hq with ⟨-, rfl⟩ | hq'
      · exact halive hf.init.1
      · exact halive (hf.parent q r hq')
    · have hq' : (s.procs q).InUse := by
        unfold Slot.InUse Slot.Alive at hq ⊢
        rwa [adopt_state] at hq
      by_cases hqp : (s.procs q).parent = some p
      · simp [adopt, hqp] at hnone
      · exact hf.orphan q hq' hne ((congrArg Slot.parent (adopt_parent_ne _ hqp)).symm.trans hnone)
    · have hw : Waits s q := ⟨(adopt_state ..).symm.trans hq.1, (adopt_chan ..).symm.trans hq.2⟩
      obtain ⟨⟨r, hr⟩, hzombie, hkilled⟩ := hf.waits q hw
      have hqp : q ≠ p := fun heq => by simp [Waits, heq, hrun] at hw
      refine ⟨⟨r, ?_⟩, fun r' hr' hz => ?_, ?_⟩
      · have hrp : (s.procs r).parent ≠ some p := fun heq => hqp (Option.some.inj (hr.symm.trans heq))
        exact (congrArg Slot.parent (adopt_parent_ne _ hrp)).trans hr
      · have hz' : (s.procs r').state = .zombie := (adopt_state ..).symm.trans hz
        rcases hparent hr' with ⟨hrp, rfl⟩ | hr''
        · exact hinit ⟨r', hrp, hz'⟩ hw
        · exact hzombie r' hr'' hz'
      · exact (adopt_killed ..).trans hkilled
  | @reap c p q hc hq =>
    have hrun := h.cpus.runs c p (.inr hc)
    have hdead : ¬ (s.procs q).Alive := by simp [Slot.Alive, hq.2]
    have hreap := hf.set (p := q) (x := { s.procs q with
        state := .unused, pid := 0, parent := none, killed := false, kstack := none })
      (fun heq => absurd hf.init.1 (heq ▸ hdead)) (by simp) (fun hkid => absurd hkid (hf.childless hdead))
      (by simp [Slot.InUse, Slot.Alive]) (by simp) fun r hr => ⟨fun hqr => ?_, by simp⟩
    · exact hreap.congr rfl
    · -- The parent runs.
      obtain rfl := Option.some.inj (hq.1.symm.trans hqr)
      simp [Waits, hrun] at hr
  | @fork c p q hc htask hq =>
    have hrun := h.cpus.runs c p (.inr hc)
    have hne : p ≠ q := fun heq => by simp [heq, hq] at hrun
    have hparent := (h.slots.unused q hq).2
    have hembryo := hf.idle (x := { s.procs q with state := .embryo, pid := s.nextpid }) (by simp [Slot.Alive, hq]) (.inr rfl)
      hparent hparent
    exact (hembryo.task hne (.kalloc q)).congr rfl
  | @forks s' c p hc hforks =>
    have hrun := h.cpus.runs c p (.inl hc)
    have hembryo := h.tasks.embryo p
    have hne : ∀ {q}, (s.procs p).task.child = some q → p ≠ q := fun hq heq => by
      have hembryo := h.tasks.embryo p _ hq
      simp [← heq, hrun] at hembryo
    have hdead : ∀ {q}, (s.procs p).task.child = some q → ¬ (s.procs q).Alive := fun hq => by simp [Slot.Alive, hembryo _ hq]
    cases hforks with
    | @nokalloc q htask =>
      have hq : (s.procs p).task.child = some q := by rw [htask]; rfl
      obtain ⟨-, hparent⟩ := h.tasks.kalloc p q htask
      have hunused := hf.idle (x := { s.procs q with state := .unused }) (hdead hq) (.inl rfl) hparent hparent
      exact hunused.task (hne hq) .none
    | @kalloc q k htask hfree =>
      have hq : (s.procs p).task.child = some q := by rw [htask]; rfl
      have hstack := hf.keep (p := q) (x := { s.procs q with kstack := some k, cont := .forkret }) rfl (.inl rfl)
        (by simp [hembryo q hq])
      exact hstack.task (hne hq) (.copyuvm q)
    | @nocopy q htask =>
      have hq : (s.procs p).task.child = some q := by rw [htask]; rfl
      obtain ⟨-, -, hparent⟩ := h.tasks.copyuvm p q htask
      have hunused := hf.idle (x := { s.procs q with kstack := none, state := .unused }) (hdead hq) (.inl rfl) hparent hparent
      exact hunused.task (hne hq) .none
    | @copy q htask =>
      have hq : (s.procs p).task.child = some q := by rw [htask]; rfl
      obtain ⟨-, -, hnone⟩ := h.tasks.copyuvm p q htask
      have hcopy := hf.set (p := q) (x := { s.procs q with parent := some p }) (fun heq => absurd hf.init.1 (heq ▸ hdead hq))
        (fun r hr => Option.some.inj hr ▸ ⟨hne hq, .inr (.inr hrun)⟩) (fun hkid => absurd hkid (hf.childless (hdead hq)))
        (fun _ _ => by simp) (by simp [hembryo q hq]) fun r _ => ⟨by simp [hnone], by simp [hembryo q hq]⟩
      exact hcopy.task (hne hq) (.start q)
    | @start q htask =>
      have hq : (s.procs p).task.child = some q := by rw [htask]; rfl
      obtain ⟨-, -, hparent⟩ := h.tasks.start p q htask
      have hstart := hf.set (p := q) (x := { s.procs q with state := .runnable }) (fun heq => absurd hf.init.1 (heq ▸ hdead hq))
        (fun r hr => ⟨fun heq => hf.self q (heq ▸ hr), hf.parent q r hr⟩) (fun _ => .inr (.inl rfl)) (by simp [hparent])
        (by simp) fun r _ => ⟨id, by simp⟩
      exact (hstart.task (hne hq) .none).congr rfl

/-! ### Runs -/

structure Inv (s : State ι) : Prop where
  sound : Sound s
  family : Family s

theorem Inv.micro (h : Inv s) (hstep : Micro s s') : Inv s' := ⟨h.sound.micro hstep, h.family.micro h.sound hstep⟩

omit [DecidableEq ι] in
theorem sound_boot (page : ℕ) : Sound (boot page : State ι) := by
  have hother : ∀ p, p ≠ initproc → ((boot page : State ι).procs p).state = .unused ∧ ((boot page : State ι).procs p).kstack = none :=
    fun p hp => ⟨if_neg hp, if_neg hp⟩
  have hused : ∀ p, ((boot page : State ι).procs p).state ≠ .unused → p = initproc := fun p hp =>
    of_not_not fun hne => hp (hother p hne).1
  refine ⟨⟨fun c => ?_, fun c d p hc => ?_, fun c p hc => ?_, fun c p hc => ?_, fun p hp => ?_⟩, ?_,
    ⟨fun p hp => ?_, fun p hp => ?_, fun p q k hp hq => ?_, fun p _ => ?_⟩⟩
  · simp [boot, Cpu.Holds]
  · simp [boot, Cpu.on] at hc
  · simp [boot, Cpu.Runs] at hc
  · simp [boot] at hc
  · obtain rfl := hused p (by simp [hp])
    simp [boot] at hp
  · constructor <;> simp [boot, Task.child]
  · obtain rfl := hused p fun hu => by simp [Slot.InUse, Slot.Alive, hu] at hp
    simp [boot]
  · refine ⟨(hother p ?_).2, rfl⟩
    rintro rfl
    simp [boot] at hp
  · have hpage : ∀ r, ((boot page : State ι).procs r).kstack = some k → r = initproc := fun r hr =>
      of_not_not fun hne => by simp [(hother r hne).2] at hr
    exact (hpage p hp).trans (hpage q hq).symm
  · simp [boot]

omit [DecidableEq ι] in
theorem family_boot (page : ℕ) : Family (boot page : State ι) := by
  refine ⟨⟨.inr (.inl rfl), rfl⟩, fun p => by simp [boot], fun q p hp => by simp [boot] at hp, fun q hq hne => ?_, fun p hp => ?_⟩
  · simp [boot, Slot.InUse, Slot.Alive, hne] at hq
  · simp [boot, Waits] at hp

omit [DecidableEq ι] in
theorem inv_boot (page : ℕ) : Inv (boot page : State ι) := ⟨sound_boot page, family_boot page⟩

omit [DecidableEq ι] in
theorem Inv.cont (h : Inv s) {c : ι} {p : Fin NPROC} (hc : s.cpu c = .enter p) : (s.procs p).cont ≠ .exit :=
  h.sound.slots.cont p (.inr (.inr (h.sound.cpus.runs c p (.inr hc))))

/-- Invariants of the parts hold in every run, and only `init` makes one panic: nobody comes back from `exit`. -/
theorem run_inv {I : State ι → Prop} (page : ℕ) (hboot : I (boot page)) (hstep : ∀ s s', Inv s → I s → Micro s s' → I s')
    (es : List (ι × Act)) : Sat (fun s => Inv s ∧ I s) (· = .initExiting) (run step (boot page) es) :=
  run_micro (I := fun s => Inv s ∧ I s) (fun _ _ h hmicro => ⟨h.1.micro hmicro, hstep _ _ h.1 h.2 hmicro⟩)
    (fun _ h _ _ => h.1.cont) (fun _ h => h.1.family.self) ⟨inv_boot page, hboot⟩ es

/-- **A stack is one processor's**, in every run: two processors are never on the same one, and none is on a stack that `wait` has
freed; a process is `RUNNING` if and only if a processor runs it. -/
theorem stack_alone (page : ℕ) (es : List (ι × Act)) :
    Sat (fun s => (∀ c d p, (s.cpu c).on = some p → (s.cpu d).on = some p → c = d) ∧
        (∀ c p, (s.cpu c).on = some p → (s.procs p).kstack ≠ none) ∧
        (∀ p q k, (s.procs p).kstack = some k → (s.procs q).kstack = some k → p = q) ∧
        ∀ p, (s.procs p).state = .running ↔ ∃ c, (s.cpu c).Runs p)
      (· = .initExiting) (run step (boot page) es) := by
  refine (run_inv page trivial (fun _ _ _ _ _ => trivial) es).mono (fun s ⟨h, _⟩ => ?_) fun _ => id
  have hc := h.sound.cpus
  refine ⟨hc.alone, fun c p hp => h.sound.slots.used p ?_, h.sound.slots.distinct,
    fun p => ⟨hc.running p, fun hrun => hrun.elim fun c hcp => hc.runs c p hcp⟩⟩
  cases hcpu : s.cpu c with
  | scheduler | scan n =>
    rw [hcpu] at hp
    cases hp
  | run q =>
    rw [hcpu] at hp
    obtain rfl := Option.some.inj hp
    exact .inl (.inr (.inr (hc.runs c q (.inl hcpu))))
  | enter q =>
    rw [hcpu] at hp
    obtain rfl := Option.some.inj hp
    exact .inl (.inr (.inr (hc.runs c q (.inr hcpu))))
  | leave q =>
    rw [hcpu] at hp
    obtain rfl := Option.some.inj hp
    rcases hc.left c q hcpu with hr | hs | hz
    · exact .inl (.inr (.inl hr))
    · exact .inl (.inl hs)
    · exact .inr hz

/-- **No zombie is forgotten**, in every run: who sleeps in `wait` has children, none of them a zombie, and is not killed; a zombie has a
parent that lives and does not sleep in `wait`. -/
theorem wait_sleeps (page : ℕ) (es : List (ι × Act)) :
    Sat (fun s => (∀ p, Waits s p → (∃ q, (s.procs q).parent = some p) ∧
          (∀ q, (s.procs q).parent = some p → (s.procs q).state ≠ .zombie) ∧ (s.procs p).killed = false) ∧
        ∀ q, (s.procs q).state = .zombie → ∃ p, (s.procs q).parent = some p ∧ (s.procs p).Alive ∧ ¬ Waits s p)
      (· = .initExiting) (run step (boot page) es) := by
  refine (run_inv page trivial (fun _ _ _ _ _ => trivial) es).mono (fun s ⟨h, _⟩ => ?_) fun _ => id
  have hf := h.family
  refine ⟨hf.waits, fun q hq => ?_⟩
  have hinit : q ≠ initproc := fun heq => by
    have halive := hf.init.1
    simp [Slot.Alive, ← heq, hq] at halive
  obtain ⟨p, hp⟩ := Option.ne_none_iff_exists'.mp (hf.orphan q (.inr hq) hinit)
  exact ⟨p, hp, hf.parent q p hp, fun hw => (hf.waits p hw).2.1 q hp hq⟩

end Ptable
end Xv6
end OsLabs
