/-
# Pids

In every run of the table each process that was made runnable has a pid of its own, and it is in the table or was returned by `wait`, once. `kill`
with the pid of a process in use reaches that process and no other, whatever the entries that are not in use hold. All this is so until
`nextpid`, which has 32 bits, has wrapped.

The table of `OsLabs/Alarm/Table.lean` has the same processes without processors and lock: what a `fork` or a `wait` makes of one it makes of the
other (`Agree.fork`, `Agree.wait`).

Key definitions: `Ledger`, `Agree`.
Key theorem: `born_reaped`.
-/
import OsLabs.Xv6.Family

namespace OsLabs
namespace Xv6
namespace Ptable

open Function (update)
open Alarm (NPROC ProcState initproc)
open Run (Sat run)

variable {ι : Type} [DecidableEq ι] {s s' : State ι}

structure Ledger (s : State ι) : Prop where
  born : s.born.Nodup
  reaped : s.reaped.Nodup
  past : ∀ pid ∈ s.reaped, pid.toNat ≤ s.allocs
  live : ∀ pid, pid ∈ s.born ↔ pid ∈ s.reaped ∨ ∃ p, (s.procs p).InUse ∧ (s.procs p).pid = pid
  once : ∀ p, (s.procs p).state ≠ .unused → (s.procs p).pid ≠ 0 ∧ (s.procs p).pid ∉ s.reaped
  given : ∀ p, (s.procs p).pid.toNat ≤ s.allocs
  next : s.nextpid = BitVec.ofNat 32 (s.allocs + 1)
  -- Also of an entry that a failed `fork` left.
  distinct : ∀ p q, (s.procs p).pid = (s.procs q).pid → (s.procs p).pid ≠ 0 → p = q

omit [DecidableEq ι] in
/-- What leaves the histories and the pids. -/
theorem Ledger.frame (h : Ledger s) (hborn : s'.born = s.born) (hreaped : s'.reaped = s.reaped) (hnext : s'.nextpid = s.nextpid)
    (hallocs : s'.allocs = s.allocs) (hpid : ∀ p, (s'.procs p).pid = (s.procs p).pid) (hused : ∀ p, (s'.procs p).InUse ↔ (s.procs p).InUse)
    (hunused : ∀ p, (s.procs p).state = .unused → (s'.procs p).state = .unused) : Ledger s' := by
  refine ⟨hborn ▸ h.born, hreaped ▸ h.reaped, ?_, fun pid => ?_, fun p hp => ?_, fun p => ?_, ?_, fun p q => ?_⟩
  · rw [hreaped, hallocs]
    exact h.past
  · simp only [hborn, hreaped, hused, hpid]
    exact h.live pid
  · rw [hpid, hreaped]
    exact h.once p fun hu => hp (hunused p hu)
  · rw [hpid, hallocs]
    exact h.given p
  · rw [hnext, hallocs]
    exact h.next
  · rw [hpid, hpid]
    exact h.distinct p q

omit [DecidableEq ι] in
/-- An edit of one slot that keeps its pid and stays in use, or out of it. -/
theorem Ledger.set (h : Ledger s) {p : Fin NPROC} {x : Slot} (hpid : x.pid = (s.procs p).pid) (hused : x.InUse ↔ (s.procs p).InUse)
    (hunused : (s.procs p).state = .unused → x.state = .unused) : Ledger (s.set p x) := by
  refine h.frame rfl rfl rfl rfl (fun q => ?_) (fun q => ?_) fun q => ?_
  · rw [set_procs]
    split_ifs with hq
    · rw [hpid, hq]
    · rfl
  · rw [set_procs]
    split_ifs with hq
    · rw [hused, hq]
    · rfl
  · rw [set_procs]
    split_ifs with hq
    · rw [hq]
      exact hunused
    · exact id

omit [DecidableEq ι] in
theorem Ledger.task (h : Ledger s') {p : Fin NPROC} (hp : s'.procs p = s.procs p) (t : Task) :
    Ledger (s'.set p { s.procs p with task := t }) := by
  refine h.set (by rw [hp]) ?_ fun hu => ?_
  · rw [hp]
    rfl
  · rwa [hp] at hu

omit [DecidableEq ι] in
theorem Leaves.pid {p : Fin NPROC} {x : Slot} (h : Leaves s p x) : x.pid = (s.procs p).pid ∧ x.InUse := by
  cases h <;> simp [Slot.InUse, Slot.Alive]

omit [DecidableEq ι] in
/-- `wait` returns a pid. -/
theorem Ledger.reap (h : Ledger s) {q : Fin NPROC} {x : Slot} (hq : (s.procs q).InUse) (hx : x.state = .unused) (hpid : x.pid = 0) :
    Ledger { s.set q x with reaped := s.reaped ++ [(s.procs q).pid] } := by
  have hne : (s.procs q).state ≠ .unused := fun hu => by simp [Slot.InUse, Slot.Alive, hu] at hq
  obtain ⟨hpos, hold⟩ := h.once q hne
  have hgone : ¬ x.InUse := by simp [Slot.InUse, Slot.Alive, hx]
  have hused : ∀ p, ((s.set q x).procs p).InUse ↔ p ≠ q ∧ (s.procs p).InUse := fun p => by
    rw [set_procs]
    split_ifs with hp
    · simp [hgone, hp]
    · simp [hp]
  refine ⟨h.born, ?_, fun pid hmem => ?_, fun pid => ?_, fun p hp => ?_, fun p => ?_, h.next, fun p r => ?_⟩
  · exact List.Nodup.concat hold h.reaped |> (by rwa [List.concat_eq_append] at ·)
  · rcases List.mem_append.mp hmem with hmem | hmem
    · exact h.past pid hmem
    · rw [List.mem_singleton.mp hmem]
      exact h.given q
  · refine (h.live pid).trans ?_
    rw [List.mem_append, List.mem_singleton]
    constructor
    · rintro (hmem | ⟨p, hp, rfl⟩)
      · exact .inl (.inl hmem)
      · by_cases hpq : p = q
        · exact .inl (.inr (by rw [hpq]))
        · exact .inr ⟨p, (hused p).mpr ⟨hpq, hp⟩, by rw [set_procs, if_neg hpq]⟩
    · rintro ((hmem | rfl) | ⟨p, hp, rfl⟩)
      · exact .inl hmem
      · exact .inr ⟨q, hq, rfl⟩
      · obtain ⟨hpq, hp⟩ := (hused p).mp hp
        exact .inr ⟨p, hp, by rw [set_procs, if_neg hpq]⟩
  · have hpq : p ≠ q := by
      rintro rfl
      exact hp (by rw [set_procs, if_pos rfl, hx])
    rw [set_procs, if_neg hpq] at hp ⊢
    obtain ⟨hp0, hmem⟩ := h.once p hp
    refine ⟨hp0, fun hmem' => ?_⟩
    rcases List.mem_append.mp hmem' with hmem' | hmem'
    · exact hmem hmem'
    · exact hpq (h.distinct p q (List.mem_singleton.mp hmem') hp0)
  · rw [set_procs]
    split_ifs
    · rw [hpid]
      exact Nat.zero_le _
    · exact h.given p
  · rw [set_procs, set_procs]
    split_ifs with hp hr hr
    · exact fun _ _ => hp.trans hr.symm
    · exact fun _ h0 => absurd hpid h0
    · exact fun heq h0 => absurd (heq.trans hpid) h0
    · exact h.distinct p r

omit [DecidableEq ι] in
/-- `allocproc` takes the next pid, which has not been given. -/
theorem Ledger.fork (h : Ledger s) {q : Fin NPROC} {x : Slot} (hq : (s.procs q).state = .unused) (hx : x.state = .embryo)
    (hpid : x.pid = s.nextpid) (hwrap : s.allocs + 1 < 2 ^ 32) :
    Ledger { s.set q x with nextpid := s.nextpid + 1, allocs := s.allocs + 1 } := by
  have hnew : x.pid.toNat = s.allocs + 1 := by rw [hpid, h.next, BitVec.toNat_ofNat, Nat.mod_eq_of_lt hwrap]
  have hfresh : ∀ p, (s.procs p).pid ≠ x.pid := fun p heq => by
    have hle := h.given p
    rw [heq, hnew] at hle
    omega
  have hused : ∀ p, ((s.set q x).procs p).InUse ↔ p ≠ q ∧ (s.procs p).InUse := fun p => by
    rw [set_procs]
    split_ifs with hp
    · simp [hp, Slot.InUse, Slot.Alive, hx]
    · simp [hp]
  have hold : ∀ p, (s.procs p).InUse → p ≠ q := by
    rintro p hp rfl
    simp [Slot.InUse, Slot.Alive, hq] at hp
  refine ⟨h.born, h.reaped, fun pid hmem => ?_, fun pid => ?_, fun p hp => ?_, fun p => ?_, ?_, fun p r => ?_⟩
  · exact (h.past pid hmem).trans (Nat.le_succ _)
  · refine (h.live pid).trans (or_congr_right (exists_congr fun p => ?_))
    constructor
    · rintro ⟨hp, rfl⟩
      exact ⟨(hused p).mpr ⟨hold p hp, hp⟩, by rw [set_procs, if_neg (hold p hp)]⟩
    · rintro ⟨hp, rfl⟩
      obtain ⟨hpq, hp⟩ := (hused p).mp hp
      exact ⟨hp, by rw [set_procs, if_neg hpq]⟩
  · rw [set_procs] at hp ⊢
    split_ifs at hp ⊢
    · refine ⟨fun h0 => ?_, fun hmem => ?_⟩
      · rw [h0] at hnew
        exact absurd hnew (Nat.succ_ne_zero _).symm
      · have hle := h.past _ hmem
        omega
    · exact h.once p hp
  · rw [set_procs]
    split_ifs
    · exact hnew.le
    · exact (h.given p).trans (Nat.le_succ _)
  · dsimp only
    rw [h.next]
    exact (BitVec.ofNat_add (s.allocs + 1) 1).symm
  · rw [set_procs, set_procs]
    split_ifs with hp hr hr
    · exact fun _ _ => hp.trans hr.symm
    · exact fun heq _ => absurd heq.symm (hfresh r)
    · exact fun heq _ => absurd heq (hfresh p)
    · exact h.distinct p r

omit [DecidableEq ι] in
/-- A child starts. -/
theorem Ledger.start (h : Ledger s) {q : Fin NPROC} {x : Slot} (hq : (s.procs q).state = .embryo) (hx : x.InUse)
    (hpid : x.pid = (s.procs q).pid) : Ledger { s.set q x with born := s.born ++ [(s.procs q).pid] } := by
  have hidle : ¬ (s.procs q).InUse := by simp [Slot.InUse, Slot.Alive, hq]
  obtain ⟨hpos, hold⟩ := h.once q (by simp [hq])
  have hnew : (s.procs q).pid ∉ s.born := fun hmem => by
    rcases (h.live _).mp hmem with hmem | ⟨p, hp, heq⟩
    · exact hold hmem
    · exact hidle (h.distinct p q heq (heq ▸ hpos) ▸ hp)
  have hpids : ∀ p, ((s.set q x).procs p).pid = (s.procs p).pid := fun p => by
    rw [set_procs]
    split_ifs with hp
    · rw [hpid, hp]
    · rfl
  have hused : ∀ p, ((s.set q x).procs p).InUse ↔ p = q ∨ (s.procs p).InUse := fun p => by
    rw [set_procs]
    split_ifs with hp
    · simp [hp, hx]
    · simp [hp]
  refine ⟨?_, h.reaped, h.past, fun pid => ?_, fun p hp => ?_, fun p => ?_, h.next, fun p r => ?_⟩
  · exact List.Nodup.concat hnew h.born |> (by rwa [List.concat_eq_append] at ·)
  · rw [List.mem_append, List.mem_singleton, h.live]
    constructor
    · rintro ((hmem | ⟨p, hp, rfl⟩) | rfl)
      · exact .inl hmem
      · exact .inr ⟨p, (hused p).mpr (.inr hp), hpids p⟩
      · exact .inr ⟨q, (hused q).mpr (.inl rfl), hpids q⟩
    · rintro (hmem | ⟨p, hp, rfl⟩)
      · exact .inl (.inl hmem)
      · rcases (hused p).mp hp with rfl | hp
        · exact .inr (hpids p)
        · exact .inl (.inr ⟨p, hp, (hpids p).symm⟩)
  · dsimp only
    rw [hpids]
    refine h.once p fun hu => hp ?_
    have hpq : p ≠ q := by
      rintro rfl
      simp [hq] at hu
    rw [set_procs, if_neg hpq, hu]
  · dsimp only
    rw [hpids]
    exact h.given p
  · dsimp only
    rw [hpids, hpids]
    exact h.distinct p r

theorem Ledger.micro (h : Inv s) (hl : Ledger s) (hwrap : s'.allocs < 2 ^ 32) (hstep : Micro s s') : Ledger s' := by
  have hruns := h.sound.cpus.runs
  have hembryo := h.sound.tasks.embryo
  cases hstep with
  | acquire | skip | rest | grab | release | switch => exact hl.frame rfl rfl rfl rfl (fun _ => rfl) (fun _ => Iff.rfl) fun _ => id
  | @pick c n p hc hp =>
    have hpick := hl.set (p := p) (x := { s.procs p with state := .running }) rfl (by simp [Slot.InUse, Slot.Alive, hp]) (by simp [hp])
    exact hpick.frame rfl rfl rfl rfl (fun _ => rfl) (fun _ => Iff.rfl) fun _ => id
  | @leave c p x hc hx =>
    have hrun := hruns c p (.inr hc)
    have hleave := hl.set (p := p) hx.pid.1 (iff_of_true hx.pid.2 (.inl (.inr (.inr hrun)))) (by simp [hrun])
    exact hleave.frame rfl rfl rfl rfl (fun _ => rfl) (fun _ => Iff.rfl) fun _ => id
  | clear hc => exact hl.set rfl Iff.rfl id
  | wakeup chan =>
    refine hl.frame rfl rfl rfl rfl (fun p => wakeup1_pid ..) (fun p => ?_) fun p hp => ?_
    · exact or_congr (wakeup1_alive ..) (wakeup1_zombie ..)
    · rcases wakeup1_state chan s.procs p with heq | ⟨hsleep, -⟩
      · exact heq.trans hp
      · simp [hp] at hsleep
  | @kill q =>
    refine hl.set rfl ?_ fun hq => ?_
    · by_cases hsleep : (s.procs q).state = .sleeping <;> simp [Slot.InUse, Slot.Alive, hsleep]
    · simp [hq]
  | @adopt c p hc hp htask hinit =>
    refine hl.frame rfl rfl rfl rfl (fun p => adopt_pid ..) (fun q => ?_) fun q hq => (adopt_state ..).trans hq
    show (adopt p s.procs q).InUse ↔ _
    unfold Slot.InUse Slot.Alive
    rw [adopt_state]
  | @reap c p q hc hq => exact hl.reap (.inr hq.2) rfl rfl
  | @fork c p q hc htask hq =>
    have hne : p ≠ q := fun heq => by simp [← heq, hruns c p (.inr hc)] at hq
    have hfork := hl.fork (x := { s.procs q with state := .embryo, pid := s.nextpid }) hq rfl rfl hwrap
    exact hfork.task (by rw [set_procs, if_neg hne]) (.kalloc q)
  | @forks s' c p hc hforks =>
    have hrun := hruns c p (.inl hc)
    have hself : ∀ {q x}, (s.procs p).task.child = some q → (s.set q x).procs p = s.procs p := fun hq => by
      rw [set_procs, if_neg]
      rintro rfl
      have hq' := hembryo p _ hq
      simp [hrun] at hq'
    cases hforks with
    | @nokalloc q htask =>
      have hq : (s.procs p).task.child = some q := by rw [htask]; rfl
      have hunused := hl.set (p := q) (x := { s.procs q with state := .unused }) rfl
        (by simp [Slot.InUse, Slot.Alive, hembryo p q hq]) fun _ => rfl
      exact hunused.task (hself hq) .none
    | @kalloc q k htask hfree =>
      have hstack := hl.set (p := q) (x := { s.procs q with kstack := some k, cont := .forkret }) rfl Iff.rfl id
      exact hstack.task (hself (by rw [htask]; rfl)) (.copyuvm q)
    | @nocopy q htask =>
      have hq : (s.procs p).task.child = some q := by rw [htask]; rfl
      have hunused := hl.set (p := q) (x := { s.procs q with kstack := none, state := .unused }) rfl
        (by simp [Slot.InUse, Slot.Alive, hembryo p q hq]) fun _ => rfl
      exact hunused.task (hself hq) .none
    | @copy q htask =>
      have hcopy := hl.set (p := q) (x := { s.procs q with parent := some p }) rfl Iff.rfl id
      exact hcopy.task (hself (by rw [htask]; rfl)) (.start q)
    | @start q htask =>
      have hq : (s.procs p).task.child = some q := by rw [htask]; rfl
      have hstart := hl.start (x := { s.procs q with state := .runnable }) (hembryo p q hq) (.inl (.inr (.inl rfl))) rfl
      exact hstart.task (hself hq) .none

theorem Micro.allocs_le (h : Micro s s') : s.allocs ≤ s'.allocs := by
  cases h with
  | fork => exact Nat.le_succ _
  | forks hc hforks => cases hforks <;> exact le_rfl
  | _ => exact le_rfl

omit [DecidableEq ι] in
theorem ledger_boot (page : ℕ) : Ledger (boot page : State ι) := by
  have hother : ∀ p, p ≠ initproc → ((boot page : State ι).procs p).state = .unused ∧ ((boot page : State ι).procs p).pid = 0 :=
    fun p hp => ⟨if_neg hp, if_neg hp⟩
  have hpid : ((boot page : State ι).procs initproc).pid = 1 := rfl
  refine ⟨List.nodup_singleton 1, List.nodup_nil, by simp [boot], fun pid => ?_, fun p hp => ?_, fun p => ?_, rfl, fun p q => ?_⟩
  · constructor
    · intro hmem
      rw [List.mem_singleton.mp hmem]
      exact .inr ⟨initproc, .inl (.inr (.inl rfl)), hpid⟩
    · rintro (hmem | ⟨p, hp, rfl⟩)
      · simp [boot] at hmem
      · have heq : p = initproc := of_not_not fun hne => by simp [Slot.InUse, Slot.Alive, (hother p hne).1] at hp
        rw [heq, hpid]
        exact List.mem_singleton_self 1
  · obtain rfl : p = initproc := of_not_not fun hne => hp (hother p hne).1
    rw [hpid]
    exact ⟨by decide, List.not_mem_nil⟩
  · by_cases hp : p = initproc
    · rw [hp, hpid]
      exact le_rfl
    · rw [(hother p hp).2]
      exact Nat.zero_le _
  · intro heq hne
    have hpid' : ∀ r, ((boot page : State ι).procs r).pid ≠ 0 → r = initproc := fun r hr => of_not_not fun hne => hr (hother r hne).2
    rw [hpid' p hne, hpid' q (heq ▸ hne)]

/-- **Every process is born once and reaped once**, in every run, as long as `allocproc` has given fewer than 2^32 pids: the processes that were
made runnable have different pids, and they are those that `wait` has returned, once, and those in use. `kill` with the pid of one in use
reaches it. -/
theorem born_reaped (page : ℕ) (es : List (ι × Act)) :
    Sat (fun s => s.allocs < 2 ^ 32 → s.born.Nodup ∧ s.reaped.Nodup ∧
        (∀ pid, pid ∈ s.born ↔ pid ∈ s.reaped ∨ ∃ p, (s.procs p).InUse ∧ (s.procs p).pid = pid) ∧
        ∀ p, (s.procs p).InUse → (s.procs p).pid ∉ s.reaped ∧
          kill s (s.procs p).pid = s.set p { s.procs p with
            killed := true, state := if (s.procs p).state = .sleeping then .runnable else (s.procs p).state })
      (· = .initExiting) (run step (boot page) es) := by
  refine (run_inv page (I := fun s => s.allocs < 2 ^ 32 → Ledger s) (fun _ => ledger_boot page)
    (fun _ _ h hl hmicro hwrap => (hl (hmicro.allocs_le.trans_lt hwrap)).micro h hwrap hmicro) es).mono (fun s ⟨_, h⟩ hwrap => ?_) fun _ => id
  have h := h hwrap
  refine ⟨h.born, h.reaped, h.live, fun p hp => ?_⟩
  have hne : (s.procs p).state ≠ .unused := fun hu => by simp [Slot.InUse, Slot.Alive, hu] at hp
  obtain ⟨hpos, hold⟩ := h.once p hne
  refine ⟨hold, ?_⟩
  have hfirst : (first fun q => (s.procs q).pid = (s.procs p).pid) = some p := by
    cases hf : first fun q => (s.procs q).pid = (s.procs p).pid with
    | none => simpa using first_none hf p
    | some q =>
      have hq : (s.procs q).pid = (s.procs p).pid := of_decide_eq_true (first_some hf)
      rw [h.distinct q p hq (hq ▸ hpos)]
  unfold kill
  rw [hfirst]

/-! ### The table of the alarm -/

/-- `Alarm.Table`, which leaves out the processors and the lock, has the same processes. -/
structure Agree (s : State ι) (t : Alarm.Table) : Prop where
  next : s.nextpid = t.nextpid
  entry : ∀ p, (s.procs p).state = (t.procs p).state ∧ (s.procs p).pid = (t.procs p).pid ∧ (s.procs p).parent = (t.procs p).parent

section agree

variable {t : Alarm.Table} {p q : Fin NPROC} {x : Slot} {y : Alarm.Slot}

omit [DecidableEq ι] in
theorem Agree.set (h : Agree s t) (hxy : x.state = y.state ∧ x.pid = y.pid ∧ x.parent = y.parent) : Agree (s.set q x) (t.set q y) := by
  refine ⟨h.next, fun p => ?_⟩
  rw [set_procs]
  unfold Alarm.Table.set
  dsimp only
  split_ifs
  · exact hxy
  · exact h.entry p

/-- In the midst of a `fork` of `p` that has the entry `q`. -/
def State.forking (s : State ι) (p q : Fin NPROC) (x : Slot) (k : Task) (born : List Word) : State ι :=
  { (s.set q x).set p { s.procs p with task := k } with nextpid := s.nextpid + 1, allocs := s.allocs + 1, born := born }

section forking

variable {k k' : Task} {born : List Word} {x' : Slot}

omit [DecidableEq ι] in
theorem forking_child (hne : p ≠ q) : (s.forking p q x k born).procs q = x := by
  unfold State.forking
  rw [set_procs, if_neg hne.symm, set_procs, if_pos rfl]

omit [DecidableEq ι] in
theorem forking_task : ((s.forking p q x k born).procs p).task = k := by
  unfold State.forking
  rw [set_procs, if_pos rfl]

omit [DecidableEq ι] in
theorem forking_set (hne : p ≠ q) :
    ((s.forking p q x k born).set q x').set p { (s.forking p q x k born).procs p with task := k' } = s.forking p q x' k' born := by
  have hself : (s.forking p q x k born).procs p = { s.procs p with task := k } := Function.update_self ..
  rw [hself]
  unfold State.forking State.set
  dsimp only
  rw [Function.update_comm hne.symm, Function.update_idem, Function.update_comm hne, Function.update_idem]

omit [DecidableEq ι] in
theorem forks_forking (hne : p ≠ q) (born : List Word) (page : Option ℕ) :
    forks (s.forking p q x (.kalloc q) born) p none = s.forking p q { x with state := .unused } .none born ∧
      forks (s.forking p q x (.copyuvm q) born) p none = s.forking p q { x with kstack := none, state := .unused } .none born ∧
      forks (s.forking p q x .none born) p page = s.forking p q x .none born := by
  unfold forks
  simp only [forking_task, forking_child hne, forking_set hne, and_self]

omit [DecidableEq ι] in
theorem forks_copy (hne : p ≠ q) (hlock : s.lock = none) {n : ℕ} :
    forks (s.forking p q x (.copyuvm q) born) p (some n) = s.forking p q { x with parent := some p } (.start q) born ∧
      forks (s.forking p q x (.start q) born) p none = s.forking p q { x with state := .runnable } .none (born ++ [x.pid]) := by
  unfold forks
  simp only [forking_task, forking_child hne, forking_set hne, true_and]
  rw [if_pos (show (s.forking p q x (.start q) born).lock = none from hlock)]
  rfl

omit [DecidableEq ι] in
theorem forks_kalloc (hne : p ≠ q) {n : ℕ} (hn : ∀ r, (s.procs r).kstack ≠ some n) (hx : x.kstack ≠ some n) :
    forks (s.forking p q x (.kalloc q) born) p (some n) =
      s.forking p q { x with kstack := some n, cont := .forkret } (.copyuvm q) born := by
  have hfree : (Ptable.first fun r => ((s.forking p q x (.kalloc q) born).procs r).kstack = some n) = none := by
    refine List.find?_eq_none.mpr fun r _ => ?_
    rw [decide_eq_true_iff, State.forking, set_procs, set_procs]
    split_ifs with hrp hrq
    · exact hn p
    · exact hx
    · exact hn r
  unfold forks
  simp only [forking_task, forking_child hne, hfree, if_true, forking_set hne]

end forking

omit [DecidableEq ι] in
theorem Agree.forking (h : Agree s t) (hne : p ≠ q) (hxy : x.state = y.state ∧ x.pid = y.pid ∧ x.parent = y.parent) {k : Task}
    {born : List Word} : Agree (s.forking p q x k born) (Alarm.Table.set { t with nextpid := t.nextpid + 1 } q y) := by
  refine ⟨congrArg (· + 1) h.next, fun r => ?_⟩
  unfold State.forking Alarm.Table.set
  dsimp only
  rw [set_procs, set_procs]
  by_cases hr : r = p
  · rw [if_pos hr, if_neg (hr ▸ hne), hr]
    exact h.entry p
  · rw [if_neg hr]
    split_ifs
    · exact hxy
    · exact h.entry r

omit [DecidableEq ι] in
theorem Agree.ret (h : Agree s t) (v : Word) : Agree s (t.ret p v) := by
  refine ⟨h.next, fun q => ?_⟩
  unfold Alarm.Table.ret Alarm.Table.set
  dsimp only
  split_ifs with hq
  · rw [hq]
    exact h.entry p
  · exact h.entry q

omit [DecidableEq ι] in
theorem Agree.first (h : Agree s t) :
    (first fun q => (s.procs q).state = .unused) = (List.finRange NPROC).find? fun q => (t.procs q).state = .unused := by
  have hsame : (fun q => decide ((s.procs q).state = .unused)) = fun q => decide ((t.procs q).state = .unused) :=
    funext fun q => by rw [(h.entry q).1]
  unfold Ptable.first
  rw [hsame]

omit [DecidableEq ι] in
/-- `fork` from `allocproc` to the end, when nothing comes in between, makes the same of both tables. -/
theorem Agree.fork (h : Agree s t) (hlock : s.lock = none) (hp : (s.procs p).state = .running) (htask : (s.procs p).task = .none)
    {k : ℕ} (hk : ∀ r, (s.procs r).kstack ≠ some k) (kstack copy : Bool) :
    Agree (forks (forks (forks (fork s p) p (if kstack then some k else none)) p (if copy then some k else none)) p none)
      (Alarm.fork p kstack copy t) := by
  have hstay : ∀ page, forks s p page = s := fun page => by
    unfold forks
    rw [htask]
  unfold Alarm.fork Alarm.allocproc Ptable.fork
  rw [← h.first]
  cases hq : Ptable.first fun q => (s.procs q).state = .unused with
  | none =>
    dsimp only
    rw [hstay, hstay, hstay]
    exact h.ret _
  | some q =>
    have hne : p ≠ q := fun heq => by
      have hunused := of_decide_eq_true (first_some hq)
      rw [← heq, hp] at hunused
      cases hunused
    have hself : ∀ y : Alarm.Slot, (Alarm.Table.set { t with nextpid := t.nextpid + 1 } q y).procs q = y := fun y => if_pos rfl
    show Agree (forks (forks (forks (s.forking p q { s.procs q with state := .embryo, pid := s.nextpid } (.kalloc q) s.born) p _) p _) p none) _
    have hpid : ({ s.procs q with state := .embryo, pid := s.nextpid } : Slot).pid = t.nextpid := h.next
    have hparent : ({ s.procs q with state := .embryo, pid := s.nextpid } : Slot).parent = (t.procs q).parent := (h.entry q).2.2
    have hstack : ({ s.procs q with state := .embryo, pid := s.nextpid } : Slot).kstack ≠ some k := hk q
    generalize ({ s.procs q with state := .embryo, pid := s.nextpid } : Slot) = x at hpid hparent hstack
    have hnone := fun x born page => (forks_forking (s := s) (x := x) hne born page).2.2
    cases kstack with
    | false =>
      rw [if_neg Bool.false_ne_true, (forks_forking hne _ none).1, hnone, hnone]
      refine Agree.ret (Agree.forking h hne ?_) _
      exact ⟨rfl, hpid, hparent⟩
    | true =>
      rw [if_pos rfl, forks_kalloc hne hk hstack]
      dsimp only
      cases copy with
      | false =>
        rw [if_neg Bool.false_ne_true, (forks_forking hne _ none).2.1, hnone]
        simp only [if_true, Bool.false_eq_true, if_false, hself, Alarm.set_set]
        refine Agree.ret (Agree.forking h hne ?_) _
        exact ⟨rfl, hpid, hparent⟩
      | true =>
        rw [if_pos rfl, (forks_copy hne hlock).1, (forks_copy (n := k) hne hlock).2]
        simp only [if_true, hself, Alarm.set_set]
        refine Agree.ret (Agree.forking h hne ?_) _
        exact ⟨rfl, hpid, rfl⟩

/-- `wait` returns the same pid and frees the same entry. -/
theorem Agree.wait {c : ι} (h : Agree s t)
    (hq : (Ptable.first fun q => (s.procs q).parent = some p ∧ (s.procs q).state = .zombie) = some q) :
    Agree (wait s c p) (Alarm.wait p q t) := by
  have hfound := of_decide_eq_true (first_some hq)
  rw [(h.entry q).2.2, (h.entry q).1] at hfound
  unfold Ptable.wait Alarm.wait
  rw [hq, if_pos hfound]
  refine Agree.ret ?_ _
  have hset := h.set (q := q) (x := { s.procs q with state := .unused, pid := 0, parent := none, killed := false, kstack := none })
    (y := { t.procs q with state := .unused, pid := 0, parent := none }) ⟨rfl, rfl, rfl⟩
  exact ⟨hset.next, hset.entry⟩

end agree

end Ptable
end Xv6
end OsLabs
