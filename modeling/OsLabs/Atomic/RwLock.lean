/-
# The reader-writer lock

`rwlock.h`. A reader publishes itself in `atomic_readers_cnt` and then looks at
the writer's flag once more; a writer takes the flag and then waits until the
count is 0. Any number of threads call the four functions, each in an order that
makes sense; every atomic operation is a step, and the steps of the threads
interleave in any way.

`excludes`: a writer in its section is alone, and the count is the number of published
readers. `progress`: whatever the threads that wait have done so far, one of
them can go on into its section.

Key definitions: `PC`, `step`, `Inv`.
-/
import OsLabs.Atomic.SpinLock

namespace OsLabs
namespace Rw

open Atomic Run Threads

structure RwLock where
  writeM : SpinLock
  atomicReadersCnt : Word

/-- `RwLock_Init`. -/
def RwLock.init : RwLock := ⟨SpinLock.init, 0⟩

/-- The next operation of a thread. -/
inductive PC
  | idle
  -- `RwLock_ReadLock`
  | readLoad
  | readAdd
  | readCheck
  | readSub
  | reading
  -- `RwLock_ReadUnlock`
  | readUnlock
  -- `RwLock_WriteLock`
  | writeXchg
  | writeLoad
  | writing
  -- `RwLock_WriteUnlock`
  | writeUnlock
  deriving DecidableEq, Repr

variable {ι : Type}

structure State (ι : Type) where
  lock : RwLock
  pc : ι → PC

/-- A call by a thread, or its next operation. -/
inductive Event (ι : Type)
  | readLock (i : ι)
  | readUnlock (i : ι)
  | writeLock (i : ι)
  | writeUnlock (i : ι)
  | exec (i : ι)

section

variable [DecidableEq ι]

def State.goto (s : State ι) (i : ι) (pc : PC) : State ι := { s with pc := Function.update s.pc i pc }

def State.setCnt (s : State ι) (w : Word) : State ι := { s with lock := { s.lock with atomicReadersCnt := w } }

def State.setLock (s : State ι) (l : SpinLock) : State ι := { s with lock := { s.lock with writeM := l } }

/-- The next operation of thread `i`. -/
def exec (i : ι) (s : State ι) : State ι :=
  match s.pc i with
  | .idle | .reading | .writing => s
  | .readLoad => if atomicLoad s.lock.writeM.atomicLocked ≠ 0 then s else s.goto i .readAdd
  | .readAdd => (s.setCnt (atomicAdd s.lock.atomicReadersCnt 1)).goto i .readCheck
  | .readCheck => if atomicLoad s.lock.writeM.atomicLocked = 0 then s.goto i .reading else s.goto i .readSub
  | .readSub => (s.setCnt (atomicSub s.lock.atomicReadersCnt 1)).goto i .readLoad
  | .readUnlock => (s.setCnt (atomicSub s.lock.atomicReadersCnt 1)).goto i .idle
  | .writeXchg =>
    let (l, taken) := s.lock.writeM.lock
    if taken then (s.setLock l).goto i .writeLoad else s.setLock l
  | .writeLoad => if atomicLoad s.lock.atomicReadersCnt ≠ 0 then s else s.goto i .writing
  | .writeUnlock => (s.setLock s.lock.writeM.unlock).goto i .idle

/-- A call is an error where the thread cannot make it. -/
def step (s : State ι) : Event ι → Except Unit (State ι)
  | .readLock i => if s.pc i = .idle then .ok (s.goto i .readLoad) else .error ()
  | .readUnlock i => if s.pc i = .reading then .ok (s.goto i .readUnlock) else .error ()
  | .writeLock i => if s.pc i = .idle then .ok (s.goto i .writeXchg) else .error ()
  | .writeUnlock i => if s.pc i = .writing then .ok (s.goto i .writeUnlock) else .error ()
  | .exec i => .ok (exec i s)

end

def init : State ι := ⟨RwLock.init, fun _ => .idle⟩

/-! ### Where the threads are -/

/-- In the reader's section, up to the end of its `AtomicSub`. -/
def PC.Reading : PC → Prop
  | .reading | .readUnlock => True
  | _ => False

/-- In the writer's section, up to the end of its `AtomicXchg`. -/
def PC.Writing : PC → Prop
  | .writing | .writeUnlock => True
  | _ => False

/-- The writer's flag is this thread's. -/
def PC.Flagged : PC → Prop
  | .writeLoad | .writing | .writeUnlock => True
  | _ => False

/-- Between the `AtomicAdd` and the `AtomicSub` of a reader. -/
def PC.Published : PC → Prop
  | .readCheck | .readSub | .reading | .readUnlock => True
  | _ => False

instance : DecidablePred PC.Published := fun pc => by
  cases pc <;> unfold PC.Published <;> infer_instance

/-- 1 for a published reader. -/
def PC.cnt (pc : PC) : ℕ := if pc.Published then 1 else 0

theorem PC.cnt_le_one (pc : PC) : pc.cnt ≤ 1 := by
  unfold PC.cnt
  split_ifs <;> omega

/-- What every step preserves. -/
structure Inv [Fintype ι] (s : State ι) : Prop where
  flag : Mutex PC.Flagged s.pc s.lock.writeM.atomicLocked
  cnt : s.lock.atomicReadersCnt = BitVec.ofNat 64 (tally PC.cnt s.pc)
  excl : ∀ i, (s.pc i).Writing → ∀ j, ¬ (s.pc j).Reading

section

variable [Fintype ι] {s s' : State ι} {i : ι}

theorem init_inv : Inv (init : State ι) :=
  ⟨Or.inl ⟨rfl, fun _ => id⟩, by simp [init, RwLock.init, tally, PC.cnt, PC.Published], fun _ h => absurd h id⟩

theorem PC.Writing.flagged {p : PC} (h : p.Writing) : p.Flagged := by
  cases p <;> first | exact trivial | exact absurd h id

theorem PC.Reading.published {p : PC} (h : p.Reading) : p.Published := by
  cases p <;> first | exact trivial | exact absurd h id

theorem PC.Writing.not_reading {p : PC} (h : p.Writing) : ¬ p.Reading := by
  cases p <;> first | exact id | exact absurd h id

/-- Fewer threads than the count can hold. -/
theorem Inv.cnt_eq_zero (h : Inv s) (hι : Fintype.card ι < 2 ^ 63) :
    s.lock.atomicReadersCnt = 0 ↔ ∀ i, ¬ (s.pc i).Published := by
  have hlt : tally PC.cnt s.pc < 2 ^ 63 := lt_of_le_of_lt (tally_le_card PC.cnt_le_one s.pc) hι
  have hzero : s.lock.atomicReadersCnt = 0 ↔ tally PC.cnt s.pc = 0 := by
    rw [h.cnt, ← BitVec.toNat_inj, BitVec.toNat_ofNat, Nat.mod_eq_of_lt (by omega)]
    rfl
  rw [hzero, tally_eq_zero]
  exact forall_congr' fun i => by simp [PC.cnt]

variable [DecidableEq ι]

/-- A step of thread `i`. It may come into its section as a reader if nobody has the flag, and as a writer
if nobody is published. -/
theorem Inv.move (h : Inv s) {p : PC} (hpc : s'.pc = Function.update s.pc i p)
    (hflag : Mutex PC.Flagged s'.pc s'.lock.writeM.atomicLocked)
    (hcnt : s'.lock.atomicReadersCnt = BitVec.ofNat 64 (tally PC.cnt s'.pc))
    (hr : p.Reading → (s.pc i).Reading ∨ ∀ j, ¬ (s.pc j).Flagged)
    (hw : p.Writing → (s.pc i).Writing ∨ ∀ j, ¬ (s.pc j).Published) : Inv s' := by
  refine ⟨hflag, hcnt, fun a ha b hb => ?_⟩
  rw [hpc] at ha hb
  by_cases hai : a = i
  · rw [hai, Function.update_self] at ha
    by_cases hbi : b = i
    · rw [hbi, Function.update_self] at hb
      exact ha.not_reading hb
    · rw [Function.update_of_ne hbi] at hb
      rcases hw ha with h1 | h1
      · exact h.excl i h1 b hb
      · exact h1 b hb.published
  · rw [Function.update_of_ne hai] at ha
    by_cases hbi : b = i
    · rw [hbi, Function.update_self] at hb
      rcases hr hb with h1 | h1
      · exact h.excl a ha i h1
      · exact h1 a ha.flagged
    · rw [Function.update_of_ne hbi] at hb
      exact h.excl a ha b hb

/-- A step that leaves the lock alone. -/
theorem Inv.goes (h : Inv s) {p : PC} (hf : p.Flagged ↔ (s.pc i).Flagged) (hc : p.cnt = (s.pc i).cnt)
    (hr : p.Reading → (s.pc i).Reading ∨ ∀ j, ¬ (s.pc j).Flagged)
    (hw : p.Writing → (s.pc i).Writing ∨ ∀ j, ¬ (s.pc j).Published) : Inv (s.goto i p) := by
  refine h.move rfl (h.flag.keep hf) ?_ hr hw
  show s.lock.atomicReadersCnt = _
  rw [h.cnt]
  exact congrArg _ (tally_update_same hc).symm

/-- A published reader takes its 1 back. -/
theorem Inv.subs (h : Inv s) {p : PC} (hf : p.Flagged ↔ (s.pc i).Flagged) (hc : (s.pc i).cnt = 1) (hp : p.cnt = 0)
    (hr : ¬ p.Reading) (hw : ¬ p.Writing) :
    Inv ((s.setCnt (atomicSub s.lock.atomicReadersCnt 1)).goto i p) := by
  refine h.move rfl (h.flag.keep hf) ?_ (fun hn => absurd hn hr) fun hn => absurd hn hw
  have htally := tally_update PC.cnt s.pc i p
  show atomicSub s.lock.atomicReadersCnt 1 = BitVec.ofNat 64 (tally PC.cnt (Function.update s.pc i p))
  rw [h.cnt, show tally PC.cnt s.pc = tally PC.cnt (Function.update s.pc i p) + 1 by omega, atomicSub_ofNat]

theorem Inv.exec (h : Inv s) (hι : Fintype.card ι < 2 ^ 63) (i : ι) : Inv (exec i s) := by
  unfold Rw.exec
  cases hp : s.pc i with
  | idle => exact h
  | reading => exact h
  | writing => exact h
  | readLoad =>
    simp only
    split_ifs
    · exact h
    · exact h.goes (by rw [hp]; exact Iff.rfl) (by rw [hp]; rfl) (fun hn => absurd hn id) fun hn => absurd hn id
  | readAdd =>
    refine h.move rfl (h.flag.keep (by rw [hp]; exact Iff.rfl)) ?_ (fun hn => absurd hn id) fun hn => absurd hn id
    have htally := tally_update PC.cnt s.pc i .readCheck
    rw [hp, show PC.readAdd.cnt = 0 from rfl, show PC.readCheck.cnt = 1 from rfl, Nat.add_zero] at htally
    show atomicAdd s.lock.atomicReadersCnt 1 = BitVec.ofNat 64 (tally PC.cnt (Function.update s.pc i .readCheck))
    rw [h.cnt, atomicAdd_ofNat, htally]
  | readCheck =>
    simp only
    split_ifs with hl
    · exact h.goes (by rw [hp]; exact Iff.rfl) (by rw [hp]; rfl) (fun _ => Or.inr (h.flag.free hl)) fun hn => absurd hn id
    · exact h.goes (by rw [hp]; exact Iff.rfl) (by rw [hp]; rfl) (fun hn => absurd hn id) fun hn => absurd hn id
  | readSub | readUnlock => exact h.subs (by rw [hp]; exact Iff.rfl) (by rw [hp]; rfl) rfl id id
  | writeXchg =>
    by_cases hl : s.lock.writeM.atomicLocked = 0
    · simp only [SpinLock.lock_free hl, if_true]
      refine h.move (p := .writeLoad) rfl (h.flag.acquire hl trivial) ?_ (fun hn => absurd hn id) fun hn => absurd hn id
      show s.lock.atomicReadersCnt = _
      rw [h.cnt]
      exact congrArg _ (tally_update_same (by rw [hp]; rfl)).symm
    · simp only [SpinLock.lock_taken hl, Bool.false_eq_true, if_false]
      obtain ⟨j, hj⟩ := h.flag.holder hl
      refine ⟨?_, h.cnt, h.excl⟩
      show Mutex PC.Flagged s.pc (1 : Word)
      exact h.flag.flag_eq_one hj ▸ h.flag
  | writeLoad =>
    simp only
    split_ifs with hc
    · exact h
    · have hc : s.lock.atomicReadersCnt = 0 := not_not.mp hc
      exact h.goes (by rw [hp]; exact Iff.rfl) (by rw [hp]; rfl) (fun hn => absurd hn id)
        fun _ => Or.inr ((h.cnt_eq_zero hι).mp hc)
  | writeUnlock =>
    refine h.move rfl (h.flag.release (by rw [hp]; exact trivial) id) ?_ (fun hn => absurd hn id) fun hn => absurd hn id
    show s.lock.atomicReadersCnt = _
    rw [h.cnt]
    exact congrArg _ (tally_update_same (by rw [hp]; rfl)).symm

theorem Inv.step (h : Inv s) (hι : Fintype.card ι < 2 ^ 63) (e : Event ι) : Sat Inv (fun _ => True) (step s e) := by
  cases e with
  | readLock i | writeLock i =>
    simp only [Rw.step]
    split_ifs with hp
    · exact h.goes (by rw [hp]; exact Iff.rfl) (by rw [hp]; rfl) (fun hn => absurd hn id) fun hn => absurd hn id
    · exact trivial
  | readUnlock i =>
    simp only [Rw.step]
    split_ifs with hp
    · exact h.goes (by rw [hp]; exact Iff.rfl) (by rw [hp]; rfl) (fun _ => Or.inl (by rw [hp]; exact trivial))
        fun hn => absurd hn id
    · exact trivial
  | writeUnlock i =>
    simp only [Rw.step]
    split_ifs with hp
    · exact h.goes (by rw [hp]; exact Iff.rfl) (by rw [hp]; rfl) (fun hn => absurd hn id)
        fun _ => Or.inl (by rw [hp]; exact trivial)
    · exact trivial
  | exec i => exact h.exec hι i

/-- A writer in its section is alone in it, without readers, and the count is the number of readers between
their `AtomicAdd` and their `AtomicSub`. -/
structure Sound (s : State ι) : Prop where
  exclusive : ∀ i, (s.pc i).Writing → ∀ j, j ≠ i → ¬ (s.pc j).Writing ∧ ¬ (s.pc j).Reading
  count : s.lock.atomicReadersCnt.toInt = (Finset.univ.filter fun i => (s.pc i).Published).card

omit [DecidableEq ι] in
theorem Inv.sound (h : Inv s) (hι : Fintype.card ι < 2 ^ 63) : Sound s := by
  refine ⟨fun i hi j hj => ⟨fun hn => hj (h.flag.alone hn.flagged hi.flagged), h.excl i hi j⟩, ?_⟩
  have hlt : tally PC.cnt s.pc < 2 ^ 63 := lt_of_le_of_lt (tally_le_card PC.cnt_le_one s.pc) hι
  have hcard : (Finset.univ.filter fun i => (s.pc i).Published).card = tally PC.cnt s.pc := Finset.card_filter _ _
  rw [hcard, h.cnt, BitVec.toInt_eq_toNat_of_lt, BitVec.toNat_ofNat, Nat.mod_eq_of_lt (by omega)]
  rw [BitVec.toNat_ofNat, Nat.mod_eq_of_lt (by omega)]
  omega

/-- **Exclusion.** Whatever the threads do and however their operations interleave, every state they reach
is sound. -/
theorem excludes (hι : Fintype.card ι < 2 ^ 63) (es : List (Event ι)) :
    Sat Sound (fun _ => True) (run step (init : State ι) es) :=
  (run_sat (P := fun _ _ => True) (fun _ e h _ => Inv.step h hι e) es init_inv (along_true es _)).mono
    (fun _ h => h.sound hι) fun _ _ => trivial

/-! ### Progress -/

/-- In a critical section. -/
def PC.Inside : PC → Prop
  | .reading | .writing => True
  | _ => False

/-- In `ReadLock` or `WriteLock`. -/
def PC.Waiting : PC → Prop
  | .readLoad | .readAdd | .readCheck | .readSub | .writeXchg | .writeLoad => True
  | _ => False

/-- How many operations a thread has to do before it is in nobody's way. -/
def PC.debt : PC → ℕ
  | .readCheck => 2
  | .readSub | .readUnlock | .writeUnlock => 1
  | _ => 0

/-- Some continuation lets a thread that waits in `s` into its section. -/
def Leads (s : State ι) : Prop :=
  ∃ fs s' i, run step s fs = .ok s' ∧ (s.pc i).Waiting ∧ (s'.pc i).Inside

omit [Fintype ι] in
/-- An operation that does not change who waits. -/
theorem Leads.exec {p : PC} (hpc : (Rw.exec i s).pc = Function.update s.pc i p) (hw : p.Waiting → (s.pc i).Waiting)
    (h : Leads (Rw.exec i s)) : Leads s := by
  obtain ⟨fs, s', j, hrun, hj, hin⟩ := h
  refine ⟨.exec i :: fs, s', j, hrun, ?_, hin⟩
  rw [hpc] at hj
  by_cases hji : j = i
  · rw [hji, Function.update_self] at hj
    exact hji ▸ hw hj
  · rwa [Function.update_of_ne hji] at hj

omit [Fintype ι] in
/-- With the flag clear, a thread in `ReadLock` goes on into its section. -/
theorem leads_of_reader (hl : s.lock.writeM.atomicLocked = 0)
    (hp : s.pc i = .readLoad ∨ s.pc i = .readAdd ∨ s.pc i = .readCheck) : Leads s := by
  have hcheck : ∀ s : State ι, s.lock.writeM.atomicLocked = 0 → s.pc i = .readCheck → Leads s := fun s hl hp => by
    refine ⟨[.exec i], Rw.exec i s, i, rfl, by rw [hp]; exact trivial, ?_⟩
    simp [Rw.exec, hp, atomicLoad, hl, State.goto, PC.Inside]
  have hadd : ∀ s : State ι, s.lock.writeM.atomicLocked = 0 → s.pc i = .readAdd → Leads s := fun s hl hp => by
    have hpc : (Rw.exec i s).pc = Function.update s.pc i .readCheck := by simp [Rw.exec, hp, State.goto, State.setCnt]
    refine Leads.exec hpc (fun _ => by rw [hp]; exact trivial) (hcheck _ ?_ (by rw [hpc, Function.update_self]))
    simpa [Rw.exec, hp, State.goto, State.setCnt] using hl
  rcases hp with hp | hp | hp
  · have hpc : (Rw.exec i s).pc = Function.update s.pc i .readAdd := by simp [Rw.exec, hp, State.goto, atomicLoad, hl]
    refine Leads.exec hpc (fun _ => by rw [hp]; exact trivial) (hadd _ ?_ (by rw [hpc, Function.update_self]))
    simp [Rw.exec, hp, State.goto, atomicLoad, hl]
  · exact hadd s hl hp
  · exact hcheck s hl hp

omit [Fintype ι] in
/-- With the count at 0, so does a writer that has the flag. -/
theorem leads_of_writer (hc : s.lock.atomicReadersCnt = 0) (hp : s.pc i = .writeLoad) : Leads s := by
  refine ⟨[.exec i], Rw.exec i s, i, rfl, by rw [hp]; exact trivial, ?_⟩
  simp [Rw.exec, hp, atomicLoad, hc, State.goto, PC.Inside]

/-- From a state where nobody is in a section and some thread waits, one gets in: first the threads with a debt pay
it, then a writer that has the flag finds the count 0, or a reader finds the flag clear. -/
theorem Inv.leads (hι : Fintype.card ι < 2 ^ 63) : ∀ (n : ℕ) (s : State ι), tally PC.debt s.pc = n → Inv s →
    (∀ i, ¬ (s.pc i).Inside) → (∃ i, (s.pc i).Waiting) → Leads s := by
  intro n
  induction n using Nat.strong_induction_on with
  | _ n ih =>
    rintro s rfl h hin ⟨k, hk⟩
    have hpay : ∀ i p, (Rw.exec i s).pc = Function.update s.pc i p → p.debt < (s.pc i).debt → ¬ p.Inside →
        (p.Waiting ↔ (s.pc i).Waiting) → Leads s := fun i p hpc hd hpin hpw => by
      have htally := tally_update PC.debt s.pc i p
      refine Leads.exec hpc hpw.mp (ih (tally PC.debt (Rw.exec i s).pc) ?_ _ rfl (h.exec hι i) (fun j => ?_) ⟨k, ?_⟩)
      · rw [hpc]
        omega
      · rw [hpc]
        by_cases hji : j = i
        · rwa [hji, Function.update_self]
        · rw [Function.update_of_ne hji]
          exact hin j
      · rw [hpc]
        by_cases hki : k = i
        · rw [hki, Function.update_self]
          exact hpw.mpr (hki ▸ hk)
        · rwa [Function.update_of_ne hki]
    by_cases hA : ∃ i, s.pc i = .writeUnlock
    · obtain ⟨i, hp⟩ := hA
      exact hpay i .idle (by simp [Rw.exec, hp, State.goto, State.setLock]) (by rw [hp]; decide) id (by rw [hp]; exact Iff.rfl)
    by_cases hB : ∃ i, s.pc i = .readUnlock
    · obtain ⟨i, hp⟩ := hB
      exact hpay i .idle (by simp [Rw.exec, hp, State.goto, State.setCnt]) (by rw [hp]; decide) id (by rw [hp]; exact Iff.rfl)
    by_cases hC : ∃ i, s.pc i = .readSub
    · obtain ⟨i, hp⟩ := hC
      exact hpay i .readLoad (by simp [Rw.exec, hp, State.goto, State.setCnt]) (by rw [hp]; decide) id (by rw [hp]; exact Iff.rfl)
    rw [not_exists] at hA hB hC
    have hcnt : (∀ j, s.pc j ≠ .readCheck) → s.lock.atomicReadersCnt = 0 := fun hD => by
      refine (h.cnt_eq_zero hι).mpr fun j hj => ?_
      cases hp : s.pc j with
      | readCheck => exact hD j hp
      | readSub => exact hC j hp
      | readUnlock => exact hB j hp
      | reading => exact hin j (by rw [hp]; exact trivial)
      | _ =>
        rw [hp] at hj
        exact absurd hj id
    by_cases hl : s.lock.writeM.atomicLocked = 0
    · by_cases hD : ∃ i, s.pc i = .readLoad ∨ s.pc i = .readAdd ∨ s.pc i = .readCheck
      · obtain ⟨i, hp⟩ := hD
        exact leads_of_reader hl hp
      · -- only writers wait, and nobody is published
        rw [not_exists] at hD
        have hc := hcnt fun j hj => hD j (Or.inr (Or.inr hj))
        cases hp : s.pc k with
        | readLoad => exact absurd (Or.inl hp) (hD k)
        | readAdd => exact absurd (Or.inr (Or.inl hp)) (hD k)
        | readCheck => exact absurd (Or.inr (Or.inr hp)) (hD k)
        | readSub => exact absurd hp (hC k)
        | writeLoad => exact leads_of_writer hc hp
        | writeXchg =>
          have hpc : (Rw.exec k s).pc = Function.update s.pc k .writeLoad := by
            simp only [Rw.exec, hp, SpinLock.lock_free hl, if_true]
            rfl
          refine Leads.exec hpc (fun _ => by rw [hp]; exact trivial) (leads_of_writer ?_ (by rw [hpc, Function.update_self]))
          simp only [Rw.exec, hp, SpinLock.lock_free hl, if_true]
          exact hc
        | _ =>
          rw [hp] at hk
          exact absurd hk id
    · obtain ⟨i, hi⟩ := h.flag.holder hl
      have hp : s.pc i = .writeLoad := by
        cases hp : s.pc i with
        | writeLoad => rfl
        | writing => exact absurd (by rw [hp]; exact trivial) (hin i)
        | writeUnlock => exact absurd hp (hA i)
        | _ =>
          rw [hp] at hi
          exact absurd hi id
      by_cases hD : ∃ j, s.pc j = .readCheck
      · obtain ⟨j, hj⟩ := hD
        have hexec : Rw.exec j s = s.goto j .readSub := by
          simp only [Rw.exec, hj]
          exact if_neg hl
        exact hpay j .readSub (by rw [hexec]; rfl) (by rw [hj]; decide) id (by rw [hj]; exact Iff.rfl)
      · exact leads_of_writer (hcnt fun j hj => hD ⟨j, hj⟩) hp

/-- **Progress.** From every state the threads reach in which none is in its section and one is in `ReadLock` or
`WriteLock`, they can go on so that one that waits there gets in. -/
theorem progress (hι : Fintype.card ι < 2 ^ 63) (es : List (Event ι)) (hs : run step (init : State ι) es = .ok s)
    (hin : ∀ i, ¬ (s.pc i).Inside) (hwait : ∃ i, (s.pc i).Waiting) : Leads s := by
  have hrun := run_sat (P := fun _ _ => True) (fun _ e h _ => Inv.step h hι e) es init_inv (along_true es _)
  rw [hs] at hrun
  exact Inv.leads hι _ s rfl hrun hin hwait

end

/-- A reader and a writer: the reader is published when the writer takes the flag. -/
def crossing : List (Event (Fin 2)) := [.readLock 0, .exec 0, .exec 0, .writeLock 1, .exec 1]

theorem excludes_crossing : Sat Sound (fun _ => True) (run step (init : State (Fin 2)) crossing) :=
  excludes (by decide) crossing

/-- The writer waits for the count, and the reader will find the flag set. -/
theorem progress_crossing : ∃ s, run step (init : State (Fin 2)) crossing = .ok s ∧ Leads s :=
  ⟨_, rfl, progress (by decide) crossing rfl (fun i => by fin_cases i <;> exact id) ⟨0, trivial⟩⟩

end Rw
end OsLabs
