/-
# The sequence lock

`seqlock.h`. A writer takes the spin lock and counts `atomic_seq` up when it
begins and when it ends; a reader takes nothing, reads the counter before and after the
words of the payload, and accepts them if both values are equal and even.

The words of the payload are `κ`, their values `V`. The history needs two fields that no step
of the code reads: `completed` counts the write sections that have ended, and a reader's `PC`
keeps that count from its `ReadLock` (`since`) and the words it has read (`seen`).

The instant of the common values is the one at which `ReadUnlock` reads the counter: if no
section has begun in between, it has not changed since `ReadLock`, and 2^63 whole
sections are needed to bring it round (`snapshots`).

Key definitions: `step`, `Consistent`, `Parity`, `Inv`.
-/
import OsLabs.Atomic.SpinLock

namespace OsLabs
namespace Sq

open Atomic Run Threads

structure SeqLock where
  lock : SpinLock
  atomicSeq : Word

/-- `SeqLock_Init`. -/
def SeqLock.init : SeqLock := ⟨SpinLock.init, 0⟩

/-- The value of `SeqLock_ReadUnlock`. -/
def SeqLock.readUnlock (sl : SeqLock) (start : Word) : Bool :=
  let last := atomicLoad sl.atomicSeq
  last = start && start &&& 1 = 0

theorem SeqLock.readUnlock_eq_true {sl : SeqLock} {start : Word} :
    sl.readUnlock start = true ↔ sl.atomicSeq = start ∧ start.toNat % 2 = 0 := by
  have hone : (1 : Word).toNat = 2 ^ 1 - 1 := rfl
  have hbit : start &&& 1 = 0 ↔ start.toNat % 2 = 0 := by
    rw [← BitVec.toNat_inj, BitVec.toNat_and, hone, Nat.and_two_pow_sub_one_eq_mod]
    rfl
  rw [← hbit, SeqLock.readUnlock, Bool.and_eq_true, decide_eq_true_iff, decide_eq_true_iff]
  rfl

/-- The next operation of a thread. -/
inductive PC (κ V : Type)
  | idle
  -- `SeqLock_WriteLock`
  | writeXchg
  | writeAdd
  | writing
  -- `SeqLock_WriteUnlock`
  | unlockAdd
  | unlockXchg
  -- `SeqLock_ReadLock`
  | readLoad
  | reading (start : Word) (since : ℕ) (seen : List (κ × V))
  -- `SeqLock_ReadUnlock`
  | readCheck (start : Word) (since : ℕ) (seen : List (κ × V))

variable {ι κ V : Type}

structure State (ι κ V : Type) where
  sl : SeqLock
  payload : κ → V
  pc : ι → PC κ V
  completed : ℕ

/-- A call by a thread, a word that it reads or writes, or its next operation. -/
inductive Event (ι κ V : Type)
  | writeLock (i : ι)
  | write (i : ι) (k : κ) (v : V)
  | writeUnlock (i : ι)
  | readLock (i : ι)
  | read (i : ι) (k : κ)
  | readUnlock (i : ι)
  | exec (i : ι)

def init (payload : κ → V) : State ι κ V := ⟨SeqLock.init, payload, fun _ => .idle, 0⟩

section

variable [DecidableEq ι] [DecidableEq κ]

def State.goto (s : State ι κ V) (i : ι) (pc : PC κ V) : State ι κ V := { s with pc := Function.update s.pc i pc }

def State.setLock (s : State ι κ V) (l : SpinLock) : State ι κ V := { s with sl := { s.sl with lock := l } }

def State.count (s : State ι κ V) : State ι κ V :=
  { s with sl := { s.sl with atomicSeq := atomicAdd s.sl.atomicSeq 1 } }

/-- The next operation of thread `i`. -/
def exec (i : ι) (s : State ι κ V) : State ι κ V :=
  match s.pc i with
  | .idle | .writing | .reading _ _ _ => s
  | .writeXchg =>
    let (l, taken) := s.sl.lock.lock
    if taken then (s.setLock l).goto i .writeAdd else s.setLock l
  | .writeAdd => s.count.goto i .writing
  | .unlockAdd => { s.count.goto i .unlockXchg with completed := s.completed + 1 }
  | .unlockXchg => (s.setLock s.sl.lock.unlock).goto i .idle
  | .readLoad => s.goto i (.reading (atomicLoad s.sl.atomicSeq) s.completed [])
  | .readCheck _ _ _ => s.goto i .idle

/-- A call, a read or a write is an error where the thread cannot make it. -/
def step (s : State ι κ V) : Event ι κ V → Except Unit (State ι κ V)
  | .writeLock i =>
    match s.pc i with
    | .idle => .ok (s.goto i .writeXchg)
    | _ => .error ()
  | .write i k v =>
    match s.pc i with
    | .writing => .ok { s with payload := Function.update s.payload k v }
    | _ => .error ()
  | .writeUnlock i =>
    match s.pc i with
    | .writing => .ok (s.goto i .unlockAdd)
    | _ => .error ()
  | .readLock i =>
    match s.pc i with
    | .idle => .ok (s.goto i .readLoad)
    | _ => .error ()
  | .read i k =>
    match s.pc i with
    | .reading start since seen => .ok (s.goto i (.reading start since (seen ++ [(k, s.payload k)])))
    | _ => .error ()
  | .readUnlock i =>
    match s.pc i with
    | .reading start since seen => .ok (s.goto i (.readCheck start since seen))
    | _ => .error ()
  | .exec i => .ok (exec i s)

end

/-! ### What a reader may rely on -/

/-- Between the two counter increments of a writer. -/
def PC.Between : PC κ V → Prop
  | .writing | .unlockAdd => True
  | _ => False

/-- The spin lock is this thread's. -/
def PC.Holding : PC κ V → Prop
  | .writeAdd | .writing | .unlockAdd | .unlockXchg => True
  | _ => False

/-- No writer is between its increments. -/
def Quiet (s : State ι κ V) : Prop := ∀ i, ¬ (s.pc i).Between

/-- When a `ReadUnlock` that is about to read the counter will return true, fewer than 2^63 write sections after
its `ReadLock`, then no writer is between its increments at this instant and every word that was read has the value it
has now. -/
def Consistent (s : State ι κ V) : Event ι κ V → Prop
  | .exec i => ∀ start since seen, s.pc i = .readCheck start since seen → s.sl.readUnlock start = true →
      s.completed - since < 2 ^ 63 → Quiet s ∧ ∀ p ∈ seen, s.payload p.1 = p.2
  | _ => True

/-- The counter is odd while some writer is between its increments, and only then. -/
def Parity (s : State ι κ V) : Prop := s.sl.atomicSeq.toNat % 2 = 1 ↔ ∃ i, (s.pc i).Between

/-- What a reader knows: its start value is that of `since` sections, and one more if a writer was between its
increments; as long as no further section has begun, the words it has read are still there. -/
def Reads (s : State ι κ V) (start : Word) (since : ℕ) (seen : List (κ × V)) : Prop :=
  since ≤ s.completed ∧ (start = BitVec.ofNat 64 (2 * since + 1) ∨
    start = BitVec.ofNat 64 (2 * since) ∧ (s.completed = since → Quiet s → ∀ p ∈ seen, s.payload p.1 = p.2))

/-- What every step preserves. -/
structure Inv (s : State ι κ V) : Prop where
  flag : Mutex PC.Holding s.pc s.sl.lock.atomicLocked
  quiet : Quiet s → s.sl.atomicSeq = BitVec.ofNat 64 (2 * s.completed)
  between : ∀ i, (s.pc i).Between → s.sl.atomicSeq = BitVec.ofNat 64 (2 * s.completed + 1)
  reading : ∀ i start since seen, s.pc i = .reading start since seen → Reads s start since seen
  checking : ∀ i start since seen, s.pc i = .readCheck start since seen → Reads s start since seen

theorem init_inv (payload : κ → V) : Inv (init payload : State ι κ V) :=
  ⟨Or.inl ⟨rfl, fun _ => id⟩, fun _ => rfl, fun _ h => absurd h id, fun _ _ _ _ h => absurd h nofun,
    fun _ _ _ _ h => absurd h nofun⟩

theorem PC.Between.holding {p : PC κ V} (h : p.Between) : p.Holding := by
  cases p <;> first | exact trivial | exact absurd h id

section

variable {s s' : State ι κ V} {i : ι} {p : PC κ V} {start : Word} {since : ℕ} {seen : List (κ × V)}

/-- A step after which no section has begun leaves the payload. -/
theorem Reads.mono (h : Reads s start since seen) (hc : s.completed ≤ s'.completed)
    (hkeep : s'.completed = s.completed → Quiet s' → Quiet s ∧ s'.payload = s.payload) : Reads s' start since seen := by
  obtain ⟨hle, h⟩ := h
  refine ⟨hle.trans hc, h.imp_right fun ⟨heven, hseen⟩ => ⟨heven, fun hs' hq => ?_⟩⟩
  have hs : s.completed = since := by omega
  obtain ⟨hq, hpay⟩ := hkeep (hs'.trans hs.symm) hq
  rw [hpay]
  exact hseen hs hq

/-- A reader that begins has read nothing. -/
theorem Inv.starts (h : Inv s) : Reads s s.sl.atomicSeq s.completed [] := by
  refine ⟨le_rfl, ?_⟩
  by_cases hq : Quiet s
  · exact Or.inr ⟨h.quiet hq, fun _ _ => nofun⟩
  · obtain ⟨i, hi⟩ := not_forall_not.mp hq
    exact Or.inl (h.between i hi)

theorem Reads.read (h : Reads s start since seen) (k : κ) : Reads s start since (seen ++ [(k, s.payload k)]) := by
  refine ⟨h.1, h.2.imp_right fun ⟨heven, hseen⟩ => ⟨heven, fun hs hq p hp => ?_⟩⟩
  rcases List.mem_append.mp hp with hp | hp
  · exact hseen hs hq p hp
  · rw [List.mem_singleton.mp hp]

variable [DecidableEq ι]

theorem between_update (hb : p.Between ↔ (s.pc i).Between) (j : ι) :
    (Function.update s.pc i p j).Between ↔ (s.pc j).Between := by
  by_cases hj : j = i
  · rw [hj, Function.update_self, hb]
  · rw [Function.update_of_ne hj]

/-- A step of thread `i`, which gives what the thread itself relies on if it goes on reading. -/
theorem Inv.move (h : Inv s) (hpc : s'.pc = Function.update s.pc i p)
    (hflag : Mutex PC.Holding s'.pc s'.sl.lock.atomicLocked)
    (hquiet : Quiet s' → s'.sl.atomicSeq = BitVec.ofNat 64 (2 * s'.completed))
    (hbetween : ∀ j, (s'.pc j).Between → s'.sl.atomicSeq = BitVec.ofNat 64 (2 * s'.completed + 1))
    (hc : s.completed ≤ s'.completed)
    (hkeep : s'.completed = s.completed → Quiet s' → Quiet s ∧ s'.payload = s.payload)
    (hreads : ∀ start since seen, p = .reading start since seen ∨ p = .readCheck start since seen →
      Reads s' start since seen) : Inv s' := by
  refine ⟨hflag, hquiet, hbetween, fun j start since seen hj => ?_, fun j start since seen hj => ?_⟩
  · rw [hpc] at hj
    by_cases hji : j = i
    · rw [hji, Function.update_self] at hj
      exact hreads start since seen (Or.inl hj)
    · rw [Function.update_of_ne hji] at hj
      exact (h.reading j start since seen hj).mono hc hkeep
  · rw [hpc] at hj
    by_cases hji : j = i
    · rw [hji, Function.update_self] at hj
      exact hreads start since seen (Or.inr hj)
    · rw [Function.update_of_ne hji] at hj
      exact (h.checking j start since seen hj).mono hc hkeep

/-- A step that leaves the counter and the payload alone. -/
theorem Inv.stays (h : Inv s) (hpc : s'.pc = Function.update s.pc i p)
    (hflag : Mutex PC.Holding s'.pc s'.sl.lock.atomicLocked) (hseq : s'.sl.atomicSeq = s.sl.atomicSeq)
    (hpay : s'.payload = s.payload) (hc : s'.completed = s.completed) (hb : p.Between ↔ (s.pc i).Between)
    (hreads : ∀ start since seen, p = .reading start since seen ∨ p = .readCheck start since seen →
      Reads s start since seen) : Inv s' := by
  have hsame : ∀ j, (s'.pc j).Between ↔ (s.pc j).Between := fun j => by
    rw [hpc]
    exact between_update hb j
  have hq : Quiet s' → Quiet s := fun hq j hj => hq j ((hsame j).mpr hj)
  have hkeep : s'.completed = s.completed → Quiet s' → Quiet s ∧ s'.payload = s.payload := fun _ hn => ⟨hq hn, hpay⟩
  refine h.move hpc hflag (fun hn => ?_) (fun j hj => ?_) hc.ge hkeep
    fun start since seen hp => (hreads start since seen hp).mono hc.ge hkeep
  · rw [hseq, hc]
    exact h.quiet (hq hn)
  · rw [hseq, hc]
    exact h.between j ((hsame j).mp hj)

/-- A thread goes on without writing anything. -/
theorem Inv.goes (h : Inv s) (hh : p.Holding ↔ (s.pc i).Holding) (hb : p.Between ↔ (s.pc i).Between)
    (hreads : ∀ start since seen, p = .reading start since seen ∨ p = .readCheck start since seen →
      Reads s start since seen) : Inv (s.goto i p) :=
  h.stays rfl (h.flag.keep hh) rfl rfl rfl hb hreads

/-- The first increment: nobody else is between his. -/
theorem Inv.writeAdd (h : Inv s) (hp : s.pc i = .writeAdd) : Inv (s.count.goto i .writing) := by
  have hhold : (s.pc i).Holding := by rw [hp]; exact trivial
  have hquiet : Quiet s := fun j hj => by
    rw [h.flag.alone hj.holding hhold, hp] at hj
    exact hj
  have hseq : (s.count.goto i .writing).sl.atomicSeq = BitVec.ofNat 64 (2 * s.completed + 1) := by
    show atomicAdd s.sl.atomicSeq 1 = _
    rw [h.quiet hquiet, atomicAdd_ofNat]
  have hbusy : ¬ Quiet (s.count.goto i .writing) := fun hq => hq i <| by
    show (Function.update s.pc i .writing i).Between
    rw [Function.update_self]
    exact trivial
  exact h.move rfl (h.flag.keep (by rw [hp]; exact Iff.rfl)) (fun hq => absurd hq hbusy) (fun _ _ => hseq) le_rfl
    (fun _ hq => absurd hq hbusy) fun _ _ _ hr => hr.elim nofun nofun

/-- The second increment ends the section. -/
theorem Inv.unlockAdd (h : Inv s) (hp : s.pc i = .unlockAdd) :
    Inv { s.count.goto i .unlockXchg with completed := s.completed + 1 } := by
  have hbetween : (s.pc i).Between := by rw [hp]; exact trivial
  have hseq : atomicAdd s.sl.atomicSeq 1 = BitVec.ofNat 64 (2 * (s.completed + 1)) := by
    rw [h.between i hbetween, atomicAdd_ofNat]
    rfl
  refine h.move (p := .unlockXchg) rfl (h.flag.keep (by rw [hp]; exact Iff.rfl)) (fun _ => hseq) (fun j hj => ?_)
    (Nat.le_succ _) (fun hc => absurd hc (Nat.succ_ne_self _)) fun _ _ _ hr => hr.elim nofun nofun
  by_cases hji : j = i
  · rw [hji] at hj
    exact absurd (show (Function.update s.pc i (.unlockXchg : PC κ V) i).Between from hj)
      (by rw [Function.update_self]; exact id)
  · have hj : (Function.update s.pc i (.unlockXchg : PC κ V) j).Between := hj
    rw [Function.update_of_ne hji] at hj
    exact absurd (h.flag.alone hj.holding hbetween.holding) hji

/-- A word is written while no reader relies on the payload. -/
theorem Inv.write [DecidableEq κ] (h : Inv s) (hp : s.pc i = .writing) (k : κ) (v : V) :
    Inv { s with payload := Function.update s.payload k v } := by
  have hbusy : ¬ Quiet s := fun hq => hq i (by rw [hp]; exact trivial)
  exact h.move (i := i) (p := s.pc i) (Function.update_eq_self i s.pc).symm h.flag h.quiet h.between le_rfl
    (fun _ hq => absurd hq hbusy) fun _ _ _ hr => hr.elim (by rw [hp]; nofun) (by rw [hp]; nofun)

theorem Inv.exec (h : Inv s) (i : ι) : Inv (exec i s) := by
  unfold Sq.exec
  cases hp : s.pc i with
  | idle => exact h
  | writing => exact h
  | reading start since seen => exact h
  | writeXchg =>
    by_cases hl : s.sl.lock.atomicLocked = 0
    · simp only [SpinLock.lock_free hl, if_true]
      exact h.stays (p := .writeAdd) rfl (h.flag.acquire hl trivial) rfl rfl rfl (by rw [hp]; exact Iff.rfl)
        fun _ _ _ hr => hr.elim nofun nofun
    · simp only [SpinLock.lock_taken hl, Bool.false_eq_true, if_false]
      obtain ⟨j, hj⟩ := h.flag.holder hl
      refine h.stays (i := i) (p := s.pc i) (Function.update_eq_self i s.pc).symm ?_ rfl rfl rfl Iff.rfl
        fun _ _ _ hr => hr.elim (by rw [hp]; nofun) (by rw [hp]; nofun)
      show Mutex PC.Holding s.pc (1 : Word)
      exact h.flag.flag_eq_one hj ▸ h.flag
  | writeAdd => exact h.writeAdd hp
  | unlockAdd => exact h.unlockAdd hp
  | unlockXchg =>
    exact h.stays (p := .idle) rfl (h.flag.release (by rw [hp]; exact trivial) id) rfl rfl rfl
      (by rw [hp]; exact Iff.rfl) fun _ _ _ hr => hr.elim nofun nofun
  | readLoad =>
    refine h.goes (by rw [hp]; exact Iff.rfl) (by rw [hp]; exact Iff.rfl) fun start since seen hr => ?_
    rcases hr with hr | hr
    · cases hr
      exact h.starts
    · exact absurd hr nofun
  | readCheck start since seen =>
    exact h.goes (by rw [hp]; exact Iff.rfl) (by rw [hp]; exact Iff.rfl) fun _ _ _ hr => hr.elim nofun nofun

theorem Inv.step [DecidableEq κ] (h : Inv s) (e : Event ι κ V) : Sat Inv (fun _ => True) (step s e) := by
  cases e with
  | writeLock i | writeUnlock i | readLock i =>
    simp only [Sq.step]
    split
    next hp => exact h.goes (by rw [hp]; exact Iff.rfl) (by rw [hp]; exact Iff.rfl) fun _ _ _ hr => hr.elim nofun nofun
    next => exact trivial
  | write i k v =>
    simp only [Sq.step]
    split
    next hp => exact h.write hp k v
    next => exact trivial
  | read i k =>
    simp only [Sq.step]
    split
    next start since seen hp =>
      refine h.goes (by rw [hp]; exact Iff.rfl) (by rw [hp]; exact Iff.rfl) fun _ _ _ hr => ?_
      rcases hr with hr | hr
      · cases hr
        exact (h.reading i start since seen hp).read k
      · exact absurd hr nofun
    next => exact trivial
  | readUnlock i =>
    simp only [Sq.step]
    split
    next start since seen hp =>
      refine h.goes (by rw [hp]; exact Iff.rfl) (by rw [hp]; exact Iff.rfl) fun _ _ _ hr => ?_
      rcases hr with hr | hr
      · exact absurd hr nofun
      · cases hr
        exact h.reading i start since seen hp
    next => exact trivial
  | exec i => exact h.exec i

/-! ### Snapshots -/

omit [DecidableEq ι] in
theorem Inv.parity (h : Inv s) : Parity s := by
  constructor
  · intro hodd
    by_contra hn
    rw [h.quiet (not_exists.mp hn), BitVec.toNat_ofNat] at hodd
    omega
  · rintro ⟨i, hi⟩
    rw [h.between i hi, BitVec.toNat_ofNat]
    omega

omit [DecidableEq ι] in
/-- The counter is back at an even start value: 2^63 sections later at the earliest. -/
theorem Inv.unchanged (h : Inv s) (heven : s.sl.atomicSeq = BitVec.ofNat 64 (2 * since)) (hle : since ≤ s.completed)
    (hlt : s.completed - since < 2 ^ 63) : Quiet s ∧ s.completed = since := by
  have hseq : s.sl.atomicSeq.toNat = 2 * since % 2 ^ 64 := by rw [heven, BitVec.toNat_ofNat]
  have hq : Quiet s := by
    intro i hi
    have hodd := h.parity.mpr ⟨i, hi⟩
    omega
  refine ⟨hq, ?_⟩
  rw [h.quiet hq, BitVec.toNat_ofNat] at hseq
  omega

omit [DecidableEq ι] in
theorem Inv.consistent (h : Inv s) (e : Event ι κ V) : Consistent s e := by
  cases e with
  | exec i =>
    intro start since seen hp hret hlt
    obtain ⟨hle, hreads⟩ := h.checking i start since seen hp
    obtain ⟨hlast, hbit⟩ := SeqLock.readUnlock_eq_true.mp hret
    rcases hreads with hodd | ⟨heven, hseen⟩
    · rw [hodd, BitVec.toNat_ofNat] at hbit
      omega
    · obtain ⟨hq, hc⟩ := h.unchanged (hlast.trans heven) hle hlt
      exact ⟨hq, hseen hc hq⟩
  | _ => exact trivial

/-- **Snapshots.** Whatever the threads do and however their operations interleave, every `ReadUnlock` that returns
true is consistent, and in every state they reach the counter has the parity of its writers. -/
theorem snapshots [DecidableEq κ] (payload : κ → V) (es : List (Event ι κ V)) :
    Along step Consistent (init payload : State ι κ V) es ∧
      Sat Parity (fun _ => True) (run step (init payload : State ι κ V) es) := by
  constructor
  · exact along_inv (P := fun _ _ => True) (fun s e h _ => ⟨Inv.consistent h e, Inv.step h e⟩) es (init_inv payload)
      (along_true es _)
  · exact (run_sat (P := fun _ _ => True) (fun s e h _ => Inv.step h e) es (init_inv payload) (along_true es _)).mono
      (fun _ h => h.parity) fun _ _ => trivial

end

end Sq
end OsLabs
