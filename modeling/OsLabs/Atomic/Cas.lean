/-
# Compare and swap in a loop

`AtomicCas` of `atomic.h`, and the loop of `CasFunc` with any function `g` in the place of its own. Any number of threads run
the loop once on one cell; the steps of the threads interleave in any way. A thread's `expected` may be old by the time
of its `AtomicCas`, and an old value may come back: what counts is that the cell holds it then.

Key definitions: `atomicCas`, `step`, `Inv`.
Key theorem: `cas_loop`.
-/
import OsLabs.Atomic.SpinLock

namespace OsLabs
namespace Cas

open Atomic Run Threads
open Function (update)

/-- `lock cmpxchgq`: the word in memory, `rax`, and what `sete` gives. -/
def cmpxchg (w rax value : Word) : Word × Word × Bool := if rax = w then (value, rax, true) else (w, w, false)

/-- The cell, `*expected`, and what is returned. -/
def atomicCas (w expected value : Word) : Word × Word × Word :=
  let (w, expectedVal, ok) := cmpxchg w expected value
  (w, if ok then expected else expectedVal, if ok then 1 else 0)

theorem atomicCas_same (w value : Word) : atomicCas w w value = (value, w, 1) := by
  rw [atomicCas, cmpxchg, if_pos rfl]
  rfl

theorem atomicCas_other {w expected : Word} (value : Word) (h : expected ≠ w) : atomicCas w expected value = (w, w, 0) := by
  rw [atomicCas, cmpxchg, if_neg h]
  rfl

/-! ### The threads -/

inductive PC
  -- `int64_t expected = *atomic`
  | start
  | body (expected : Word)
  | cas (expected value : Word)
  | done (expected : Word)
  deriving DecidableEq, Repr

def PC.finished : PC → Bool
  | .done _ => true
  | _ => false

variable {ι : Type}

/-- `succeeded` counts the calls of `AtomicCas` that have not returned 0. -/
structure State (ι : Type) where
  atomic : Word
  pc : ι → PC
  succeeded : ι → ℕ

section

variable [DecidableEq ι] (g : Word → Word)

/-- A step of thread `i`. -/
def step (s : State ι) (i : ι) : Except Unit (State ι) :=
  match s.pc i with
  | .start => .ok { s with pc := update s.pc i (.body s.atomic) }
  | .body expected => .ok { s with pc := update s.pc i (.cas expected (g expected)) }
  | .cas expected value =>
    let (w, expected, ret) := atomicCas s.atomic expected value
    if ret = 0 then .ok { s with atomic := w, pc := update s.pc i (.body expected) }
    else .ok ⟨w, update s.pc i (.done expected), update s.succeeded i (s.succeeded i + 1)⟩
  | .done _ => .error ()

end

def init (x : Word) : State ι := ⟨x, fun _ => .start, fun _ => 0⟩

/-- The function of `CasFunc`. -/
def casFunc (expected : Word) : Word := expected + 1 + 2 * (expected &&& 1)

/-! ### The invariant -/

/-- The cell has moved once for each success; what a thread will write is computed from what it expects. -/
structure Inv [Fintype ι] (g : Word → Word) (x : Word) (s : State ι) : Prop where
  cell : s.atomic = g^[tally id s.succeeded] x
  value : ∀ i expected value, s.pc i = .cas expected value → value = g expected
  once : ∀ i, s.succeeded i = if (s.pc i).finished then 1 else 0

section

variable [Fintype ι] {g : Word → Word} {x : Word} {s : State ι} {i : ι}

theorem init_inv (g : Word → Word) (x : Word) : Inv g x (init x : State ι) := by
  refine ⟨?_, by simp [init], fun i => rfl⟩
  have hnone : tally id (fun _ : ι => 0) = 0 := tally_eq_zero.mpr fun _ => rfl
  show x = g^[tally id fun _ : ι => 0] x
  rw [hnone]
  rfl

variable [DecidableEq ι]

/-- A step of a thread that does not write. -/
theorem Inv.goto (h : Inv g x s) {pc : PC} (hvalue : ∀ expected value, pc = .cas expected value → value = g expected)
    (hpc : (s.pc i).finished = false) (hnot : pc.finished = false) : Inv g x { s with pc := update s.pc i pc } := by
  refine ⟨h.cell, fun j expected value hj => ?_, fun j => ?_⟩
  · have hj : update s.pc i pc j = .cas expected value := hj
    by_cases hji : j = i
    · apply hvalue
      rwa [hji, Function.update_self] at hj
    · apply h.value j
      rwa [Function.update_of_ne hji] at hj
  · have honce := h.once j
    by_cases hji : j = i
    · rw [hji, hpc] at honce
      show s.succeeded j = if (update s.pc i pc j).finished then 1 else 0
      rw [hji, Function.update_self, hnot, honce]
    · show s.succeeded j = if (update s.pc i pc j).finished then 1 else 0
      rw [Function.update_of_ne hji, honce]

/-- The step that takes the cell on. -/
theorem Inv.swap (h : Inv g x s) {value : Word} (hpc : s.pc i = .cas s.atomic value) :
    Inv g x ⟨value, update s.pc i (.done s.atomic), update s.succeeded i (s.succeeded i + 1)⟩ := by
  have hzero : s.succeeded i = 0 := by
    rw [h.once i, hpc]
    rfl
  refine ⟨?_, fun j expected value hj => ?_, fun j => ?_⟩
  · have htally : tally id (update s.succeeded i (s.succeeded i + 1)) = tally id s.succeeded + 1 := by
      have hupdate := tally_update id s.succeeded i (s.succeeded i + 1)
      simp only [id_eq] at hupdate
      omega
    calc value = g s.atomic := h.value i _ _ hpc
      _ = g (g^[tally id s.succeeded] x) := by rw [← h.cell]
      _ = g^[tally id (update s.succeeded i (s.succeeded i + 1))] x := by rw [htally, Function.iterate_succ_apply']
  · have hj : update s.pc i (.done s.atomic) j = .cas expected value := hj
    by_cases hji : j = i
    · rw [hji, Function.update_self] at hj
      exact absurd hj (by simp)
    · apply h.value j
      rwa [Function.update_of_ne hji] at hj
  · show update s.succeeded i (s.succeeded i + 1) j = if (update s.pc i (.done s.atomic) j).finished then 1 else 0
    by_cases hji : j = i
    · rw [hji, Function.update_self, Function.update_self, hzero]
      rfl
    · rw [Function.update_of_ne hji, Function.update_of_ne hji, h.once j]

theorem Inv.step (h : Inv g x s) (i : ι) : Sat (Inv g x) (fun _ => (s.pc i).finished = true) (step g s i) := by
  unfold Cas.step
  split
  next hpc => exact h.goto (by simp) (by rw [hpc]; rfl) rfl
  next expected hpc =>
    refine h.goto (fun e v hcas => ?_) (by rw [hpc]; rfl) rfl
    obtain ⟨rfl, rfl⟩ := PC.cas.inj hcas
    rfl
  next expected value hpc =>
    by_cases hsame : expected = s.atomic
    · subst hsame
      rw [atomicCas_same]
      exact h.swap hpc
    · rw [atomicCas_other value hsame]
      exact h.goto (by simp) (by rw [hpc]; rfl) rfl
  next expected hpc =>
    show (s.pc i).finished = true
    rw [hpc]
    rfl

omit [DecidableEq ι] in
/-- All have finished: the cell has moved once for each thread. -/
theorem Inv.finished (h : Inv g x s) (hall : ∀ i, (s.pc i).finished = true) : s.atomic = g^[Fintype.card ι] x := by
  have hone : ∀ i, s.succeeded i = 1 := fun i => by rw [h.once i, if_pos (hall i)]
  have htally : tally id s.succeeded = Fintype.card ι := by
    calc tally id s.succeeded = ∑ _i : ι, 1 := Finset.sum_congr rfl fun i _ => hone i
      _ = Fintype.card ι := by simp
  rw [h.cell, htally]

theorem loop_inv (g : Word → Word) (x : Word) (es : List ι) : Sat (Inv g x) (fun _ => True) (run (step g) (init x) es) := by
  have hstep : ∀ (s : State ι) i, Inv g x s → True → Sat (Inv g x) (fun _ => True) (Cas.step g s i) := fun s i h _ =>
    (h.step i).mono (fun _ => id) fun _ _ => trivial
  exact run_sat hstep es (init_inv g x) (along_true es _)

/-- **Compare and swap.** Whatever the function, the threads and the order of their steps: in every state the cell has moved
by one application of the function for each success, a thread that has finished has had one, and when all have finished
the cell has moved once for each thread. `AtomicCas` fails exactly if the cell is not as expected, and then
leaves it and stores what it holds in `*expected`; otherwise it writes and leaves `*expected`. -/
theorem cas_loop (g : Word → Word) (x : Word) (es : List ι) :
    Sat (fun s => s.atomic = g^[∑ i, s.succeeded i] x ∧ (∀ i, (s.pc i).finished = true → s.succeeded i = 1) ∧
        ((∀ i, (s.pc i).finished = true) → s.atomic = g^[Fintype.card ι] x)) (fun _ => True)
        (run (step g) (init x) es) ∧
      ∀ w expected value : Word, ((atomicCas w expected value).2.2 = 0 ↔ expected ≠ w) ∧
        ((atomicCas w expected value).2.2 = 0 → (atomicCas w expected value).1 = w ∧ (atomicCas w expected value).2.1 = w) ∧
        ((atomicCas w expected value).2.2 ≠ 0 →
          (atomicCas w expected value).1 = value ∧ (atomicCas w expected value).2.1 = expected) := by
  constructor
  · apply (loop_inv g x es).mono _ fun _ => id
    intro s h
    exact ⟨h.cell, fun i hi => by rw [h.once i, if_pos hi], h.finished⟩
  · intro w expected value
    by_cases hsame : expected = w
    · rw [hsame, atomicCas_same]
      simp
    · rw [atomicCas_other value hsame]
      simp [hsame]

end

/-! ### The test -/

theorem casFunc_ofNat (n : ℕ) : casFunc (BitVec.ofNat 64 n) = BitVec.ofNat 64 (n + 1 + 2 * (n % 2)) := by
  have hbit : BitVec.ofNat 64 n &&& 1 = BitVec.ofNat 64 (n % 2) := by
    apply BitVec.eq_of_toNat_eq
    have hmod : n % 2 ^ 64 % 2 = n % 2 := Nat.mod_mod_of_dvd n (by decide)
    rw [BitVec.toNat_and, show (1 : Word).toNat = 1 from rfl, Nat.and_one_is_mod, BitVec.toNat_ofNat, BitVec.toNat_ofNat, hmod]
    omega
  rw [casFunc, hbit, BitVec.ofNat_add, BitVec.ofNat_add, BitVec.ofNat_mul]
  rfl

/-- Two calls of `CasFunc` add 4 to a number that leaves 1. -/
theorem casFunc_twice (k : ℕ) : casFunc^[2] (BitVec.ofNat 64 (4 * k + 1)) = BitVec.ofNat 64 (4 * (k + 1) + 1) := by
  have h1 : 4 * k + 1 + 1 + 2 * ((4 * k + 1) % 2) = 4 * k + 4 := by omega
  have h2 : 4 * k + 4 + 1 + 2 * ((4 * k + 4) % 2) = 4 * (k + 1) + 1 := by omega
  calc casFunc^[2] (BitVec.ofNat 64 (4 * k + 1)) = casFunc (casFunc (BitVec.ofNat 64 (4 * k + 1))) := rfl
    _ = casFunc (BitVec.ofNat 64 (4 * k + 4)) := by rw [casFunc_ofNat, h1]
    _ = BitVec.ofNat 64 (4 * (k + 1) + 1) := by rw [casFunc_ofNat, h2]

/-- What `TestCas` asserts, for any even number of threads. -/
theorem casFunc_iterate (k : ℕ) : casFunc^[2 * k] 1 = BitVec.ofNat 64 (2 * (2 * k) + 1) := by
  have hiterate : (casFunc^[2])^[k] 1 = BitVec.ofNat 64 (4 * k + 1) := by
    induction k with
    | zero => rfl
    | succ k ih => rw [Function.iterate_succ_apply', ih, casFunc_twice]
  rw [Function.iterate_mul, hiterate]
  congr 1
  omega

/-- The assertion of `TestCas`, which starts at 1. -/
theorem testCas [Fintype ι] [DecidableEq ι] (heven : Even (Fintype.card ι)) (es : List ι) :
    Sat (fun s => (∀ i, (s.pc i).finished = true) → s.atomic = BitVec.ofNat 64 (2 * Fintype.card ι + 1)) (fun _ => True)
      (run (step casFunc) (init 1) es) := by
  obtain ⟨k, hk⟩ := heven
  have hcard : Fintype.card ι = 2 * k := by omega
  apply (loop_inv casFunc 1 es).mono _ fun _ => id
  intro s h hall
  rw [h.finished hall, hcard, casFunc_iterate]

end Cas
end OsLabs
