/-
# Room in the log

`begin_op` lets a file system call in while `MAXOPBLOCKS` blocks for each call under way, and for it, fit into `LOGSIZE`. It
does not know which blocks the calls have written, and so the calls under way can have no more than
`MAXOPBLOCKS + 2 * m` blocks in the log when each writes `m` different ones at the most: two of them are under way when
`MAXOPBLOCKS` blocks are in the log already, or else there are fewer. `log_write` panics when the log is full, also if it has the block
already and would need no room for it, and what is full is `LOGSIZE` or `log.size - 1`, what there is on the disk besides the header. So the
reservation keeps it from its panic exactly if calls write fewer than `MAXOPBLOCKS` blocks and these fit (`no_panic_iff`). `mkfs` makes a log of
`LOGSIZE` blocks.

Key definitions: `Modest`, `Budget`, `NoPanic`.
Key theorem: `no_panic_iff`.
-/
import OsLabs.Xv6.Commit

namespace OsLabs
namespace Xv6
namespace Log

open Function (update)
open Run Threads

variable {ι : Type} [DecidableEq ι] {a : Area} {s s' : State ι} {e : Event ι} {d : ℕ → Block} {m b : ℕ}

/-- A file system call writes at most `m` different blocks, each as often as it likes. -/
def Modest (m : ℕ) (s : State ι) : Event ι → Prop
  | .logWrite i b _ => ∀ bs, s.calls i = some bs → (insert b bs).card ≤ m
  | _ => True

/-- How many blocks a call may still write. -/
def room (m : ℕ) : Option (Finset ℕ) → ℕ
  | none => 0
  | some bs => m - bs.card

/-- What a call has written is in the log. -/
def Held (s : State ι) : Prop := ∀ i bs, s.calls i = some bs → ∀ b ∈ bs, b ∈ s.lh

section

variable [Fintype ι]

/-- While nobody commits: what is in the log with what the calls under way may still write. -/
structure Budget (m : ℕ) (s : State ι) : Prop where
  held : Held s
  le : s.lh.length + tally (room m) s.calls ≤ MAXOPBLOCKS + 2 * m

omit [DecidableEq ι] in
theorem tally_room_le (h : Inv a s) : tally (room m) s.calls ≤ s.outstanding * m := by
  rw [h.counted]
  unfold tally
  rw [Finset.sum_mul]
  apply Finset.sum_le_sum
  intro i _
  cases s.calls i with
  | none => exact Nat.zero_le _
  | some bs =>
    show m - bs.card ≤ 1 * m
    omega

omit [DecidableEq ι] in
theorem budget_of_quiet (hlh : s.lh = []) (h0 : ∀ i, s.calls i = none) : Budget m s := by
  have hzero : tally (room m) s.calls = 0 := tally_eq_zero.mpr fun i => by rw [h0]; rfl
  refine ⟨fun i bs hi => absurd (hi.symm.trans (h0 i)) (Option.some_ne_none bs), ?_⟩
  rw [hzero, hlh]
  exact Nat.zero_le _

omit [DecidableEq ι] [Fintype ι] in
/-- The invariant alone is enough for a specification to follow. -/
theorem Inv.exists_abs (a : Area) (s : State ι) : ∃ q, Abs a s q := by
  refine ⟨⟨recovered a s.store.disk, if s.pc.recovering then recovered a s.store.disk else s.store.bread,
    fun i => (s.calls i).isSome⟩, fun _ _ => rfl, fun hr b _ => ?_, fun hr b _ => ?_, fun _ => rfl⟩
  · simp [hr]
  · simp [hr]

theorem Inv.step (hI : Inv a s) (he : e.Home a) (h : step a s e = .ok s') : Inv a s' := by
  obtain ⟨q, hA⟩ := Inv.exists_abs a s
  obtain ⟨q', -, hI', -⟩ := sim_step hI hA he h
  exact hI'

/-- The reservation. A call that finds nobody under way finds the log empty. -/
theorem budget_beginOp {i : ι} (hI : Inv a s) (hm : m ≤ MAXOPBLOCKS) (hpc : s.pc = .idle) (hB : Budget m s) (hi : s.calls i = none) :
    Budget m (beginOp s i) := by
  unfold beginOp
  split_ifs with hc hroom
  · exact hB
  · exact hB
  · have hle := tally_room_le (m := m) hI
    have hnew := tally_update (room m) s.calls i (some ∅)
    rw [hi] at hnew
    simp only [room, Finset.card_empty] at hnew
    refine ⟨fun j bs hj => ?_, ?_⟩
    · dsimp only at hj
      by_cases hji : j = i
      · rw [hji, Function.update_self] at hj
        rw [← Option.some.inj hj]
        exact fun b hb => absurd hb (Finset.notMem_empty b)
      · rw [Function.update_of_ne hji] at hj
        exact hB.held j bs hj
    · dsimp only
      rcases Nat.eq_zero_or_pos s.outstanding with h0 | hpos
      · rw [(hI.idle_phase hpc).2 h0, List.length_nil]
        rw [h0] at hle
        omega
      · -- Each call gives back what it does not write, and there are two at least.
        have hback : (s.outstanding + 1) * m + (s.outstanding + 1) * (MAXOPBLOCKS - m) = (s.outstanding + 1) * MAXOPBLOCKS := by
          rw [← Nat.mul_add, Nat.add_sub_cancel' hm]
        have htwo : 2 * (MAXOPBLOCKS - m) ≤ (s.outstanding + 1) * (MAXOPBLOCKS - m) := Nat.mul_le_mul_right _ (by omega)
        rw [Nat.succ_mul s.outstanding m] at hback
        have hL : LOGSIZE = MAXOPBLOCKS * 3 := rfl
        omega

theorem logWrite_budget {i : ι} {bs : Finset ℕ} {v : Block} (hI : Inv a s) (hB : Budget m s) (hi : s.calls i = some bs)
    (hbs : (insert b bs).card ≤ m) (hm : m < MAXOPBLOCKS) (hsize : MAXOPBLOCKS + 2 * m < a.size - 1) :
    ∃ s', logWrite a s i bs b v = .ok s' ∧ Budget m s' := by
  have hout : 0 < s.outstanding := by
    by_contra h0
    rw [hI.calls_none (Nat.eq_zero_of_not_pos h0) i] at hi
    cases hi
  have hle := hB.le
  have hL : LOGSIZE = MAXOPBLOCKS * 3 := rfl
  unfold logWrite
  rw [if_neg (by omega), if_neg (by omega)]
  refine ⟨_, rfl, fun j bs' hj => ?_, ?_⟩
  · dsimp only at hj
    have hgrows : ∀ c ∈ s.lh, c ∈ if b ∈ s.lh then s.lh else s.lh ++ [b] := fun c hc => by
      split_ifs
      · exact hc
      · exact List.mem_append_left _ hc
    by_cases hji : j = i
    · rw [hji, Function.update_self] at hj
      rw [← Option.some.inj hj]
      intro c hc
      rcases Finset.mem_insert.mp hc with rfl | hc
      · dsimp only
        split_ifs with hmem
        · exact hmem
        · exact List.mem_append_right _ (List.mem_singleton_self c)
      · exact hgrows c (hB.held i bs hi c hc)
    · rw [Function.update_of_ne hji] at hj
      exact fun c hc => hgrows c (hB.held j bs' hj c hc)
  · have hnew := tally_update (room m) s.calls i (some (insert b bs))
    rw [hi] at hnew
    simp only [room] at hnew
    dsimp only
    split_ifs with hmem
    · have hcard := Finset.card_le_card (Finset.subset_insert b bs)
      omega
    · have hfresh : b ∉ bs := fun hb => hmem (hB.held i bs hi b hb)
      rw [Finset.card_insert_of_notMem hfresh] at hbs hnew
      rw [List.length_append, List.length_singleton]
      omega

theorem budget_update_none {i : ι} (hB : Budget m s) :
    (∀ j bs, update s.calls i none j = some bs → ∀ b ∈ bs, b ∈ s.lh) ∧
      s.lh.length + tally (room m) (update s.calls i none) ≤ MAXOPBLOCKS + 2 * m := by
  refine ⟨fun j bs hj => ?_, ?_⟩
  · by_cases hji : j = i
    · rw [hji, Function.update_self] at hj
      cases hj
    · rw [Function.update_of_ne hji] at hj
      exact hB.held j bs hj
  · have hnew := tally_update (room m) s.calls i none
    have hle := hB.le
    simp only [room] at hnew
    omega

/-- A step of a modest call cannot fail when there is room. -/
theorem step_sat (hm : m < MAXOPBLOCKS) (hsize : MAXOPBLOCKS + 2 * m < a.size - 1) (hI : Inv a s) (hB : s.pc = .idle → Budget m s)
    (he : e.Home a) (hmodest : Modest m s e) :
    Sat (fun s' => Inv a s' ∧ (s'.pc = .idle → Budget m s')) (fun _ => False) (step a s e) := by
  have key : (∃ s', step a s e = .ok s' ∧ (s'.pc = .idle → Budget m s')) →
      Sat (fun s' => Inv a s' ∧ (s'.pc = .idle → Budget m s')) (fun _ => False) (step a s e) := by
    rintro ⟨s', hs, hB'⟩
    rw [hs]
    exact ⟨hI.step he hs, hB'⟩
  apply key
  cases e with
  | beginOp i =>
    refine ⟨_, rfl, fun hidle => ?_⟩
    split_ifs at hidle ⊢ with hc
    · exact hB hidle
    · rw [not_or, Bool.not_eq_true, Bool.not_eq_true, Option.isSome_eq_false_iff, Option.isNone_iff_eq_none] at hc
      have hpc : s.pc = .idle := by
        unfold beginOp at hidle
        split_ifs at hidle <;> exact hidle
      exact budget_beginOp hI hm.le hpc (hB hpc) hc.2
  | logWrite i b v =>
    cases hi : s.calls i with
    | none => exact ⟨s, step_logWrite_none hi, hB⟩
    | some bs =>
      rw [step_logWrite hi]
      obtain ⟨s', hs, hB'⟩ := logWrite_budget hI (hB (hI.idle_of_call (by rw [hi]; rfl))) hi (hmodest bs hi) hm hsize
      exact ⟨s', hs, fun _ => hB'⟩
  | endOp i =>
    unfold step
    dsimp only
    split_ifs with hi
    · have hflag : s.committing = false := by
        rw [Bool.eq_false_iff]
        exact fun hc => (hI.flag.mp hc).1 (hI.idle_of_call hi)
      obtain ⟨hheld, hle⟩ := budget_update_none (i := i) (hB (hI.idle_of_call hi))
      unfold endOp
      rw [if_neg (by simp [hflag])]
      dsimp only
      split_ifs
      · exact ⟨_, rfl, fun hidle => Pc.noConfusion hidle⟩
      · exact ⟨_, rfl, fun hidle => Pc.noConfusion hidle⟩
      · exact ⟨_, rfl, fun _ => ⟨hheld, hle⟩⟩
    · exact ⟨s, rfl, hB⟩
  | disk =>
    by_cases hpc : s.pc = .idle
    · exact ⟨s, by simp [step, diskStep, hpc], hB⟩
    · obtain ⟨s', hs, -, hout⟩ := diskStep_left hI hpc
      have hI' : Inv a s' := hI.step (e := .disk) trivial hs
      have h0 : s'.outstanding = 0 := hout.trans (hI.quiet hpc)
      exact ⟨s', hs, fun hidle => budget_of_quiet ((hI'.idle_phase hidle).2 h0) (hI'.calls_none h0)⟩
  | crash => exact ⟨_, rfl, fun hidle => Pc.noConfusion hidle⟩

end

/-! ### Without room -/

/-- A state that modest calls can reach. -/
def Reached (a : Area) (d : ℕ → Block) (m : ℕ) (s : State ι) : Prop :=
  ∃ es : List (Event ι), (∀ e ∈ es, e.Home a) ∧ Along (step a) (Modest m) (.boot d) es ∧ run (step a) (.boot d) es = .ok s

/-- No calls of at most `m` different blocks each make the kernel panic. -/
def NoPanic (ι : Type) [DecidableEq ι] (a : Area) (d : ℕ → Block) (m : ℕ) : Prop :=
  ∀ es : List (Event ι), (∀ e ∈ es, e.Home a) → Along (step a) (Modest m) (.boot d) es → ∃ s', run (step a) (.boot d) es = .ok s'

theorem Reached.next (H : NoPanic ι a d m) (hR : Reached a d m s) (he : e.Home a) (hm : Modest m s e) :
    ∃ s', step a s e = .ok s' ∧ Reached a d m s' := by
  obtain ⟨es, hes, hP, hrun⟩ := hR
  have hes' : ∀ f ∈ es ++ [e], f.Home a := by
    simp only [List.mem_append, List.mem_singleton]
    rintro f (hf | rfl)
    · exact hes f hf
    · exact he
  have hP' := along_concat hP hrun hm
  obtain ⟨s', hs'⟩ := H _ hes' hP'
  refine ⟨s', ?_, es ++ [e], hes', hP', hs'⟩
  rw [run_append es [e] hrun] at hs'
  cases hs : step a s e with
  | error x =>
    rw [run_cons_error _ hs] at hs'
    cases hs'
  | ok s₁ =>
    rw [run_cons_ok _ hs] at hs'
    exact hs'

/-- Calls `c` are under way, `o` of them, and `n` blocks are in the log, those from `base` on. -/
structure Filled (base : ℕ) (s : State ι) (n o : ℕ) (c : ι → Option (Finset ℕ)) : Prop where
  idle : s.pc = .idle
  flag : s.committing = false
  length : s.lh.length = n
  below : ∀ b ∈ s.lh, b < base + n
  outstanding : s.outstanding = o
  calls : s.calls = c

variable {base n o k : ℕ} {c : ι → Option (Finset ℕ)} {bs : Finset ℕ} {i j : ι}

theorem Filled.beginOp (H : NoPanic ι a d m) (hR : Reached a d m s) (h : Filled base s n o c) (hi : c i = none)
    (hroom : n + (o + 1) * MAXOPBLOCKS ≤ LOGSIZE) : ∃ s', Reached a d m s' ∧ Filled base s' n (o + 1) (update c i (some ∅)) := by
  obtain ⟨s', hs, hR'⟩ := hR.next H (e := .beginOp i) trivial trivial
  refine ⟨s', hR', ?_⟩
  have hstart : ¬ (s.pc.recovering = true ∨ (s.calls i).isSome = true) := by simp [h.idle, h.calls, hi, Pc.recovering]
  unfold step at hs
  dsimp only at hs
  rw [if_neg hstart] at hs
  unfold Log.beginOp at hs
  rw [if_neg (by simp [h.flag]), if_neg (by rw [h.length, h.outstanding]; omega)] at hs
  cases hs
  exact ⟨h.idle, h.flag, h.length, h.below, by rw [h.outstanding], by rw [h.calls]⟩

/-- Who has a block left to write, or writes one again, finds the log not full. -/
theorem Filled.room (H : NoPanic ι a d m) (hR : Reached a d m s) (h : Filled base s n o c) (hi : c i = some bs)
    (hbs : (insert b bs).card ≤ m) (hb : a.Home b) : n < LOGSIZE ∧ n < a.size - 1 := by
  have hcall : s.calls i = some bs := by rw [h.calls, hi]
  obtain ⟨s', hs, -⟩ := hR.next H (e := .logWrite i b fun _ => 0) hb fun bs' hbs' => by
    rw [hcall] at hbs'
    exact Option.some.inj hbs' ▸ hbs
  rw [step_logWrite hcall] at hs
  obtain ⟨hsmall, hsize, -, -⟩ := logWrite_ok hs
  exact ⟨h.length ▸ hsmall, h.length ▸ hsize⟩

theorem Filled.logWrite (H : NoPanic ι a d m) (hR : Reached a d m s) (h : Filled base s n o c) (hi : c i = some bs)
    (hbs : bs.card < m) (hb : a.Home (base + n)) :
    ∃ s', Reached a d m s' ∧ Filled base s' (n + 1) o (update c i (some (insert (base + n) bs))) := by
  have hcall : s.calls i = some bs := by rw [h.calls, hi]
  obtain ⟨s', hs, hR'⟩ := hR.next H (e := .logWrite i (base + n) fun _ => 0) hb fun bs' hbs' => by
    rw [hcall] at hbs'
    rw [← Option.some.inj hbs']
    exact (Finset.card_insert_le ..).trans hbs
  rw [step_logWrite hcall] at hs
  obtain ⟨-, -, -, rfl⟩ := logWrite_ok hs
  have hnew : base + n ∉ s.lh := fun hm => Nat.lt_irrefl _ (h.below _ hm)
  refine ⟨_, hR', h.idle, h.flag, ?_, ?_, h.outstanding, by rw [h.calls]⟩
  · rw [if_neg hnew, List.length_append, h.length, List.length_singleton]
  · rw [if_neg hnew]
    intro b hb
    rcases List.mem_append.mp hb with hb | hb
    · have := h.below b hb
      omega
    · rw [List.mem_singleton.mp hb]
      omega

/-- A call writes `k` blocks more. -/
theorem Filled.logWrites (H : NoPanic ι a d m) : ∀ (k : ℕ) {s : State ι} {n : ℕ} {c : ι → Option (Finset ℕ)} {bs : Finset ℕ}, Reached a d m s →
    Filled base s n o c → c i = some bs → bs.card + k ≤ m → (∀ b, n ≤ b → b < n + k → a.Home (base + b)) →
    ∃ s' bs', Reached a d m s' ∧ Filled base s' (n + k) o (update c i (some bs')) ∧ bs ⊆ bs' ∧ bs'.card ≤ bs.card + k ∧
      (0 < k → base + n ∈ bs')
  | 0, s, n, c, bs, hR, h, hi, _, _ => by
    refine ⟨s, bs, hR, ?_, subset_rfl, le_rfl, by simp⟩
    rw [Nat.add_zero, ← hi, Function.update_eq_self]
    exact h
  | k + 1, s, n, c, bs, hR, h, hi, hk, hb => by
    obtain ⟨s₁, hR₁, h₁⟩ := h.logWrite H hR hi (by omega) (hb n (Nat.le_refl n) (by omega))
    have hcard : (insert (base + n) bs).card ≤ bs.card + 1 := Finset.card_insert_le ..
    obtain ⟨s', bs', hR', h', hsub, hle, -⟩ := Filled.logWrites H k hR₁ h₁ (Function.update_self ..) (by omega) fun b hb1 hb2 =>
      hb b (by omega) (by omega)
    refine ⟨s', bs', hR', ?_, (Finset.subset_insert ..).trans hsub, by omega, fun _ => hsub (Finset.mem_insert_self ..)⟩
    rw [Function.update_idem, show n + 1 + k = n + (k + 1) by omega] at h'
    exact h'

theorem Filled.endOp (H : NoPanic ι a d m) (hR : Reached a d m s) (h : Filled base s n (o + 2) c) (hi : c i = some bs) :
    ∃ s', Reached a d m s' ∧ Filled base s' n (o + 1) (update c i none) := by
  obtain ⟨s', hs, hR'⟩ := hR.next H (e := .endOp i) trivial trivial
  refine ⟨s', hR', ?_⟩
  unfold step at hs
  dsimp only at hs
  rw [if_pos (by rw [h.calls, hi]; rfl)] at hs
  unfold Log.endOp at hs
  rw [if_neg (by simp [h.flag])] at hs
  dsimp only at hs
  rw [if_neg (by rw [h.outstanding]; omega)] at hs
  cases hs
  exact ⟨h.idle, h.flag, h.length, h.below, (congrArg (· - 1) h.outstanding).trans rfl, by rw [h.calls]⟩

/-- Beside a call that is under way another process makes `k` calls of one block. -/
theorem Filled.calls_of_one (H : NoPanic ι a d m) (hm : 0 < m) : ∀ (k : ℕ) {s : State ι} {n : ℕ}, Reached a d m s →
    Filled base s n 1 c → c i = none → n + k ≤ MAXOPBLOCKS → (∀ b < n + k, a.Home (base + b)) →
    ∃ s', Reached a d m s' ∧ Filled base s' (n + k) 1 c
  | 0, s, n, hR, h, _, _, _ => ⟨s, hR, h⟩
  | k + 1, s, n, hR, h, hi, hk, hb => by
    have hL : LOGSIZE = MAXOPBLOCKS * 3 := rfl
    obtain ⟨s, hR, h⟩ := h.beginOp H hR hi (by omega)
    obtain ⟨s, hR, h⟩ := h.logWrite H hR (Function.update_self ..) (by rwa [Finset.card_empty]) (hb n (by omega))
    obtain ⟨s, hR, h⟩ := h.endOp H hR (Function.update_self ..)
    rw [Function.update_idem, Function.update_idem, ← hi, Function.update_eq_self] at h
    obtain ⟨s, hR, h⟩ := Filled.calls_of_one H hm k hR h hi (by omega) fun b hlt => hb b (by omega)
    rw [show n + 1 + k = n + (k + 1) by omega] at h
    exact ⟨s, hR, h⟩

/-- After the boot. -/
theorem exists_filled (H : NoPanic ι a d m) (base : ℕ) (hd : getHead (d a.start) = .ok []) :
    ∃ s : State ι, Reached a d m s ∧ Filled base s 0 0 fun _ => none := by
  have h0 : Reached a d m (State.boot d : State ι) := ⟨[], by simp, trivial, rfl⟩
  have h1 : step a (State.boot d : State ι) .disk =
      .ok { State.boot d with pc := .installTrans true 0 } := by
    simp [step, diskStep, State.boot, hd, Except.map]
  obtain ⟨s₁, hs₁, hR₁⟩ := h0.next H (e := .disk) trivial trivial
  obtain rfl := Except.ok.inj (h1.symm.trans hs₁)
  obtain ⟨s₂, hs₂, hR₂⟩ := hR₁.next H (e := .disk) trivial trivial
  cases hs₂
  obtain ⟨s₃, hs₃, hR₃⟩ := hR₂.next H (e := .disk) trivial trivial
  cases hs₃
  exact ⟨_, hR₃, rfl, rfl, rfl, by simp, rfl, rfl⟩

/-- **The reservation.** From a disk with an empty log: no file system calls of at most `m` different blocks each, which they may write
again and again, make `log_write` or `end_op` panic, in any order, exactly if `m` is less than `MAXOPBLOCKS` and the log has room for
`MAXOPBLOCKS + 2 * m` blocks and one more. -/
theorem no_panic_iff [Fintype ι] [Nontrivial ι] (hm : 0 < m) (ha : 0 < a.size) (hd : getHead (d a.start) = .ok [])
    (hlast : a.start + a.size + LOGSIZE ≤ 2 ^ 32) : NoPanic ι a d m ↔ m < MAXOPBLOCKS ∧ MAXOPBLOCKS + 2 * m < a.size - 1 := by
  have hM : MAXOPBLOCKS = 10 := rfl
  have hL : LOGSIZE = 30 := rfl
  constructor
  · intro H
    obtain ⟨i, j, hij⟩ := exists_pair_ne ι
    have hhome : ∀ b, b < LOGSIZE → a.Home (a.start + a.size + b) := fun b hb => ⟨Or.inr (by omega), by omega⟩
    obtain ⟨s, hR, h⟩ := exists_filled (ι := ι) H (a.start + a.size) hd
    -- `i` makes ten calls of one block while `j` is in a call, then both write all they may
    obtain ⟨s, hR, h⟩ := h.beginOp H hR (i := j) rfl (by decide)
    obtain ⟨s, hR, h⟩ := h.calls_of_one H hm MAXOPBLOCKS hR (i := i) (by simp [hij]) (by decide) fun b hb => hhome b (by omega)
    obtain ⟨s, hR, h⟩ := h.beginOp H hR (i := i) (by simp [hij]) (by decide)
    obtain ⟨s, bs, hR, h, -, hbs, hmem⟩ := h.logWrites H (min m MAXOPBLOCKS) hR (i := i) (Function.update_self ..)
      (by rw [Finset.card_empty]; omega) fun b _ hb => hhome b (by omega)
    obtain ⟨s, bs', hR, h, -⟩ := h.logWrites H (min m MAXOPBLOCKS) hR (i := j)
      (show update (update (update (fun _ => none) j (some ∅)) i (some ∅)) i (some bs) j = some ∅ by simp [hij.symm])
      (by rw [Finset.card_empty]; omega) fun b _ hb => hhome b (by omega)
    -- and `i` writes a block again
    have hi : update (update (update (update (fun _ => none) j (some ∅)) i (some ∅)) i (some bs)) j (some bs') i = some bs := by
      rw [Function.update_of_ne hij, Function.update_self]
    have hagain := h.room H hR hi (b := a.start + a.size + (0 + MAXOPBLOCKS)) (by
      rw [Finset.insert_eq_of_mem (hmem (by omega))]
      rw [Finset.card_empty] at hbs
      omega) (hhome _ (by omega))
    omega
  · rintro ⟨hlt, hsize⟩ es hes hP
    have hI := (boot_inv (ι := ι) ha hd).1
    have hrun := run_sat (fun s e (hs : Inv a s ∧ (s.pc = .idle → Budget m s)) (he : e.Home a ∧ Modest m s e) =>
      step_sat hlt hsize hs.1 hs.2 he.1 he.2) es ⟨hI, nofun⟩ (along_and (along_of_mem hes) hP)
    cases hs : run (step a) (State.boot d) es with
    | ok s' => exact ⟨s', rfl⟩
    | error x =>
      rw [hs] at hrun
      exact hrun.elim

/-- In the log that `mkfs` makes there is room for calls of nine blocks, and not for calls of ten. -/
theorem no_panic_iff_mkfs : NoPanic (Fin 64) ⟨2, LOGSIZE⟩ (fun _ _ => 0) (MAXOPBLOCKS - 1) ∧
    ¬ NoPanic (Fin 64) ⟨2, LOGSIZE⟩ (fun _ _ => 0) MAXOPBLOCKS :=
  ⟨(no_panic_iff (by decide) (by decide) rfl (by decide)).mpr (by decide),
    fun h => absurd ((no_panic_iff (by decide) (by decide) rfl (by decide)).mp h).1 (lt_irrefl _)⟩

end Log
end Xv6
end OsLabs
