/-
# Every `n` ticks

The README's `alarm(n, h)` calls `h` every `n` ticks. The ticks between a
delivery and the one that finds the user stack pointer where it was at the
delivery are not counted, and a word pushed outside the process's own pages
may change what the kernel knows of it. So the period is kept, whatever such
a store hits, exactly if the first tick after each delivery finds the stack
pointer there and all words are pushed inside (`every_n_ticks`).

The induction is over the ticks still to come. Each finds the process
`Counting`, with the ticks since the last multiple of `n` counted, or `Held` by
a handler that was delivered at a multiple of `n`.

Key definitions: `deliveries`, `OnTime`, `Keeps`.
-/
import Mathlib
import OsLabs.Alarm.Machine
import OsLabs.Alarm.Push

namespace OsLabs
namespace Alarm

open Xv6 Run

/-- A user-mode tick: the stores that deliveries to other processes have made outside their own
pages since the last one; the registers, the memory and the size with which the program comes
to it; and what `kalloc` has. -/
structure Tick where
  spills : List (Word × Word)
  tf : Trapframe
  mem : Memory
  sz : Size
  page : Option ℕ

/-- The program comes to the tick. -/
def Proc.come (p : Proc) (t : Tick) : Proc := work p t.tf t.mem t.sz

/-- The program at the tick. -/
def Proc.at (hit : Spill) (p : Proc) (t : Tick) : Proc := (t.spills.foldl (fun p s => hit s.1 s.2 p) p).come t

/-- Where the tick has made the program go on, if it delivered. -/
def Trapped.entered (r : Trapped) : Option Word := if r.delivered then some r.proc.tf.eip else none

/-- What each of the ticks enters. -/
def deliveries (hit : Spill) (k : Kernel) : Proc → List Tick → Except Panic (List (Option Word))
  | _, [] => .ok []
  | p, t :: ts =>
    match trapTimerIn hit k (p.at hit t).tf.cs t.page (p.at hit t) with
    | .ok r => (deliveries hit k r.proc ts).map (r.entered :: ·)
    | .error x => .error x

/-- After `m` ticks, `ts` enter `hand` at the multiples of `n`, and nothing else. -/
def OnTime (hit : Spill) (k : Kernel) (n : ℕ) (hand : Word) (m : ℕ) (p : Proc) (ts : List Tick) : Prop :=
  ∃ ds, deliveries hit k p ts = .ok ds ∧ ∀ i d, ds[i]? = some d → d = if n ∣ m + i + 1 then some hand else none

/-- The word that a delivery at the tick pushes lies in the process's own pages. -/
def Tick.Pushes (t : Tick) : Prop := OwnPages t.sz (t.tf.esp - 4)

/-- After `m` ticks: no other process's delivery stores outside its pages; a word is pushed inside at
the multiples of `n`; at the first of them `kalloc` has a page, unless there is a `saved` one;
and the tick after a multiple finds the stack pointer where it was, if the next multiple is still
to come. -/
structure Keeps (n m : ℕ) (saved : Option Frame) (ts : List Tick) : Prop where
  quiet : ∀ t ∈ ts, t.spills = []
  push : ∀ i t, ts[i]? = some t → n ∣ m + i + 1 → t.Pushes
  page : ∀ i t, ts[i]? = some t → m + i + 1 = n → saved = none → t.page ≠ none
  stack : ∀ i t u, ts[i]? = some t → ts[i + 1]? = some u → n ∣ m + i + 1 → i + 1 + n ≤ ts.length →
    u.tf.esp = t.tf.esp

/-- The next tick finds the stack pointer `e`, if `n` are to come. -/
def Meets (n : ℕ) (e : Word) (ts : List Tick) : Prop := n ≤ ts.length → ∀ u ∈ ts.head?, u.tf.esp = e

variable {hit : Spill} {k : Kernel} {n m : ℕ} {hand : Word} {saved : Option Frame} {p : Proc} {t : Tick} {ts : List Tick}

theorem deliveries_cons (hit : Spill) (k : Kernel) (p : Proc) (t : Tick) (ts : List Tick) :
    deliveries hit k p (t :: ts) =
      match trapTimerIn hit k (p.at hit t).tf.cs t.page (p.at hit t) with
      | .ok r => (deliveries hit k r.proc ts).map (r.entered :: ·)
      | .error x => .error x := rfl

/-- What the ticks enter, one after another. -/
theorem deliveries_cons_ok {ds : List (Option Word)} (hds : deliveries hit k p (t :: ts) = .ok ds) :
    ∃ r ds', trapTimerIn hit k (p.at hit t).tf.cs t.page (p.at hit t) = .ok r ∧
      deliveries hit k r.proc ts = .ok ds' ∧ ds = r.entered :: ds' := by
  rw [deliveries_cons] at hds
  cases hr : trapTimerIn hit k (p.at hit t).tf.cs t.page (p.at hit t) with
  | error x =>
    rw [hr] at hds
    exact absurd hds nofun
  | ok r =>
    rw [hr] at hds
    dsimp only at hds
    cases hrest : deliveries hit k r.proc ts with
    | error x =>
      rw [hrest] at hds
      exact absurd hds nofun
    | ok ds' =>
      rw [hrest] at hds
      exact ⟨r, ds', rfl, hrest, (Except.ok.inj hds).symm⟩

theorem deliveries_length : ∀ (ts : List Tick) {p : Proc} {ds : List (Option Word)},
    deliveries hit k p ts = .ok ds → ds.length = ts.length
  | [], _, ds, hds => by
    obtain rfl := Except.ok.inj hds
    rfl
  | t :: ts, p, ds, hds => by
    obtain ⟨r, ds', -, hrest, rfl⟩ := deliveries_cons_ok hds
    rw [List.length_cons, List.length_cons, deliveries_length ts hrest]

/-- Each of them is entered from some state between the ticks. -/
theorem deliveries_get : ∀ (ts : List Tick) {p : Proc} {ds : List (Option Word)} (i : ℕ) {t : Tick},
    deliveries hit k p ts = .ok ds → ts[i]? = some t →
    ∃ q r, trapTimerIn hit k (Proc.at hit q t).tf.cs t.page (Proc.at hit q t) = .ok r ∧ ds[i]? = some r.entered
  | u :: ts, p, ds, i, t, hds, ht => by
    obtain ⟨r, ds', hr, hrest, rfl⟩ := deliveries_cons_ok hds
    cases i with
    | zero =>
      obtain rfl := Option.some.inj ht
      exact ⟨p, r, hr, rfl⟩
    | succ i => exact deliveries_get ts i hrest ht

theorem onTime_cons : OnTime hit k n hand m p (t :: ts) ↔
    ∃ r, trapTimerIn hit k (p.at hit t).tf.cs t.page (p.at hit t) = .ok r ∧
      r.entered = (if n ∣ m + 1 then some hand else none) ∧ OnTime hit k n hand (m + 1) r.proc ts := by
  constructor
  · rintro ⟨ds, hds, hi⟩
    obtain ⟨r, ds', hr, hrest, rfl⟩ := deliveries_cons_ok hds
    refine ⟨r, hr, hi 0 _ rfl, ds', hrest, fun i d hd => ?_⟩
    have := hi (i + 1) d hd
    rwa [show m + (i + 1) + 1 = m + 1 + i + 1 by omega] at this
  · rintro ⟨r, hr, hfirst, ds, hds, hi⟩
    refine ⟨r.entered :: ds, by simp only [deliveries_cons, hr, hds, Except.map], fun i d hd => ?_⟩
    cases i with
    | zero =>
      obtain rfl := Option.some.inj hd
      exact hfirst
    | succ i =>
      have := hi i d hd
      rwa [show m + 1 + i + 1 = m + (i + 1) + 1 by omega] at this

/-- A tick without the stores of others. -/
theorem Tick.at_quiet (ht : t.spills = []) (hit : Spill) (p : Proc) : p.at hit t = p.come t := by
  unfold Proc.at
  rw [ht, List.foldl_nil]

theorem keeps_cons : Keeps n m saved (t :: ts) ↔
    t.spills = [] ∧ (n ∣ m + 1 → t.Pushes ∧ (m + 1 = n → saved = none → t.page ≠ none) ∧ Meets n t.tf.esp ts) ∧
      Keeps n (m + 1) saved ts := by
  constructor
  · intro h
    refine ⟨h.quiet t (List.mem_cons_self ..), fun hn => ⟨h.push 0 t rfl hn, fun he => h.page 0 t rfl he, fun hlen u hu => ?_⟩,
      fun u hu => h.quiet u (List.mem_cons_of_mem _ hu), ?_, ?_, ?_⟩
    · refine h.stack 0 t u rfl ?_ hn ?_
      · rw [List.getElem?_cons_succ, ← List.head?_eq_getElem?]
        exact hu
      · rw [List.length_cons]
        omega
    · intro i u hu hn
      exact h.push (i + 1) u hu (by rwa [show m + (i + 1) + 1 = m + 1 + i + 1 by omega])
    · intro i u hu hn
      exact h.page (i + 1) u hu (by omega)
    · intro i u v hu hv hn hlen
      refine h.stack (i + 1) u v hu hv ?_ ?_
      · rwa [show m + (i + 1) + 1 = m + 1 + i + 1 by omega]
      · rw [List.length_cons]
        omega
  · rintro ⟨hquiet, hfirst, h⟩
    refine ⟨List.forall_mem_cons.mpr ⟨hquiet, h.quiet⟩, fun i u hu hn => ?_, fun i u hu he => ?_,
      fun i u v hu hv hn hlen => ?_⟩
    · cases i with
      | zero =>
        obtain rfl := Option.some.inj hu
        exact (hfirst hn).1
      | succ i => exact h.push i u hu (by rwa [show m + 1 + i + 1 = m + (i + 1) + 1 by omega])
    · cases i with
      | zero =>
        obtain rfl := Option.some.inj hu
        exact (hfirst (by simp [← he])).2.1 he
      | succ i => exact h.page i u hu (by omega)
    · cases i with
      | zero =>
        obtain rfl := Option.some.inj hu
        refine (hfirst hn).2.2 ?_ v ?_
        · rw [List.length_cons] at hlen
          omega
        · rw [List.getElem?_cons_succ, ← List.head?_eq_getElem?] at hv
          exact hv
      | succ i =>
        refine h.stack i u v hu hv ?_ ?_
        · rwa [show m + 1 + i + 1 = m + (i + 1) + 1 by omega]
        · rw [List.length_cons] at hlen
          omega

/-! ### The two states between ticks -/

/-- The ticks since the last multiple of `n` are counted. -/
structure Counting (n : ℕ) (hand : Word) (m : ℕ) (saved : Option Frame) (p : Proc) : Prop where
  flag : p.alarmInHandler = false
  handler : p.alarmHandler = hand
  interval : p.alarmInterval = n
  ticks : p.alarmTicks = (m % n : ℕ)
  user : usermode p.tf.cs
  page : p.alarmTf = none ↔ m < n ∧ saved = none

/-- The last tick, a multiple of `n`, delivered at the stack pointer `e`. -/
structure Held (n : ℕ) (hand : Word) (m : ℕ) (e : Word) (p : Proc) : Prop where
  flag : p.alarmInHandler = true
  handler : p.alarmHandler = hand
  interval : p.alarmInterval = n
  ticks : p.alarmTicks = 0
  user : usermode p.tf.cs
  multiple : n ∣ m ∧ n ≤ m
  saved : ∃ f, p.alarmTf = some f ∧ f.tf.esp = e

/-- What the next tick needs to know: after the restore, if there is one, it
counts, on top of `m`. -/
structure Ready (n : ℕ) (hand : Word) (m : ℕ) (saved : Option Frame) (q : Proc) : Prop where
  flag : (trapRestore q.tf.cs q).alarmInHandler = false
  handler : q.alarmHandler = hand
  interval : q.alarmInterval = n
  ticks : q.alarmTicks = (m % n : ℕ)
  user : usermode q.tf.cs
  page : q.alarmTf = none ↔ m < n ∧ saved = none

theorem Counting.ready (h : Counting n hand m saved p) (t : Tick) : Ready n hand m saved (p.come t) where
  flag := by
    rw [trapRestore_inHandler]
    exact Bool.and_eq_false_imp.mpr fun hf => absurd (h.flag.symm.trans hf) Bool.false_ne_true
  handler := h.handler
  interval := h.interval
  ticks := h.ticks
  user := h.user
  page := h.page

theorem Held.restores {e : Word} (h : Held n hand m e p) (t : Tick) : Restores p.tf.cs (p.come t) ↔ t.tf.esp = e := by
  obtain ⟨f, hf, rfl⟩ := h.saved
  have hmem : ∀ g, g ∈ (p.come t).alarmTf ↔ g = f := fun g => by
    show g ∈ p.alarmTf ↔ g = f
    rw [hf, Option.mem_some_iff, eq_comm]
  constructor
  · rintro ⟨-, -, g, hg, he⟩
    rw [(hmem g).mp hg] at he
    exact he
  · intro he
    exact ⟨h.flag, h.user, f, (hmem f).mpr rfl, he⟩

theorem Held.ready {e : Word} (h : Held n hand m e p) (he : t.tf.esp = e) (saved : Option Frame) :
    Ready n hand m saved (p.come t) where
  flag := by
    rw [trapRestore_inHandler]
    have hr : Restores (p.come t).tf.cs (p.come t) := (h.restores t).mpr he
    simp [hr]
  handler := h.handler
  interval := h.interval
  ticks := by
    rw [Nat.mod_eq_zero_of_dvd h.multiple.1]
    exact h.ticks
  user := h.user
  page := by
    obtain ⟨f, hf, -⟩ := h.saved
    have hsome : (p.come t).alarmTf = some f := hf
    rw [hsome]
    have := h.multiple.2
    exact iff_of_false nofun fun hlt => by omega

theorem succ_mod (hn : 0 < n) (m : ℕ) : (m + 1) % n = if m % n + 1 = n then 0 else m % n + 1 := by
  have hlt := Nat.mod_lt m hn
  rw [← Nat.mod_add_mod]
  split_ifs with h
  · rw [h, Nat.mod_self]
  · exact Nat.mod_eq_of_lt (by omega)

theorem dvd_succ_iff (hn : 0 < n) (m : ℕ) : n ∣ m + 1 ↔ m % n + 1 = n := by
  rw [Nat.dvd_iff_mod_eq_zero, succ_mod hn]
  by_cases h : m % n + 1 = n
  · rw [if_pos h]
    exact iff_of_true rfl h
  · rw [if_neg h]
    exact iff_of_false (Nat.succ_ne_zero _) h

/-! ### One tick -/

/-- A tick that delivers nothing does the same whatever a store would hit. -/
theorem trapTimerIn_not {cs : BitVec 16} {page : Option ℕ} (hd : ¬ Delivers cs page p) (hit : Spill) :
    trapTimerIn hit k cs page p = trapTimer k cs page p := trapTimerIn_own hit k fun h => absurd h hd

theorem entered_none {cs : BitVec 16} {page : Option ℕ} {r : Trapped} (h : trapTimerIn hit k cs page p = .ok r) :
    r.entered = none ↔ ¬ Delivers cs page p := by
  have hkeeps : ∀ t : Trapped, (trapEnter (t.spill hit)).delivered = t.delivered := fun t => by
    unfold trapEnter Trapped.spill
    split_ifs <;> rfl
  unfold trapTimerIn at h
  rcases trapStore_cases k cs page p with ⟨hd, n, hok, -⟩ | ⟨hd, a, -, hok⟩
  · rw [hok] at h
    obtain rfl := Except.ok.inj h
    exact iff_of_true (if_neg (by rw [hkeeps]; exact Bool.false_ne_true)) hd
  · rw [hok] at h
    cases hs : kstore k p.sz p.mem (p.tf.esp - 4) p.tf.eip with
    | error e =>
      rw [hs] at h
      cases h
    | ok mem =>
      rw [hs] at h
      obtain rfl := Except.ok.inj h
      refine iff_of_false (fun hnone => ?_) (not_not.mpr hd)
      unfold Trapped.entered at hnone
      rw [if_pos (hkeeps _)] at hnone
      exact absurd hnone nofun

/-- If a delivery stores outside, the store may leave a process with another handler. -/
theorem Delivers.strays {cs : BitVec 16} {page : Option ℕ} (hd : Delivers cs page p)
    (hown : ¬ OwnPages p.sz (p.tf.esp - 4)) (k : Kernel) (hand : Word) :
    ∃ hit : Spill, ∀ r, trapTimerIn hit k cs page p = .ok r → r.entered ≠ some hand := by
  refine ⟨fun _ _ _ => { p with alarmHandler := hand + 1 }, fun r hr => ?_⟩
  by_cases hs : Storable k p.sz (p.tf.esp - 4)
  · obtain ⟨t, ht, hdel, heip⟩ := trapTimerIn_spills hd hown hs { p with alarmHandler := hand + 1 }
    obtain rfl := Except.ok.inj (ht.symm.trans hr)
    unfold Trapped.entered
    rw [if_pos hdel, heip]
    intro heq
    have : hand + 1 = hand := Option.some.inj heq
    bv_omega
  · exact absurd ((trapTimerIn_traps _ hd hs).symm.trans hr) nofun

/-- A counted tick: between the multiples of `n` it counts on, and at one it delivers
if there is a page and the word can be pushed. -/
theorem Ready.tick (hn : 0 < n) {q : Proc} (h : Ready n hand m saved q) (page : Option ℕ) :
    (¬ n ∣ m + 1 ∧ ∃ q', (∀ hit, trapTimerIn hit k q.tf.cs page q = .ok ⟨q', [], false⟩) ∧
      Counting n hand (m + 1) saved q') ∨
    (n ∣ m + 1 ∧ (m + 1 = n ∧ saved = none ∧ page = none) ∧
      ∃ q', ∀ hit, trapTimerIn hit k q.tf.cs page q = .ok ⟨q', [], false⟩) ∨
    (n ∣ m + 1 ∧ ¬ (m + 1 = n ∧ saved = none ∧ page = none) ∧
      ((¬ OwnPages q.sz (q.tf.esp - 4) ∧ ∃ hit, ∀ r, trapTimerIn hit k q.tf.cs page q = .ok r → r.entered ≠ some hand) ∨
       (OwnPages q.sz (q.tf.esp - 4) ∧ ∃ r, (∀ hit, trapTimerIn hit k q.tf.cs page q = .ok r) ∧
         r.entered = some hand ∧ Held n hand (m + 1) q.tf.esp r.proc))) := by
  obtain ⟨-, -, hint, -, hhand, htf⟩ := trapRestore_fields q.tf.cs q
  obtain ⟨-, -, hesp, hcs⟩ := trapRestore_tf q.tf.cs q
  have hlt := Nat.mod_lt m hn
  have hcount : Counts q.tf.cs q := by
    refine ⟨h.user, by rw [h.flag]; exact Bool.false_ne_true, ?_⟩
    rw [h.interval]
    omega
  have hdue : q.alarmInterval ≤ q.alarmTicks + 1 ↔ n ∣ m + 1 := by
    rw [h.interval, h.ticks, dvd_succ_iff hn]
    omega
  have hpage : ((q.alarmTf.map Frame.page).or page).isSome ↔ ¬ ((m < n ∧ saved = none) ∧ page = none) := by
    rw [← h.page]
    cases q.alarmTf <;> cases page <;> simp
  have hfirst : n ∣ m + 1 → (m < n ↔ m + 1 = n) := fun hd => by
    constructor
    · intro hmn
      have := Nat.le_of_dvd (Nat.succ_pos m) hd
      omega
    · omega
  rcases trapTimer_cases k q.tf.cs page q with ⟨hno, c, hok, -, hc⟩ | ⟨hd, a, -, hok⟩
  · have hc := hc hcount
    have hok' : ∀ hit, trapTimerIn hit k q.tf.cs page q = .ok ⟨{ trapRestore q.tf.cs q with alarmTicks := c }, [], false⟩ :=
      fun hit => (trapTimerIn_not hno hit).trans hok
    by_cases hm : n ∣ m + 1
    · refine Or.inr (Or.inl ⟨hm, ?_, _, hok'⟩)
      have hnone : ¬ ((q.alarmTf.map Frame.page).or page).isSome := fun hs => hno ⟨hcount, hdue.mpr hm, hs⟩
      rw [hpage, not_not] at hnone
      exact ⟨(hfirst hm).mp hnone.1.1, hnone.1.2, hnone.2⟩
    · refine Or.inl ⟨hm, _, hok', h.flag, hhand.trans h.handler, by rw [← h.interval, ← hint], ?_, ?_, ?_⟩
      · show c = _
        rw [hc, if_neg (mt hdue.mp hm), h.ticks, succ_mod hn, if_neg (mt (dvd_succ_iff hn m).mpr hm)]
        rfl
      · show usermode (trapRestore q.tf.cs q).tf.cs
        rw [hcs]
        exact h.user
      · show (trapRestore q.tf.cs q).alarmTf = none ↔ _
        rw [htf, h.page]
        have : m + 1 ≠ n := fun he => hm (by rw [he])
        exact and_congr_left fun _ => by omega
  · have hm := hdue.mp hd.2.1
    refine Or.inr (Or.inr ⟨hm, fun hnone => ?_, ?_⟩)
    · have hmn := (hfirst hm).mpr hnone.1
      exact hpage.mp hd.2.2 ⟨⟨hmn, hnone.2.1⟩, hnone.2.2⟩
    · by_cases hown : OwnPages q.sz (q.tf.esp - 4)
      · rw [kstore_own k hown] at hok
        refine Or.inr ⟨hown, _, fun hit => (trapTimerIn_own hit k fun _ => hown).trans hok, ?_, rfl, hhand.trans h.handler,
          hint.trans h.interval, rfl, ?_, ⟨hm, Nat.le_of_dvd (Nat.succ_pos m) hm⟩, _, rfl, hesp⟩
        · exact congrArg some h.handler
        · show usermode (trapRestore q.tf.cs q).tf.cs
          rw [hcs]
          exact h.user
      · exact Or.inl ⟨hown, hd.strays hown k hand⟩

variable (hit k) in
/-- A tick counts one at most, and delivers nothing before the count is full. -/
theorem slow_tick {c : ℕ} (cs : BitVec 16) (page : Option ℕ) (hint : p.alarmInterval = n) (hc : p.alarmTicks ≤ c)
    (hlt : c + 1 < n) : ∃ q, trapTimerIn hit k cs page p = .ok ⟨q, [], false⟩ ∧ q.alarmInterval = n ∧
      q.alarmTicks ≤ (c + 1 : ℕ) := by
  rcases trapTimer_cases k cs page p with ⟨hd, x, hok, hno, hyes⟩ | ⟨hd, -⟩
  · refine ⟨_, (trapTimerIn_not hd hit).trans hok, (trapRestore_fields cs p).2.2.1.trans hint, ?_⟩
    show x ≤ _
    by_cases hcount : Counts cs p
    · rw [hyes hcount]
      split_ifs <;> omega
    · rw [hno hcount]
      omega
  · have := hd.2.1
    omega

/-- The stores of others keep no process on time, whatever came before: they may arm it or
disarm it. -/
theorem not_onTime_spill {i : ℕ} (ht : ts[i]? = some t) (hs : t.spills ≠ []) : ¬ ∀ hit, OnTime hit k n hand m p ts := by
  intro hon
  have hat : ∀ bad q, Proc.at (fun _ _ _ => bad) q t = bad.come t := fun bad q => by
    unfold Proc.at
    rw [← List.dropLast_append_getLast hs, List.foldl_append]
    rfl
  have hbad : ∀ bad : Proc, Delivers bad.tf.cs t.page (bad.come t) ↔ n ∣ m + i + 1 := fun bad => by
    obtain ⟨ds, hds, hi⟩ := hon fun _ _ _ => bad
    obtain ⟨q, r, hr, hget⟩ := deliveries_get ts i hds ht
    rw [hat] at hr
    have hentered := entered_none hr
    rw [hi i _ hget] at hentered
    have hif : (if n ∣ m + i + 1 then some hand else none) = none ↔ ¬ n ∣ m + i + 1 := by
      split_ifs with hm <;> simp [hm]
    exact (not_iff_not.mp (hentered.symm.trans hif))
  -- One process that the tick cannot enter, and one that it enters.
  have hoff := hbad ⟨⟨0, by decide⟩, fun _ => 0, t.tf, 0, 0, 0, false, none⟩
  have hon := hbad ⟨⟨0, by decide⟩, fun _ => 0, { t.tf with cs := 3 }, 1, 0, 0, false, some ⟨0, t.tf⟩⟩
  have hnot : ¬ n ∣ m + i + 1 := mt hoff.mpr fun hd => absurd hd.1.2.2 (lt_irrefl _)
  have huser : usermode 3 := by decide
  refine hnot (hon.mp ⟨⟨huser, ?_, one_pos⟩, le_rfl, rfl⟩)
  rw [trapRestore_of_not fun h => absurd h.1 Bool.false_ne_true]
  exact Bool.false_ne_true

/-! ### All ticks -/

variable (hit k) in
/-- The tick of a held process that does not find the stack pointer is not counted. -/
theorem Held.lost {e : Word} (h : Held n hand m e p) (he : t.tf.esp ≠ e) :
    ∃ q, trapTimerIn hit k p.tf.cs t.page (p.come t) = .ok ⟨q, [], false⟩ ∧ q.alarmInterval = n ∧ q.alarmTicks = 0 := by
  have hr : ¬ Restores p.tf.cs (p.come t) := mt (h.restores t).mp he
  have hc : ¬ Counts p.tf.cs (p.come t) := by
    rintro ⟨-, hflag, -⟩
    rw [trapRestore_of_not hr] at hflag
    exact hflag h.flag
  rcases trapTimer_cases k p.tf.cs t.page (p.come t) with ⟨hd, x, hok, hno, -⟩ | ⟨hd, -⟩
  · exact ⟨_, (trapTimerIn_not hd hit).trans hok, (trapRestore_fields _ _).2.2.1.trans h.interval, (hno hc).trans h.ticks⟩
  · exact absurd hd.1 hc

variable (hit k) in
/-- With `c` ticks counted at most, fewer than `n` ticks in all deliver nothing. -/
theorem slow : ∀ (ts : List Tick) {p : Proc} {c : ℕ}, (∀ t ∈ ts, t.spills = []) → p.alarmInterval = n → p.alarmTicks ≤ c →
    (c + ts.length < n → ∃ ds, deliveries hit k p ts = .ok ds) ∧
    ∀ ds, deliveries hit k p ts = .ok ds → ∀ i d, ds[i]? = some d → c + i + 1 < n → d = none
  | [], _, _, _, _, _ => by
    refine ⟨fun _ => ⟨[], rfl⟩, fun ds hds i d hd => ?_⟩
    obtain rfl := Except.ok.inj hds
    exact absurd hd nofun
  | t :: ts, p, c, hq, hint, hc => by
    obtain ⟨hqt, hq⟩ := List.forall_mem_cons.mp hq
    by_cases hlt : c + 1 < n
    · obtain ⟨q, hok, hint', hc'⟩ := slow_tick hit k (p := p.come t) p.tf.cs t.page hint hc hlt
      obtain ⟨hgo, hno⟩ := slow ts hq hint' hc'
      constructor
      · intro hlen
        rw [List.length_cons] at hlen
        obtain ⟨ds, hds⟩ := hgo (by omega)
        refine ⟨none :: ds, ?_⟩
        rw [deliveries_cons, Tick.at_quiet hqt]
        show (match trapTimerIn hit k p.tf.cs t.page (p.come t) with | .ok r => _ | .error x => _) = _
        rw [hok]
        simp only [hds, Except.map]
        rfl
      · intro ds hds i d hd hi
        obtain ⟨r, ds', hr, hrest, rfl⟩ := deliveries_cons_ok hds
        rw [Tick.at_quiet hqt] at hr
        obtain rfl := Except.ok.inj (hok.symm.trans hr)
        cases i with
        | zero => exact (Option.some.inj hd).symm
        | succ i => exact hno ds' hrest i d hd (by omega)
    · refine ⟨fun hlen => ?_, fun ds _ i d _ hi => ?_⟩
      · rw [List.length_cons] at hlen
        omega
      · omega

/-- Too few ticks for the next multiple of `n` after `m`. -/
theorem dvd_far {i : ℕ} (hm : n ∣ m) (hi : i + 1 < n) : ¬ n ∣ m + i + 1 := by
  rw [Nat.add_assoc, Nat.dvd_add_right hm]
  intro h
  have := Nat.le_of_dvd (Nat.succ_pos i) h
  omega

/-- From a held process on, fewer than `n` ticks are on time and keep. -/
theorem Held.short {e : Word} (h : Held n hand m e p) (hq : ∀ t ∈ ts, t.spills = []) (hlen : ts.length < n)
    (saved : Option Frame) : (∀ hit, OnTime hit k n hand m p ts) ∧ Keeps n m saved ts := by
  have hfar : ∀ i t, ts[i]? = some t → ¬ n ∣ m + i + 1 := fun i t ht => by
    have := (List.getElem?_eq_some_iff.mp ht).1
    exact dvd_far h.multiple.1 (by omega)
  refine ⟨fun hit => ?_, hq, ?_, ?_, ?_⟩
  · have hslow := slow hit k ts (c := 0) hq h.interval (by rw [h.ticks]; exact le_rfl)
    obtain ⟨ds, hds⟩ := hslow.1 (by omega)
    refine ⟨ds, hds, fun i d hd => ?_⟩
    have hi := (List.getElem?_eq_some_iff.mp hd).1
    rw [deliveries_length ts hds] at hi
    rw [hslow.2 ds hds i d hd (by omega), if_neg (dvd_far h.multiple.1 (by omega))]
  · exact fun i t ht hn => absurd hn (hfar i t ht)
  · intro i t ht he
    have := h.multiple.2
    omega
  · exact fun i t u ht _ hn _ => absurd hn (hfar i t ht)

/-- A held process that misses its first tick misses the next multiple of `n`. -/
theorem Held.late {e : Word} (hn : 0 < n) (h : Held n hand m e p) (hq : ∀ u ∈ t :: ts, u.spills = []) (he : t.tf.esp ≠ e)
    (hlen : n ≤ ts.length + 1) : ¬ OnTime hit k n hand m p (t :: ts) := by
  obtain ⟨hqt, hq⟩ := List.forall_mem_cons.mp hq
  obtain ⟨q, hok, hint, hc⟩ := h.lost hit k he
  rw [onTime_cons, Tick.at_quiet hqt]
  rintro ⟨r, hr, hfirst, ds, hds, hi⟩
  obtain rfl := Except.ok.inj (hok.symm.trans hr)
  have hmulti : n ∣ m + n := (Nat.dvd_add_right h.multiple.1).mpr dvd_rfl
  rcases Nat.lt_or_ge 1 n with h1 | h1
  · have hget : n - 2 < ds.length := by
      rw [deliveries_length ts hds]
      omega
    have hnone := (slow hit k ts (c := 0) hq hint (by rw [hc]; exact le_rfl)).2 ds hds (n - 2) _
      (List.getElem?_eq_getElem hget) (by omega)
    have hsome := hi (n - 2) _ (List.getElem?_eq_getElem hget)
    rw [if_pos (by rwa [show m + 1 + (n - 2) + 1 = m + n by omega]), hnone] at hsome
    exact absurd hsome nofun
  · obtain rfl : n = 1 := by omega
    rw [if_pos (one_dvd _)] at hfirst
    exact absurd hfirst nofun

/-- A counted tick, given what is known of the ticks after it. -/
theorem Ready.onTime (hn : 0 < n) (hqt : t.spills = []) (h : Ready n hand m saved (p.come t))
    (hcounting : ∀ q, Counting n hand (m + 1) saved q →
      ((∀ hit, OnTime hit k n hand (m + 1) q ts) ↔ Keeps n (m + 1) saved ts))
    (hheld : ∀ q, Held n hand (m + 1) t.tf.esp q →
      ((∀ hit, OnTime hit k n hand (m + 1) q ts) ↔ Keeps n (m + 1) saved ts ∧ Meets n t.tf.esp ts)) :
    (∀ hit, OnTime hit k n hand m p (t :: ts)) ↔ Keeps n m saved (t :: ts) := by
  have hcons : ∀ hit, OnTime hit k n hand m p (t :: ts) ↔
      ∃ r, trapTimerIn hit k (p.come t).tf.cs t.page (p.come t) = .ok r ∧
        r.entered = (if n ∣ m + 1 then some hand else none) ∧ OnTime hit k n hand (m + 1) r.proc ts := fun hit => by
    rw [onTime_cons, Tick.at_quiet hqt]
  simp only [hcons, keeps_cons, hqt, true_and]
  rcases h.tick (k := k) hn t.page with
    ⟨hm, q, hok, hq⟩ | ⟨hm, hnone, q, hok⟩ | ⟨hm, hsome, ⟨hown, hit, hstray⟩ | ⟨hown, r, hok, hentered, hq⟩⟩
  · simp only [hok, Except.ok.injEq, exists_eq_left', hm, if_false, false_implies, true_and]
    exact (forall_congr' fun hit => and_iff_right rfl).trans (hcounting q hq)
  · refine iff_of_false (fun hon => ?_) fun hk => (hk.1 hm).2.1 hnone.1 hnone.2.1 hnone.2.2
    obtain ⟨r, hr, hfirst, -⟩ := hon fun _ _ p => p
    obtain rfl := Except.ok.inj ((hok _).symm.trans hr)
    rw [if_pos hm] at hfirst
    exact absurd hfirst nofun
  · refine iff_of_false (fun hon => ?_) fun hk => hown (hk.1 hm).1
    obtain ⟨r, hr, hfirst, -⟩ := hon hit
    exact hstray r hr (hfirst.trans (if_pos hm))
  · have hpage : m + 1 = n → saved = none → t.page ≠ none := fun h1 h2 h3 => hsome ⟨h1, h2, h3⟩
    simp only [hok, Except.ok.injEq, exists_eq_left', hm, if_true, hentered, true_and, true_implies]
    rw [hheld r.proc hq]
    constructor
    · rintro ⟨hk, hmeets⟩
      exact ⟨⟨hown, hpage, hmeets⟩, hk⟩
    · rintro ⟨⟨-, -, hmeets⟩, hk⟩
      exact ⟨hk, hmeets⟩

theorem onTime_iff (hn : 0 < n) (saved : Option Frame) : ∀ (ts : List Tick), (∀ t ∈ ts, t.spills = []) → ∀ (m : ℕ) (p : Proc),
    (Counting n hand m saved p → ((∀ hit, OnTime hit k n hand m p ts) ↔ Keeps n m saved ts)) ∧
    ∀ e, Held n hand m e p → ((∀ hit, OnTime hit k n hand m p ts) ↔ Keeps n m saved ts ∧ Meets n e ts) := by
  intro ts
  induction ts with
  | nil =>
    intro hq m p
    have hon : ∀ hit, OnTime hit k n hand m p [] := fun hit => ⟨[], rfl, fun i d hd => absurd hd nofun⟩
    have hkeeps : Keeps n m saved [] := ⟨hq, nofun, nofun, nofun⟩
    have hmeets : ∀ e, Meets n e [] := fun e hlen u hu => absurd hu nofun
    exact ⟨fun _ => iff_of_true hon hkeeps, fun e _ => iff_of_true hon ⟨hkeeps, hmeets e⟩⟩
  | cons t ts ih =>
    intro hq m p
    obtain ⟨hqt, hqts⟩ := List.forall_mem_cons.mp hq
    have hnext : Ready n hand m saved (p.come t) → ((∀ hit, OnTime hit k n hand m p (t :: ts)) ↔ Keeps n m saved (t :: ts)) :=
      fun hready => hready.onTime hn hqt (fun q => (ih hqts (m + 1) q).1) (fun q hq => (ih hqts (m + 1) q).2 _ hq)
    refine ⟨fun h => hnext (h.ready t), fun e h => ?_⟩
    by_cases hlen : n ≤ ts.length + 1
    · have hmeets : Meets n e (t :: ts) ↔ t.tf.esp = e := by
        refine ⟨fun hm => hm hlen t rfl, fun he _ u hu => ?_⟩
        obtain rfl := Option.some.inj hu
        exact he
      by_cases he : t.tf.esp = e
      · rw [hnext (h.ready he saved), hmeets, and_iff_left he]
      · refine iff_of_false (fun hon => ?_) fun hk => he (hmeets.mp hk.2)
        exact h.late hn hq he hlen (hon fun _ _ p => p)
    · have hlt : (t :: ts).length < n := by
        rw [List.length_cons]
        omega
      obtain ⟨hon, hkeeps⟩ := h.short (k := k) hq hlt saved
      refine iff_of_true hon ⟨hkeeps, fun hle => ?_⟩
      omega

/-- A call `alarm(n, h)` starts the count. -/
theorem sysAlarm_counting {h : Word} (hn : 0 < n) (hlt : n < 2 ^ 31) (hargs : alarmArgs p = some (BitVec.ofNat 32 n, h))
    (huser : usermode p.tf.cs) : Counting n h 0 p.alarmTf (sysAlarm p) := by
  have hint : (BitVec.ofNat 32 n).toInt = n := by
    rw [BitVec.toInt_eq_toNat_of_lt (by rw [BitVec.toNat_ofNat]; omega), BitVec.toNat_ofNat, Nat.mod_eq_of_lt (by omega)]
  unfold sysAlarm
  rw [hargs]
  exact ⟨rfl, rfl, hint, by simp, huser, by simp [hn]⟩

/-- **Every `n` ticks.** After `alarm(n, h)`, a process that does not call `alarm` again has
`h` entered at exactly the multiples of `n`, counted in its user-mode ticks, whatever a store
outside the pages of the process that makes it may hit, if and only if there is no such
store of another process, each word that it has pushed itself lies in its own pages, there is a page for
the first frame, and the tick after each multiple, with the next one still to come, finds the stack
pointer where it was. -/
theorem every_n_ticks (k : Kernel) (p : Proc) (n : ℕ) (h : Word) (hn : 0 < n) (hlt : n < 2 ^ 31)
    (hargs : alarmArgs p = some (BitVec.ofNat 32 n, h)) (huser : usermode p.tf.cs) (ts : List Tick) :
    (∀ hit, OnTime hit k n h 0 (sysAlarm p) ts) ↔ Keeps n 0 p.alarmTf ts := by
  by_cases hq : ∀ t ∈ ts, t.spills = []
  · exact (onTime_iff hn p.alarmTf ts hq 0 _).1 (sysAlarm_counting hn hlt hargs huser)
  · refine iff_of_false (fun hon => hq fun t ht => ?_) fun hk => hq hk.quiet
    obtain ⟨i, hi, rfl⟩ := List.getElem_of_mem ht
    by_contra hs
    exact not_onTime_spill (List.getElem?_eq_getElem hi) hs hon

/-- A process about to call `alarm(2, 0x40)`. -/
def calling : Proc :=
  { armed 0x1f00 with
    mem := fun a => if a = 0x1f04 then 2 else if a = 0x1f08 then 0x40 else 0
    alarmInterval := 0 }

/-- A tick at the stack pointer `esp`. -/
def tickAt (esp : Word) : Tick := ⟨[], (armed esp).tf, calling.mem, calling.sz, some 7⟩

/-- A program that stays in one function: its second and its fourth tick deliver, whatever stores outside may hit. -/
theorem every_n_ticks_flat :
    deliveries (fun _ _ p => p) someKernel (sysAlarm calling) (List.replicate 4 (tickAt 0x2000)) =
      .ok [none, some 0x40, none, some 0x40] ∧
    ∀ hit, OnTime hit someKernel 2 0x40 0 (sysAlarm calling) (List.replicate 4 (tickAt 0x2000)) := by
  have hall : ∀ {i t}, (List.replicate 4 (tickAt 0x2000))[i]? = some t → t = tickAt 0x2000 := fun ht =>
    List.eq_of_mem_replicate (List.mem_of_getElem? ht)
  have hkeeps : Keeps 2 0 calling.alarmTf (List.replicate 4 (tickAt 0x2000)) := by
    refine ⟨fun t ht => ?_, fun i t ht _ => ?_, fun i t ht _ _ => ?_, fun i t u ht hu _ _ => ?_⟩
    · rw [List.eq_of_mem_replicate ht]
      rfl
    · rw [hall ht]
      show OwnPages _ _
      decide
    · rw [hall ht]
      exact Option.some_ne_none _
    · rw [hall ht, hall hu]
  exact ⟨by decide +kernel,
    (every_n_ticks someKernel calling 2 0x40 (by decide) (by decide) (by decide +kernel) (by decide) _).mpr hkeeps⟩

/-- A program that is in a function it called when the tick after the delivery comes:
the fourth tick delivers nothing. -/
theorem deeper_late :
    deliveries (fun _ _ p => p) someKernel (sysAlarm calling) [tickAt 0x2000, tickAt 0x2000, tickAt 0x1f00, tickAt 0x2000] =
      .ok [none, some 0x40, none, none] ∧
    ¬ OnTime (fun _ _ p => p) someKernel 2 0x40 0 (sysAlarm calling)
      [tickAt 0x2000, tickAt 0x2000, tickAt 0x1f00, tickAt 0x2000] := by
  have hds : deliveries (fun _ _ p => p) someKernel (sysAlarm calling)
      [tickAt 0x2000, tickAt 0x2000, tickAt 0x1f00, tickAt 0x2000] = .ok [none, some 0x40, none, none] := by decide +kernel
  refine ⟨hds, ?_⟩
  rintro ⟨ds, hok, hi⟩
  obtain rfl := Except.ok.inj (hds.symm.trans hok)
  exact absurd (hi 3 none rfl) (by decide)

end Alarm
end OsLabs
