/-
# A table of processes

Processes are numbered in the order in which they were created, and keep their entries when they have
ended. A step changes the entry of one process and may add a child behind the last entry (`next`).

A quantity that is spread over the processes is the `total` of a weight, and the step rule for it
is `total_conserve`. `Family` is what fork and wait keep of the tree of processes: whoever is
alive is awaited by its parent. So no process outlives the first one (`Family.all_dead`), and while that one is alive
there is a process that nobody alive keeps waiting (`Family.exists_last`).

Key definitions: `next`, `total`, `Family`.
-/
import Mathlib

namespace OsLabs
namespace Processes

variable {α M : Type*} {ps : List α} {p p' q : α} {child : Option α} {i j c : ℕ}

/-- Process `i` is now `p'`, and has forked `child`. -/
def next (ps : List α) (i : ℕ) (p' : α) (child : Option α) : List α := ps.set i p' ++ child.toList

theorem next_length (ps : List α) (i : ℕ) (p' : α) (child : Option α) :
    (next ps i p' child).length = ps.length + child.toList.length := by simp [next]

theorem lt_length (hp : ps[i]? = some p) : i < ps.length := (List.getElem?_eq_some_iff.mp hp).1

theorem next_self (hp : ps[i]? = some p) : (next ps i p' child)[i]? = some p' := by
  have hi := lt_length hp
  rw [next, List.getElem?_append_left (by simpa using hi), List.getElem?_set_self hi]

theorem next_other (hji : j ≠ i) (hq : ps[j]? = some q) : (next ps i p' child)[j]? = some q := by
  have hj := lt_length hq
  rw [next, List.getElem?_append_left (by simpa using hj), List.getElem?_set_ne hji.symm, hq]

theorem next_child : (next ps i p' (some q))[ps.length]? = some q := by
  simp [next]

/-- An entry is that of the process, that of another one, or its child's. -/
theorem next_cases (hq : (next ps i p' child)[j]? = some q) :
    j = i ∧ q = p' ∨ j ≠ i ∧ ps[j]? = some q ∨ j = ps.length ∧ child = some q := by
  unfold next at hq
  rcases lt_or_ge j ps.length with hj | hj
  · rw [List.getElem?_append_left (by simpa using hj)] at hq
    by_cases hji : j = i
    · subst hji
      rw [List.getElem?_set_self hj] at hq
      exact Or.inl ⟨rfl, (Option.some.inj hq).symm⟩
    · rw [List.getElem?_set_ne (Ne.symm hji)] at hq
      exact Or.inr (Or.inl ⟨hji, hq⟩)
  · rw [List.getElem?_append_right (by simpa using hj), List.length_set] at hq
    obtain ⟨hlt, hget⟩ := List.getElem?_eq_some_iff.mp hq
    cases child with
    | none => exact absurd hlt (Nat.not_lt_zero _)
    | some r =>
      have h0 : j - ps.length = 0 := by simpa using hlt
      simp only [h0, Option.toList_some, List.getElem_cons_zero] at hget
      exact Or.inr (Or.inr ⟨by omega, congrArg some hget⟩)

/-- What is asked of every entry. -/
theorem next_forall {Q : α → Prop} (hps : ∀ q ∈ ps, Q q) (hp' : Q p') (hchild : ∀ q, child = some q → Q q) :
    ∀ q ∈ next ps i p' child, Q q := by
  intro q hq
  obtain ⟨j, hj⟩ := List.mem_iff_getElem?.mp hq
  rcases next_cases hj with ⟨-, rfl⟩ | ⟨-, h⟩ | ⟨-, h⟩
  · exact hp'
  · exact hps q (List.mem_of_getElem? h)
  · exact hchild q h

/-! ### Totals -/

section

variable [AddCommMonoid M]

/-- The weights of all processes. -/
def total (w : α → M) (ps : List α) : M := (ps.map w).sum

@[simp] theorem total_nil (w : α → M) : total w [] = 0 := rfl

@[simp] theorem total_cons (w : α → M) (p : α) (ps : List α) : total w (p :: ps) = w p + total w ps := by simp [total]

@[simp] theorem total_append (w : α → M) (ps qs : List α) : total w (ps ++ qs) = total w ps + total w qs := by simp [total]

theorem total_set (w : α → M) : ∀ {ps : List α} {i : ℕ}, ps[i]? = some p → total w (ps.set i p') + w p = total w ps + w p'
  | [], _, h => by simp at h
  | _ :: ps, 0, h => by
    cases h
    simp only [List.set_cons_zero, total_cons]
    abel
  | q :: ps, i + 1, h => by
    have ih : total w (ps.set i p') + w p = total w ps + w p' := total_set w (by simpa using h)
    rw [List.set_cons_succ, total_cons, total_cons, add_assoc, ih, add_assoc]

theorem total_next (w : α → M) (p' : α) (child : Option α) (hp : ps[i]? = some p) :
    total w (next ps i p' child) + w p = total w ps + (w p' + total w child.toList) := by
  rw [next, total_append, add_right_comm, total_set w hp, add_assoc]

theorem total_eq_zero {w : α → M} (h : ∀ p ∈ ps, w p = 0) : total w ps = 0 := by
  induction ps with
  | nil => rfl
  | cons p ps ih =>
    rw [total_cons, h p (List.mem_cons_self ..), ih fun q hq => h q (List.mem_cons_of_mem _ hq), add_zero]

end

section

variable [AddCancelCommMonoid M] {w : α → M}

/-- **The step rule for totals.** What the process and its child no longer have, something else has gained. -/
theorem total_conserve {a b : M} (hp : ps[i]? = some p) (h : b + (w p' + total w child.toList) = a + w p) :
    b + total w (next ps i p' child) = a + total w ps := by
  refine add_right_cancel (b := w p) ?_
  rw [add_assoc, total_next w p' child hp, add_left_comm, h, add_right_comm, add_comm]

/-- Steps that give nothing of the weight to anything else: without a child, and with one. -/
theorem total_goes (w : α → M) (p' : α) (hp : ps[i]? = some p) (h : w p' = w p) :
    total w (next ps i p' none) = total w ps := by
  have hzero : 0 + total w (next ps i p' none) = 0 + total w ps := total_conserve hp (by simpa using h)
  simpa using hzero

theorem total_forks (w : α → M) (hp : ps[i]? = some p) (h : w p' + w q = w p) :
    total w (next ps i p' (some q)) = total w ps := by
  have hzero : 0 + total w (next ps i p' (some q)) = 0 + total w ps := total_conserve hp (by simpa using h)
  simpa using hzero

end

theorem total_le_total {w w' : α → ℕ} (h : ∀ p, w p ≤ w' p) (ps : List α) : total w ps ≤ total w' ps :=
  List.sum_le_sum fun p _ => h p

theorem card_total {β : Type*} (w : α → Multiset β) (ps : List α) :
    (total w ps).card = total (fun p => (w p).card) ps := by
  induction ps with
  | nil => rfl
  | cons p ps ih => simp [ih]

theorem exists_of_total_pos (w : α → ℕ) (ps : List α) (h : 0 < total w ps) : ∃ (i : ℕ) (p : α), ps[i]? = some p ∧ 0 < w p := by
  by_contra hn
  push Not at hn
  have hzero : total w ps = 0 := total_eq_zero fun p hp => by
    obtain ⟨i, hi⟩ := List.mem_iff_getElem?.mp hp
    exact Nat.le_zero.mp (hn i p hi)
  omega

/-- Processes that each have a partner of their own among others are not more than these. -/
theorem total_le_of_partner {F G : α → Prop} [DecidablePred F] [DecidablePred G] (partner : ℕ → ℕ)
    (h : ∀ (i : ℕ) (p : α), ps[i]? = some p → F p → ∃ q, ps[partner i]? = some q ∧ G q)
    (hinj : ∀ (i j : ℕ) (p q : α), ps[i]? = some p → ps[j]? = some q → F p → F q → partner i = partner j → i = j) :
    total (fun p => if F p then 1 else 0) ps ≤ total (fun p => if G p then 1 else 0) ps := by
  have hcard : ∀ (H : α → Prop) [DecidablePred H], total (fun p => if H p then 1 else 0) ps =
      (Finset.univ.filter fun i : Fin ps.length => H ps[i.1]).card := fun H _ => by
    rw [total, Finset.card_filter, ← Fin.sum_univ_fun_getElem]
  have hget : ∀ i : Fin ps.length, ps[i.1]? = some ps[i.1] := fun i => List.getElem?_eq_getElem i.2
  have hpartner : ∀ i : Fin ps.length, F ps[i.1] → ∃ hlt : partner i < ps.length, G ps[partner i] := fun i hF => by
    obtain ⟨q, hq, hG⟩ := h i _ (hget i) hF
    obtain ⟨hlt, rfl⟩ := List.getElem?_eq_some_iff.mp hq
    exact ⟨hlt, hG⟩
  rw [hcard F, hcard G]
  refine Finset.card_le_card_of_injOn (fun i => if hlt : partner i < ps.length then ⟨partner i, hlt⟩ else i)
    (fun i hi => ?_) fun i hi j hj hij => ?_
  · obtain ⟨hlt, hG⟩ := hpartner i (by simpa using hi)
    simpa [hlt] using hG
  · have hFi : F ps[i.1] := by simpa using hi
    have hFj : F ps[j.1] := by simpa using hj
    obtain ⟨hlti, -⟩ := hpartner i hFi
    obtain ⟨hltj, -⟩ := hpartner j hFj
    simp only [dif_pos hlti, dif_pos hltj, Fin.mk.injEq] at hij
    exact Fin.ext (hinj i j _ _ (hget i) (hget j) hFi hFj hij)

/-! ### Parents and children -/

/-- Who is alive is awaited by its parent, which was there before it, and who has ended waits for nobody. -/
structure Family (parent : α → ℕ) (awaits : α → List ℕ) (Alive : α → Prop) (ps : List α) : Prop where
  awaited : ∀ (c : ℕ) (p : α), ps[c]? = some p → Alive p → c ≠ 0 → ∃ q, ps[parent p]? = some q ∧ c ∈ awaits q
  later : ∀ (i : ℕ) (p : α), ps[i]? = some p → ∀ c ∈ awaits p, i < c ∧ c < ps.length
  ended : ∀ (i : ℕ) (p : α), ps[i]? = some p → ¬ Alive p → awaits p = []

namespace Family

variable {parent : α → ℕ} {awaits : α → List ℕ} {Alive : α → Prop}

theorem parent_alive (h : Family parent awaits Alive ps) (hp : ps[c]? = some p) (ha : Alive p) (hc : c ≠ 0) :
    ∃ q, ps[parent p]? = some q ∧ parent p < c ∧ Alive q := by
  obtain ⟨q, hq, hmem⟩ := h.awaited c p hp ha hc
  refine ⟨q, hq, (h.later _ q hq c hmem).1, ?_⟩
  by_contra hn
  rw [h.ended _ q hq hn] at hmem
  exact absurd hmem List.not_mem_nil

/-- No process outlives the first one. -/
theorem all_dead (h : Family parent awaits Alive ps) {root : α} (hroot : ps[0]? = some root) (hdead : ¬ Alive root) :
    ∀ (c : ℕ) (p : α), ps[c]? = some p → ¬ Alive p := by
  intro c
  induction c using Nat.strong_induction_on with
  | _ c ih =>
    intro p hp ha
    by_cases hc : c = 0
    · subst hc
      rw [hroot] at hp
      exact hdead (Option.some.inj hp ▸ ha)
    · obtain ⟨q, hq, hlt, hqa⟩ := h.parent_alive hp ha hc
      exact ih _ hlt q hq hqa

/-- Of the processes that are alive, the last one waits for nobody who is. -/
theorem exists_last (h : Family parent awaits Alive ps) (hp : ps[i]? = some p) (ha : Alive p) :
    ∃ (j : ℕ) (q : α), ps[j]? = some q ∧ Alive q ∧ ∀ c ∈ awaits q, ∃ r, ps[c]? = some r ∧ ¬ Alive r := by
  by_contra hn
  push Not at hn
  -- whoever is alive waits for a later one that is
  have hclimb : ∀ n i p, ps.length - i = n → ps[i]? = some p → Alive p → False := by
    intro n
    induction n using Nat.strong_induction_on with
    | _ n ih =>
      intro i p hlen hp ha
      obtain ⟨c, hc, hall⟩ := hn i p hp ha
      obtain ⟨hlt, hclen⟩ := h.later i p hp c hc
      have hget := List.getElem?_eq_getElem hclen
      exact ih _ (by omega) c _ rfl hget (hall _ hget)
  exact hclimb _ i p rfl hp ha

/-- A step of a process that is alive: it may stop waiting for those that have ended, and waits for its child. -/
theorem next (h : Family parent awaits Alive ps) (hp : ps[i]? = some p) (ha : Alive p) (hparent : parent p' = parent p)
    (hkeep : ∀ c ∈ awaits p, c ∈ awaits p' ∨ ∀ q, ps[c]? = some q → ¬ Alive q)
    (hsub : ∀ c ∈ awaits p', c ∈ awaits p ∨ child.isSome = true ∧ c = ps.length) (hended : ¬ Alive p' → awaits p' = [])
    (hchild : ∀ q, child = some q → parent q = i ∧ awaits q = [] ∧ ps.length ∈ awaits p') :
    Family parent awaits Alive (next ps i p' child) := by
  have hi := lt_length hp
  have hlen := next_length ps i p' child
  refine ⟨fun c q hq hqa hc => ?_, fun j q hq c hc => ?_, fun j q hq hqa => ?_⟩
  · rcases next_cases hq with ⟨rfl, rfl⟩ | ⟨hci, hq⟩ | ⟨rfl, rfl⟩
    · obtain ⟨r, hr, hmem⟩ := h.awaited c p hp ha hc
      have hlt := (h.later _ r hr c hmem).1
      rw [hparent]
      exact ⟨r, next_other (by omega) hr, hmem⟩
    · obtain ⟨r, hr, hmem⟩ := h.awaited c q hq hqa hc
      by_cases hri : parent q = i
      · rw [hri] at hr ⊢
        rw [hp] at hr
        cases hr
        refine ⟨p', next_self hp, (hkeep c hmem).resolve_right fun hn => hn q hq hqa⟩
      · exact ⟨r, next_other hri hr, hmem⟩
    · obtain ⟨hpar, -, hmem⟩ := hchild q rfl
      rw [hpar]
      exact ⟨p', next_self hp, hmem⟩
  · rcases next_cases hq with ⟨rfl, rfl⟩ | ⟨hji, hq⟩ | ⟨rfl, rfl⟩
    · rcases hsub c hc with hc | ⟨hsome, rfl⟩
      · have := h.later j p hp c hc
        omega
      · obtain ⟨r, rfl⟩ := Option.isSome_iff_exists.mp hsome
        exact ⟨hi, by simp [hlen]⟩
    · have := h.later j q hq c hc
      omega
    · rw [(hchild q rfl).2.1] at hc
      exact absurd hc List.not_mem_nil
  · rcases next_cases hq with ⟨rfl, rfl⟩ | ⟨-, hq⟩ | ⟨rfl, rfl⟩
    · exact hended hqa
    · exact h.ended j q hq hqa
    · exact (hchild q rfl).2.1

end Family

end Processes
end OsLabs
