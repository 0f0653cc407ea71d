/-
# Circular singly linked lists

`next` gives each node of a linked structure its successor. `Links next l z`
says that following `next` through `l` ends at `z`, and `Ring next c l` that
`c :: l` is one cycle: the nodes met when following `next` from `c` back to
`c`, each once. The edits a program makes to such a list are one write to
one node's successor: appending a node before `c` (`Ring.append`), unlinking
one (`Ring.remove`); moving the entry point along the cycle writes nothing
(`Ring.rotate`).
-/
import Mathlib

namespace OsLabs

variable {α : Type*}

/-- Each node of `l` is linked to the one after it, and the last one to `z`. -/
def Links (next : α → Option α) : List α → α → Prop
  | [], _ => True
  | a :: l, z => next a = some (l.headD z) ∧ Links next l z

/-- `c :: l` is the cycle of `next` through `c`. -/
structure Ring (next : α → Option α) (c : α) (l : List α) : Prop where
  links : Links next (c :: l) c
  nodup : (c :: l).Nodup

/-- The node before `x`, in the list that starts at `c` and has `l` before `x`. -/
def before (c : α) (l : List α) : α := l.getLastD c

theorem before_nil (c : α) : before c [] = c := rfl

theorem before_concat (c : α) (l : List α) (x : α) : before c (l ++ [x]) = x := by
  simp [before]

theorem before_mem (c : α) (l : List α) : before c l ∈ c :: l := by
  rcases l.eq_nil_or_concat' with rfl | ⟨l', x, rfl⟩
  · simp [before]
  · simp [before]

theorem links_append {next : α → Option α} : ∀ (l₁ l₂ : List α) (z : α),
    Links next (l₁ ++ l₂) z ↔ Links next l₁ (l₂.headD z) ∧ Links next l₂ z
  | [], l₂, z => by simp [Links]
  | a :: l₁, l₂, z => by
    have hd : (l₁ ++ l₂).headD z = l₁.headD (l₂.headD z) := by cases l₁ <;> rfl
    simp only [List.cons_append, Links, links_append l₁ l₂ z, hd, and_assoc]

theorem links_congr {next next' : α → Option α} : ∀ {l : List α} {z : α},
    (∀ a ∈ l, next' a = next a) → Links next l z → Links next' l z
  | [], _, _, _ => trivial
  | a :: l, z, h, hl => by
    refine ⟨by rw [h a List.mem_cons_self]; exact hl.1, ?_⟩
    exact links_congr (fun b hb => h b (List.mem_cons_of_mem _ hb)) hl.2

/-- Every node of a linked list has a successor. -/
theorem Links.next_isSome {next : α → Option α} : ∀ {l : List α} {z : α}, Links next l z →
    ∀ a ∈ l, (next a).isSome
  | _ :: _, _, h, _, .head _ => by rw [h.1]; rfl
  | _ :: _, _, h, a, .tail _ ha => Links.next_isSome h.2 a ha

namespace Ring

variable {next next' : α → Option α} {c x : α} {l l₁ l₂ : List α}

theorem next_head (h : Ring next c l) : next c = some (l.headD c) := h.links.1

theorem next_isSome (h : Ring next c l) {a : α} (ha : a ∈ c :: l) : (next a).isSome :=
  h.links.next_isSome a ha

/-- The entry point is alone exactly when it is its own successor. -/
theorem next_eq_self (h : Ring next c l) : next c = some c ↔ l = [] := by
  rw [h.next_head]
  cases l with
  | nil => simp
  | cons d l =>
    have : d ≠ c := fun he => (List.nodup_cons.mp h.nodup).1 (he ▸ List.mem_cons_self)
    simp [this]

theorem single (h : next c = some c) : Ring next c [] := ⟨⟨h, trivial⟩, by simp⟩

theorem congr (h : Ring next c l) (hn : ∀ a ∈ c :: l, next' a = next a) : Ring next' c l :=
  ⟨links_congr hn h.links, h.nodup⟩

/-- The cycle seen from the next node on. -/
theorem rotate {d : α} (h : Ring next c (d :: l)) : Ring next d (l ++ [c]) := by
  refine ⟨?_, ?_⟩
  · obtain ⟨h1, h2⟩ := h.links
    rw [← List.cons_append, links_append]
    exact ⟨h2, h1, trivial⟩
  · have hp : (d :: (l ++ [c])).Perm (c :: d :: l) := by
      rw [← List.cons_append]; exact List.perm_append_singleton _ _
    exact hp.nodup_iff.mpr h.nodup

theorem mem_rotate {d a : α} : a ∈ d :: (l ++ [c]) ↔ a ∈ c :: d :: l := by
  simp only [List.mem_cons, List.mem_append, List.not_mem_nil, or_false]
  tauto

/-- The cycle seen from any of its nodes on. -/
theorem reenter (h : Ring next c l) (hx : x ∈ c :: l) :
    ∃ l', Ring next x l' ∧ ∀ a, a ∈ x :: l' ↔ a ∈ c :: l := by
  obtain ⟨l₁, l₂, hl⟩ := List.append_of_mem hx
  induction l₁ generalizing c l l₂ with
  | nil =>
    obtain ⟨rfl, rfl⟩ := List.cons.inj hl
    exact ⟨l, h, fun a => Iff.rfl⟩
  | cons d l₁ ih =>
    obtain ⟨rfl, rfl⟩ := List.cons.inj hl
    cases l₁ with
    | nil => exact ⟨l₂ ++ [c], h.rotate, fun a => mem_rotate⟩
    | cons e l₁ =>
      obtain ⟨l', hl', hm⟩ := ih h.rotate (by simp) (l₂ ++ [c]) (by simp)
      exact ⟨l', hl', fun a => (hm a).trans mem_rotate⟩

/-- The successor of a node is on the cycle. -/
theorem next_mem {a b : α} (h : Ring next c l) (ha : a ∈ c :: l) (hb : next a = some b) : b ∈ c :: l := by
  obtain ⟨l', hl', hm⟩ := h.reenter ha
  rw [hl'.next_head, Option.some.injEq] at hb
  rw [← hm, ← hb]
  cases l' with
  | nil => exact List.mem_cons_self
  | cons d l' => exact List.mem_cons_of_mem _ List.mem_cons_self

/-- The last node before the entry point points back to it. -/
theorem next_before (h : Ring next c l) : next (before c l) = some c := by
  rcases l.eq_nil_or_concat' with rfl | ⟨l', y, rfl⟩
  · exact h.links.1
  · have := h.links
    rw [← List.cons_append, links_append] at this
    rw [before_concat]
    exact this.2.1

/-- In the middle of the cycle: the node before `x` points to `x`, and `x` to
the one after it. -/
theorem next_middle (h : Ring next c (l₁ ++ x :: l₂)) :
    next (before c l₁) = some x ∧ next x = some (l₂.headD c) := by
  have h1 := h.links
  rw [← List.cons_append, links_append] at h1
  refine ⟨?_, h1.2.1⟩
  rcases l₁.eq_nil_or_concat' with rfl | ⟨l', y, rfl⟩
  · exact h1.1.1
  · have h2 := h1.1
    rw [← List.cons_append, links_append] at h2
    rw [before_concat]
    exact h2.2.1

theorem before_ne (h : Ring next c (l₁ ++ x :: l₂)) : before c l₁ ≠ x := by
  intro he
  have hm : x ∈ c :: l₁ := he ▸ before_mem c l₁
  have hn := h.nodup
  rw [← List.cons_append] at hn
  exact (List.nodup_append.mp hn).2.2 x hm x List.mem_cons_self rfl

/-- Two nodes with one successor are the same. -/
theorem next_inj {a b : α} (h : Ring next c l) (ha : a ∈ c :: l) (hb : b ∈ c :: l) (he : next a = next b) : a = b := by
  obtain ⟨l', hl', hm⟩ := h.reenter ha
  rcases List.mem_cons.mp ((hm b).mpr hb) with hab | hbl
  · exact hab.symm
  obtain ⟨l₁, l₂, rfl⟩ := List.append_of_mem hbl
  have hn := hl'.nodup
  rw [hl'.next_head, hl'.next_middle.2, Option.some.injEq] at he
  -- the successor of `a` stands before that of `b`
  cases l₁ with
  | nil =>
    have he : b = l₂.headD a := he
    cases l₂ with
    | nil => exact he.symm
    | cons y l₂ =>
      obtain rfl : b = y := he
      simp at hn
  | cons y l₁ =>
    have he : y = l₂.headD a := he
    cases l₂ with
    | nil =>
      obtain rfl : y = a := he
      simp at hn
    | cons z l₂ =>
      obtain rfl : y = z := he
      simp at hn

/-- **Appending.** A new node that points to `c`, to which `c`'s predecessor is
redirected, joins the cycle last. -/
theorem append (h : Ring next c l) (hx : x ∉ c :: l) (hnew : next' x = some c)
    (hlast : next' (before c l) = some x)
    (hsame : ∀ a ∈ c :: l, a ≠ before c l → next' a = next a) : Ring next' c (l ++ [x]) := by
  refine ⟨?_, ?_⟩
  · rw [← List.cons_append, links_append]
    refine ⟨?_, hnew, trivial⟩
    rcases l.eq_nil_or_concat' with rfl | ⟨l', y, rfl⟩
    · exact ⟨hlast, trivial⟩
    · rw [before_concat] at hlast hsame
      have h1 := h.links
      rw [← List.cons_append, links_append] at h1
      rw [← List.cons_append, links_append]
      refine ⟨links_congr (fun a ha => hsame a ?_ ?_) h1.1, hlast, trivial⟩
      · rw [← List.cons_append]; exact List.mem_append_left _ ha
      · intro he
        have hn := h.nodup
        rw [← List.cons_append] at hn
        exact (List.nodup_append.mp hn).2.2 a ha y (by simp) he
  · have hp : (c :: (l ++ [x])).Perm (x :: c :: l) := by
      rw [← List.cons_append]; exact List.perm_append_singleton _ _
    exact hp.nodup_iff.mpr (List.nodup_cons.mpr ⟨hx, h.nodup⟩)

/-- **Unlinking.** Redirecting `x`'s predecessor to `x`'s successor takes `x`
out of the cycle. -/
theorem remove (h : Ring next c (l₁ ++ x :: l₂)) (hprev : next' (before c l₁) = next x)
    (hsame : ∀ a ∈ c :: (l₁ ++ l₂), a ≠ before c l₁ → next' a = next a) : Ring next' c (l₁ ++ l₂) := by
  have hsub : (c :: (l₁ ++ l₂)).Sublist (c :: (l₁ ++ x :: l₂)) :=
    ((List.Sublist.refl l₁).append (List.sublist_cons_self x l₂)).cons_cons c
  have hn := h.nodup.sublist hsub
  refine ⟨?_, hn⟩
  rw [h.next_middle.2] at hprev
  have h1 := h.links
  rw [← List.cons_append, links_append] at h1 ⊢
  rw [← List.cons_append, List.nodup_append] at hn
  refine ⟨?_, links_congr (fun a ha => hsame a ?_ ?_) h1.2.2⟩
  · rcases l₁.eq_nil_or_concat' with rfl | ⟨l', y, rfl⟩
    · exact ⟨hprev, trivial⟩
    · rw [before_concat] at hprev hsame
      have h2 := h1.1
      rw [← List.cons_append, links_append] at h2 ⊢
      refine ⟨links_congr (fun a ha => hsame a ?_ ?_) h2.1, hprev, trivial⟩
      · simp only [List.mem_cons, List.mem_append] at ha ⊢; tauto
      · intro he
        have hn' := hn.1
        rw [← List.cons_append, List.nodup_append] at hn'
        exact hn'.2.2 a ha y (by simp) he
  · simp [ha]
  · intro he
    exact hn.2.2 (before c l₁) (before_mem c l₁) a ha he.symm

end Ring
end OsLabs
