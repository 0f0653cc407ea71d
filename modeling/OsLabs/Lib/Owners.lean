/-
# Resources that keys own

A table gives each key a resource, or `null`, and beside it there is a record of which resources are in use: the table of an
allocator's clients and the allocator's own record. They are exact when no two keys own one resource and the resources in use
are those that some key owns, so that nothing is shared and nothing is lost. Only the resources of a range are allocated at all.

Key definition: `Exact`.
Key theorems: `Exact.take`, `Exact.drop`, `Exact.card`.
-/
import Mathlib

namespace OsLabs
namespace Owners

open Function (update)

variable {K R : Type*} {null : R} {Valid Used Used' : R → Prop} {own : K → R} {k k' : K} {r : R}

/-- The keys own distinct resources among the valid ones, and those in use are those they own. -/
structure Exact (null : R) (Valid Used : R → Prop) (own : K → R) : Prop where
  valid : ∀ k, own k ≠ null → Valid (own k)
  alone : ∀ k k', own k = own k' → own k ≠ null → k = k'
  exact : ∀ r, Valid r → (Used r ↔ ∃ k, own k = r)

namespace Exact

theorem used (h : Exact null Valid Used own) (hk : own k ≠ null) : Used (own k) :=
  (h.exact _ (h.valid k hk)).mpr ⟨k, rfl⟩

theorem ne (h : Exact null Valid Used own) (hk : own k ≠ null) (hne : k ≠ k') : own k ≠ own k' := fun heq =>
  hne (h.alone k k' heq hk)

theorem congr (h : Exact null Valid Used own) (hused : ∀ r, Valid r → (Used' r ↔ Used r)) : Exact null Valid Used' own :=
  ⟨h.valid, h.alone, fun r hr => (hused r hr).trans (h.exact r hr)⟩

variable [DecidableEq K]

/-- A key that owns nothing is given a resource that is not in use. -/
theorem take (h : Exact null Valid Used own) (hnull : ¬ Valid null) (hk : own k = null) (hr : Valid r) (hfree : ¬ Used r)
    (hused : ∀ x, Valid x → (Used' x ↔ Used x ∨ x = r)) : Exact null Valid Used' (update own k r) where
  valid j hj := by
    by_cases hjk : j = k
    · rw [hjk, Function.update_self]
      exact hr
    · rw [Function.update_of_ne hjk] at hj ⊢
      exact h.valid j hj
  alone i j hij hi := by
    have hnew : ∀ j, own j ≠ null → own j ≠ r := fun j hj heq => hfree (heq ▸ h.used hj)
    by_cases hik : i = k <;> by_cases hjk : j = k
    · rw [hik, hjk]
    · rw [hik, Function.update_self, Function.update_of_ne hjk] at hij
      exact absurd hij.symm (hnew j fun hnj => hnull (hnj ▸ hij ▸ hr))
    · rw [hjk, Function.update_self, Function.update_of_ne hik] at hij
      exact absurd hij (hnew i fun hni => hnull (hni ▸ hij.symm ▸ hr))
    · rw [Function.update_of_ne hik, Function.update_of_ne hjk] at hij
      rw [Function.update_of_ne hik] at hi
      exact h.alone i j hij hi
  exact x hx := by
    rw [hused x hx, h.exact x hx]
    constructor
    · rintro (⟨j, hj⟩ | rfl)
      · have hjk : j ≠ k := fun hjk => hnull (hk ▸ hjk ▸ hj ▸ hx)
        exact ⟨j, by rw [Function.update_of_ne hjk, hj]⟩
      · exact ⟨k, Function.update_self ..⟩
    · rintro ⟨j, hj⟩
      by_cases hjk : j = k
      · rw [hjk, Function.update_self] at hj
        exact .inr hj.symm
      · rw [Function.update_of_ne hjk] at hj
        exact .inl ⟨j, hj⟩

/-- A key gives its resource back. -/
theorem drop (h : Exact null Valid Used own) (hnull : ¬ Valid null)
    (hused : ∀ x, Valid x → (Used' x ↔ Used x ∧ x ≠ own k)) : Exact null Valid Used' (update own k null) where
  valid j hj := by
    by_cases hjk : j = k
    · rw [hjk, Function.update_self] at hj
      exact absurd rfl hj
    · rw [Function.update_of_ne hjk] at hj ⊢
      exact h.valid j hj
  alone i j hij hi := by
    by_cases hik : i = k
    · rw [hik, Function.update_self] at hi
      exact absurd rfl hi
    · by_cases hjk : j = k
      · rw [hjk, Function.update_self] at hij
        exact absurd hij hi
      · rw [Function.update_of_ne hik, Function.update_of_ne hjk] at hij
        rw [Function.update_of_ne hik] at hi
        exact h.alone i j hij hi
  exact x hx := by
    rw [hused x hx, h.exact x hx]
    constructor
    · rintro ⟨⟨j, hj⟩, hne⟩
      have hjk : j ≠ k := fun hjk => hne (by rw [← hj, hjk])
      exact ⟨j, by rw [Function.update_of_ne hjk, hj]⟩
    · rintro ⟨j, hj⟩
      by_cases hjk : j = k
      · rw [hjk, Function.update_self] at hj
        exact absurd hx (hj ▸ hnull)
      · rw [Function.update_of_ne hjk] at hj
        have hj' : own j ≠ null := fun hnj => hnull (hnj ▸ hj ▸ hx)
        exact ⟨⟨j, hj⟩, hj ▸ h.ne hj' hjk⟩

omit [DecidableEq K] in
/-- There are as many resources in use as keys that own one. -/
theorem card [DecidableEq R] [DecidablePred Used] (h : Exact null Valid Used own) (hnull : ¬ Valid null) (all : Finset R) {keys : Finset K}
    (hall : ∀ r, r ∈ all ↔ Valid r) (hkeys : ∀ k, own k ≠ null → k ∈ keys) :
    (all.filter Used).card = (keys.filter (own · ≠ null)).card := by
  have himage : all.filter Used = (keys.filter (own · ≠ null)).image own := by
    ext r
    simp only [Finset.mem_filter, Finset.mem_image, hall]
    constructor
    · rintro ⟨hr, hu⟩
      obtain ⟨k, rfl⟩ := (h.exact r hr).mp hu
      have hk : own k ≠ null := fun hnk => hnull (hnk ▸ hr)
      exact ⟨k, ⟨hkeys k hk, hk⟩, rfl⟩
    · rintro ⟨k, ⟨-, hk⟩, rfl⟩
      exact ⟨h.valid k hk, h.used hk⟩
  rw [himage, Finset.card_image_of_injOn]
  intro i hi j _ hij
  rw [Finset.coe_filter] at hi
  exact h.alone i j hij hi.2

end Exact

end Owners
end OsLabs
