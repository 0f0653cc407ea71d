/-
# Descriptor tables

The table of a process: what each of its descriptors refers to. `open`, `pipe` and `dup` take the
lowest descriptor that is free, and `dup2` and `close` the one they are told. What the lemmas say is
which descriptors an operation leaves alone, which files a table has after it (`Sub`), and how many descriptors are left below
a limit (`free`).

Key definitions: `Table`, `alloc`, `dup`, `dup2`, `close`, `free`.
-/
import Mathlib

namespace OsLabs
namespace Fds

variable {F : Type*}

abbrev Table (F : Type*) := List (Option F)

def get (t : Table F) (fd : ℕ) : Option F := t[fd]?.join

/-- The lowest free descriptor. -/
def lowest (t : Table F) : ℕ := t.findIdx Option.isNone

def put (t : Table F) (fd : ℕ) (f : F) : Table F :=
  if fd < t.length then t.set fd (some f) else t ++ List.replicate (fd - t.length) none ++ [some f]

/-- A new descriptor for `f`. -/
def alloc (t : Table F) (f : F) : Table F × ℕ := (put t (lowest t) f, lowest t)

/-- `none` if `fd` is not open. -/
def dup (t : Table F) (fd : ℕ) : Option (Table F × ℕ) := (get t fd).map (alloc t)

/-- Nothing happens if `old` is not open. -/
def dup2 (t : Table F) (old new : ℕ) : Table F :=
  match get t old with
  | some f => put t new f
  | none => t

def close (t : Table F) (fd : ℕ) : Table F := t.set fd none

section

variable {t t' : Table F} {fd fd' : ℕ} {f g : F}

theorem get_put_self (t : Table F) (fd : ℕ) (f : F) : get (put t fd f) fd = some f := by
  unfold get put
  split_ifs with h
  · simp [h]
  · rw [List.getElem?_append_right (by simp; omega)]
    simp [show fd - (t.length + (fd - t.length)) = 0 by omega]

theorem get_put_ne (h : fd' ≠ fd) : get (put t fd f) fd' = get t fd' := by
  unfold get put
  split_ifs with hlt
  · rw [List.getElem?_set_ne (Ne.symm h)]
  · rcases Nat.lt_trichotomy fd' t.length with h1 | h1 | h1
    · rw [List.append_assoc, List.getElem?_append_left h1]
    · have hrep : (List.replicate (fd - t.length) (none : Option F) ++ [some f])[0]? = some none := by
        rw [List.getElem?_append_left (by simp; omega), List.getElem?_replicate_of_lt (by omega)]
      rw [List.append_assoc, List.getElem?_append_right (by omega), h1, Nat.sub_self, hrep,
        List.getElem?_eq_none (by omega)]
      rfl
    · rw [List.getElem?_eq_none (l := t) (by omega)]
      by_cases h2 : fd' < fd
      · rw [List.append_assoc, List.getElem?_append_right (by omega), List.getElem?_append_left (by simp; omega),
          List.getElem?_replicate_of_lt (by omega)]
        rfl
      · rw [List.getElem?_eq_none (by simp; omega)]

theorem get_close_self (t : Table F) (fd : ℕ) : get (close t fd) fd = none := by
  unfold get close
  by_cases h : fd < t.length
  · simp [h]
  · rw [List.getElem?_eq_none (by simp; omega)]
    rfl

theorem get_close_ne (h : fd' ≠ fd) : get (close t fd) fd' = get t fd' := by
  unfold get close
  rw [List.getElem?_set_ne (Ne.symm h)]

theorem get_lowest (t : Table F) : get t (lowest t) = none := by
  unfold get lowest
  by_cases h : t.findIdx Option.isNone < t.length
  · have hnone := List.findIdx_getElem (p := Option.isNone) (w := h)
    rw [List.getElem?_eq_getElem h]
    cases hx : t[t.findIdx Option.isNone] with
    | none => rfl
    | some f => rw [hx] at hnone; exact absurd hnone nofun
  · rw [List.getElem?_eq_none (by omega)]
    rfl

/-- What is open is not what `alloc` takes. -/
theorem ne_lowest (h : get t fd = some f) : fd ≠ lowest t := by
  rintro rfl
  rw [get_lowest] at h
  exact absurd h nofun

theorem get_alloc_self (t : Table F) (f : F) : get (alloc t f).1 (alloc t f).2 = some f := get_put_self _ _ _

theorem get_alloc_ne (h : fd ≠ (alloc t f).2) : get (alloc t f).1 fd = get t fd := get_put_ne h

/-- What is open stays open. -/
theorem get_alloc (h : get t fd = some g) : get (alloc t f).1 fd = some g := by
  rw [get_alloc_ne (ne_lowest h), h]

theorem get_dup2 (h : get t fd = some f) : get (dup2 t fd fd') fd' = some f := by
  unfold dup2
  rw [h]
  exact get_put_self _ _ _

theorem get_dup2_ne {new : ℕ} (h : fd' ≠ new) : get (dup2 t fd new) fd' = get t fd' := by
  unfold dup2
  cases get t fd with
  | none => rfl
  | some f => exact get_put_ne h

/-! ### The files of a table -/

def Holds (t : Table F) (f : F) : Prop := ∃ fd, get t fd = some f

/-- Every file of the new table is `N` or was there. -/
def Sub (N : F → Prop) (t t' : Table F) : Prop := ∀ f, Holds t' f → N f ∨ Holds t f

variable {N : F → Prop} {t'' : Table F}

theorem Sub.refl (t : Table F) : Sub N t t := fun _ => Or.inr

theorem Sub.trans (h : Sub N t t') (h' : Sub N t' t'') : Sub N t t'' := fun f hf => (h' f hf).elim Or.inl (h f)

theorem Sub.mono {N' : F → Prop} (hN : ∀ f, N f → N' f) (h : Sub N t t') : Sub N' t t' := fun f hf =>
  (h f hf).imp_left (hN f)

theorem Sub.nil (t : Table F) : Sub N t [] := fun _ ⟨_, hf⟩ => absurd hf nofun

theorem Sub.put (h : N f ∨ Holds t f) (fd : ℕ) : Sub N t (put t fd f) := by
  rintro g ⟨fd', hg⟩
  by_cases hfd : fd' = fd
  · rw [hfd, get_put_self] at hg
    cases hg
    exact h
  · rw [get_put_ne hfd] at hg
    exact Or.inr ⟨fd', hg⟩

theorem Sub.close (t : Table F) (fd : ℕ) : Sub N t (close t fd) := by
  rintro g ⟨fd', hg⟩
  by_cases hfd : fd' = fd
  · rw [hfd, get_close_self] at hg
    exact absurd hg nofun
  · rw [get_close_ne hfd] at hg
    exact Or.inr ⟨fd', hg⟩

theorem Sub.dup2 (t : Table F) (old new : ℕ) : Sub N t (dup2 t old new) := by
  unfold Fds.dup2
  cases h : get t old with
  | none => exact Sub.refl t
  | some f => exact Sub.put (Or.inr ⟨old, h⟩) new

theorem Sub.dup {x : Table F × ℕ} (h : dup t fd = some x) : Sub N t x.1 := by
  obtain ⟨f, hf, rfl⟩ := Option.map_eq_some_iff.mp h
  exact Sub.put (Or.inr ⟨fd, hf⟩) _

/-! ### How many are left -/

/-- The descriptors that are open. -/
def opened (t : Table F) : Set ℕ := {fd | (get t fd).isSome = true}

/-- How many descriptors below `n` are free. -/
def free (n : ℕ) (t : Table F) : ℕ := ((Finset.range n).filter fun fd => (get t fd).isNone = true).card

variable {n : ℕ}

theorem free_congr (h : opened t = opened t') (n : ℕ) : free n t = free n t' := by
  apply congrArg Finset.card
  refine Finset.filter_congr fun fd _ => ?_
  have hfd : (get t fd).isSome = true ↔ (get t' fd).isSome = true := Set.ext_iff.mp h fd
  rw [← Option.not_isSome, ← Option.not_isSome, Bool.not_eq_true', Bool.not_eq_true', ← Bool.not_eq_true, hfd, Bool.not_eq_true]

theorem opened_alloc (t : Table F) (f : F) : opened t ⊆ opened (alloc t f).1 := by
  intro fd hfd
  obtain ⟨g, hg⟩ := Option.isSome_iff_exists.mp hfd
  exact Option.isSome_iff_exists.mpr ⟨g, get_alloc hg⟩

/-- A new descriptor is one that was free. -/
theorem free_alloc (f : F) (h : lowest t < n) : free n (alloc t f).1 + 1 = free n t := by
  have hmem : lowest t ∈ (Finset.range n).filter fun fd => (get t fd).isNone = true := by
    rw [Finset.mem_filter, get_lowest]
    exact ⟨Finset.mem_range.mpr h, rfl⟩
  have herase : ((Finset.range n).filter fun fd => (get (alloc t f).1 fd).isNone = true) =
      ((Finset.range n).filter fun fd => (get t fd).isNone = true).erase (lowest t) := by
    ext fd
    rw [Finset.mem_erase, Finset.mem_filter, Finset.mem_filter]
    by_cases hfd : fd = lowest t
    · have hsome := get_alloc_self t f
      rw [hfd]
      refine iff_of_false (fun hn => ?_) fun hn => hn.1 rfl
      rw [show get (alloc t f).1 (lowest t) = some f from hsome] at hn
      exact absurd hn.2 nofun
    · rw [get_alloc_ne hfd]
      exact (and_iff_right hfd).symm
  rw [free, herase]
  exact Finset.card_erase_add_one hmem

/-- A free descriptor is not below the lowest one. -/
theorem lowest_le (h : get t fd = none) : lowest t ≤ fd := by
  by_contra hn
  have hlt : fd < t.findIdx Option.isNone := Nat.lt_of_not_le hn
  have hsome := List.not_of_lt_findIdx hlt
  have hlen : fd < t.length := hlt.trans_le List.findIdx_le_length
  rw [get, List.getElem?_eq_getElem hlen] at h
  rw [show t[fd] = none from h] at hsome
  exact absurd hsome nofun

/-- A descriptor below `n` can be had exactly if one is free. -/
theorem free_pos (n : ℕ) (t : Table F) : 0 < free n t ↔ lowest t < n := by
  rw [free, Finset.card_pos]
  constructor
  · rintro ⟨fd, hfd⟩
    obtain ⟨hlt, hnone⟩ := Finset.mem_filter.mp hfd
    exact (lowest_le (Option.isNone_iff_eq_none.mp hnone)).trans_lt (Finset.mem_range.mp hlt)
  · intro h
    refine ⟨lowest t, Finset.mem_filter.mpr ⟨Finset.mem_range.mpr h, ?_⟩⟩
    rw [get_lowest]
    rfl

end

end Fds
end OsLabs
