/-
# Nothing is lost in a rotation

The files are numbered: `place f 0` is the log and `place f m` is `f.m`. During a rotation one place is empty, the hole,
and the files behind it have moved up by one (`Chain`): each `rename` moves the hole down, and the new log fills it.
The `FILE` has the inode of the current file all along, so what is still in its buffer comes to the renamed file.

Key definitions: `place`, `Chain`, `text`.
-/
import OsLabs.Logger.Machine

namespace OsLabs
namespace Logger

open Run
open Function (update)

/-! ### Places -/

/-- The files from the newest to the oldest. -/
def place (f : Path) : ℕ → Path
  | 0 => entry f
  | m + 1 => entry (numbered f (m + 1))

theorem within_eq {p : Path} (hslash : ∀ t, p ≠ '/' :: t) (hdot : ∀ t, p ≠ '.' :: '/' :: t) : within p = p := by
  unfold within
  split
  · next t => exact absurd rfl (hslash t)
  · next t => exact absurd rfl (hdot t)
  · rfl

theorem within_ne_slash (f t : Path) : within f ≠ '/' :: t := by
  induction f using within.induct with
  | case1 p ih => exact ih
  | case2 p ih => exact ih
  | case3 p hslash hdot =>
    rw [within_eq hslash hdot]
    exact hslash t

theorem entry_relative {f : Path} (h : Relative f) : entry f = within f := by
  have hslash : ∀ t, f ≠ '/' :: t := fun t ht => h (by rw [ht]; rfl)
  unfold entry
  split
  · rfl
  · next hdot => exact (within_eq hslash hdot).symm

theorem entry_absolute {f : Path} (h : ¬ Relative f) : ∃ t, f = '/' :: t ∧ entry f = f := by
  cases f with
  | nil => exact absurd nofun h
  | cons c t =>
    obtain rfl : c = '/' := Option.some.inj (not_not.mp h)
    exact ⟨t, rfl, rfl⟩

theorem entry_inDir {f : Path} (h : Relative f) : entry (inDir f) = entry f := (entry_relative h).symm

/-- What is behind the name is no part of a `./`. -/
theorem within_append {suffix : Path} (hslash : ∀ t, suffix ≠ '/' :: t) (hdot : ∀ t, suffix ≠ '.' :: '/' :: t) (f : Path) :
    within (f ++ suffix) = within f ++ suffix := by
  induction f using within.induct with
  | case1 p ih => exact ih
  | case2 p ih => exact ih
  | case3 p hp hp' =>
    rw [within_eq hp hp']
    cases p with
    | nil => exact within_eq hslash hdot
    | cons c p =>
      apply within_eq
      · intro t ht
        obtain ⟨rfl, -⟩ := List.cons.inj ht
        exact hp p rfl
      · intro t ht
        obtain ⟨rfl, htail⟩ := List.cons.inj ht
        cases p with
        | nil => exact hslash t htail
        | cons d p =>
          obtain ⟨rfl, -⟩ := List.cons.inj htail
          exact hp' p rfl

theorem toDigits_injective {m n : ℕ} (h : Nat.toDigits 10 m = Nat.toDigits 10 n) : m = n := by
  apply Nat.repr_injective
  rw [Nat.repr_eq_ofList_toDigits, Nat.repr_eq_ofList_toDigits, h]

theorem entry_numbered (f : Path) (m : ℕ) : entry (numbered f m) = within f ++ '.' :: Nat.toDigits 10 m := by
  show within (f ++ ['.'] ++ Nat.toDigits 10 m) = _
  rw [List.append_assoc]
  refine within_append (by simp) (fun t ht => ?_) f
  simp only [List.cons_append, List.nil_append, List.cons.injEq, true_and] at ht
  have hdigit := Nat.isDigit_of_mem_toDigits (b := 10) (n := m) (by omega) (by omega) (ht ▸ List.mem_cons_self ..)
  exact absurd hdigit (by decide)

/-- The path of an absolute name is none that `rotate` makes. -/
theorem numbered_ne_absolute {f p : Path} (hp : ¬ Relative p) (m : ℕ) : entry (numbered f m) ≠ p := by
  obtain ⟨t, rfl, -⟩ := entry_absolute hp
  exact within_ne_slash _ t

theorem entry_ne_numbered (f : Path) (m : ℕ) : entry f ≠ entry (numbered f m) := by
  by_cases hrel : Relative f
  · intro h
    have hlen := congrArg List.length h
    rw [entry_relative hrel, entry_numbered, List.length_append, List.length_cons] at hlen
    omega
  · obtain ⟨t, -, hentry⟩ := entry_absolute hrel
    rw [hentry]
    exact (numbered_ne_absolute hrel m).symm

theorem place_injective (f : Path) : Function.Injective (place f) := by
  intro m n h
  cases m with
  | zero =>
    cases n with
    | zero => rfl
    | succ n => exact absurd h (entry_ne_numbered f (n + 1))
  | succ m =>
    cases n with
    | zero => exact absurd h.symm (entry_ne_numbered f (m + 1))
    | succ n =>
      have h : entry (numbered f ((m + 1 : ℕ) : ℤ)) = entry (numbered f ((n + 1 : ℕ) : ℤ)) := h
      rw [entry_numbered, entry_numbered] at h
      exact toDigits_injective (List.cons_injective (List.append_cancel_left h))

/-! ### The chain of files -/

/-- The files with these inodes are in their places, where the place `h` is empty and those behind it are one further. -/
def Chain (dir : ℕ → Option ℕ) (inos : List ℕ) (h : ℕ) : Prop :=
  ∀ m, dir m = if m < h then inos[m]? else if m = h then none else inos[m - 1]?

section

variable {dir : ℕ → Option ℕ} {inos : List ℕ} {h i : ℕ}

theorem Chain.last (hc : Chain dir inos inos.length) (m : ℕ) : dir m = inos[m]? := by
  rw [hc m]
  split_ifs with h1 h2
  · rfl
  · rw [List.getElem?_eq_none (by omega)]
  · rw [List.getElem?_eq_none (by omega), List.getElem?_eq_none (by omega)]

theorem Chain.mem (hc : Chain dir inos h) (hi : i ∈ inos) : ∃ m, dir m = some i := by
  obtain ⟨j, hj⟩ := List.mem_iff_getElem?.mp hi
  by_cases hjh : j < h
  · exact ⟨j, by rw [hc j, if_pos hjh, hj]⟩
  · exact ⟨j + 1, by rw [hc (j + 1), if_neg (by omega), if_neg (by omega), Nat.add_sub_cancel, hj]⟩

/-- The file in front of the hole moves to it. -/
theorem Chain.rename (hc : Chain dir inos (h + 1)) (hi : inos[h]? = some i) :
    Chain (update (update dir h none) (h + 1) (some i)) inos h := by
  intro m
  by_cases h1 : m = h + 1
  · rw [h1, Function.update_self, if_neg (by omega), if_neg (by omega), Nat.add_sub_cancel, hi]
  · rw [Function.update_of_ne h1]
    by_cases h2 : m = h
    · rw [h2, Function.update_self, if_neg (by omega), if_pos rfl]
    · rw [Function.update_of_ne h2, hc m]
      by_cases h3 : m < h
      · rw [if_pos h3, if_pos (by omega)]
      · rw [if_neg h3, if_neg h2, if_neg (by omega), if_neg h1]

/-- A new file fills the first place. -/
theorem Chain.cons (hc : Chain dir inos 0) (i : ℕ) : Chain (update dir 0 (some i)) (i :: inos) (i :: inos).length := by
  intro m
  cases m with
  | zero => simp
  | succ m =>
    rw [Function.update_of_ne (Nat.succ_ne_zero m), hc (m + 1), if_neg (by omega), if_neg (by omega), List.length_cons,
      Nat.add_sub_cancel]
    split_ifs with h1 h2
    · rfl
    · rw [List.getElem?_eq_none (by omega)]
    · rw [List.getElem?_eq_none (by omega), List.getElem?_eq_none (by simp; omega)]

end

/-! ### What the files hold -/

/-- The texts of the files from the newest to the oldest, which had `old` in it at the start. -/
def text (old : List Byte) : List (List (List Byte)) → List (List Byte)
  | [] => []
  | [seg] => [old ++ seg.flatten]
  | seg :: seg' :: segs => seg.flatten :: text old (seg' :: segs)

section

variable {old : List Byte} {track : List (List (List Byte))}

theorem text_length (old : List Byte) : ∀ track : List (List (List Byte)), (text old track).length = track.length
  | [] => rfl
  | [_] => rfl
  | _ :: seg' :: segs => congrArg Nat.succ (text_length old (seg' :: segs))

theorem text_push (htrack : track ≠ []) : text old ([] :: track) = [] :: text old track := by
  cases track with
  | nil => exact absurd rfl htrack
  | cons seg segs => rfl

theorem text_record {buff t : List Byte} {ts : List (List Byte)} (h : text old track = t :: ts) :
    text old (record buff track) = (t ++ buff) :: ts := by
  cases track with
  | nil => cases h
  | cons seg segs =>
    cases segs with
    | nil =>
      cases h
      simp [text, record]
    | cons seg' segs =>
      cases h
      simp [text, record]

theorem text_flatten (htrack : track ≠ []) : (text old track).reverse.flatten = old ++ track.reverse.flatten.flatten := by
  induction track with
  | nil => exact absurd rfl htrack
  | cons seg segs ih =>
    cases segs with
    | nil => simp [text]
    | cons seg' segs =>
      have ih := ih (List.cons_ne_nil _ _)
      simp only [text, List.reverse_cons, List.flatten_append, List.flatten_singleton] at ih ⊢
      rw [ih]
      simp

theorem record_flatten {buff : List Byte} (htrack : track ≠ []) :
    (record buff track).reverse.flatten = track.reverse.flatten ++ [buff] := by
  cases track with
  | nil => exact absurd rfl htrack
  | cons seg segs => simp [record]

end

end Logger
end OsLabs
