/-
# Which files a rotation shifts

`rotate` renames as many older files as the process has made rotations before, by names that it puts behind `./`. The older
files that an earlier process has left are not counted: after `k` rotations the next one renames a file to `f.(k+1)`, and it is lost
if such a file was there when the process was started. An absolute name behind `./` is another file.

`logName f i` is the path of the `i`-th older file by the name that the program was given.

Key definitions: `Left`, `Shifted`, `Moves`, `Numbered`, `Rotating`.
Key theorem: `rotation_shifts_iff`.
-/
import OsLabs.Logger.Collect

namespace OsLabs
namespace Logger

open Run
open Function (update)

/-- The log, and `f.1`, `f.2`, ... -/
def logName (f : Path) : ℕ → Path
  | 0 => f
  | i + 1 => f ++ '.' :: Nat.toDigits 10 (i + 1)

/-- An earlier process has left the log and its older files up to `f.m`, and there may be others, but not for every number. -/
structure Left (f : Path) (fs : Fs) (m : ℕ) : Prop where
  there : ∀ i ≤ m, (fs.dir (entry (logName f i))).isSome = true
  others : ∃ n, ∀ i, n < i → fs.dir (entry (logName f i)) = none

/-- As far as there is one file after the other each has the next name, none of the files has gone, and the log's own name is another
file's or none's. -/
structure Shifted (f : Path) (fs fs' : Fs) : Prop where
  moved : ∀ i, (∀ j ≤ i, (fs.dir (entry (logName f j))).isSome = true) →
    fs'.dir (entry (logName f (i + 1))) = fs.dir (entry (logName f i))
  kept : ∀ i, (fs.dir (entry (logName f i))).isSome = true →
    ∃ j, fs'.dir (entry (logName f j)) = fs.dir (entry (logName f i))
  current : fs'.dir (entry f) ≠ fs.dir (entry f)

/-- What is in a file stays there; the current one may get a part of the buffer. -/
structure Kept (s s' : State) : Prop where
  others : ∀ i ≠ s.log, s'.fs.data i = s.fs.data i
  current : s.fs.data s.log <+: s'.fs.data s.log

def Event.isRun : Event → Bool
  | .run => true
  | _ => false

/-! ### Names -/

section

variable {f p : Path} {m i : ℕ}

theorem numbered_relative (f : Path) (i : ℤ) : Relative (entry (numbered f i)) := fun h => by
  obtain ⟨t, ht⟩ := List.head?_eq_some_iff.mp h
  exact within_ne_slash _ t ht

theorem inDir_relative (f : Path) : Relative (entry (inDir f)) := fun h => by
  obtain ⟨t, ht⟩ := List.head?_eq_some_iff.mp h
  exact within_ne_slash _ t ht

theorem logName_place (h : Relative f) (i : ℕ) : entry (logName f i) = place f i := by
  cases i with
  | zero => rfl
  | succ i =>
    have hrel : Relative (logName f (i + 1)) := by
      cases f with
      | nil =>
        intro hn
        have hdot : '.' = '/' := Option.some.inj hn
        exact absurd hdot (by decide)
      | cons c f => exact h
    have hplace : place f (i + 1) = within f ++ '.' :: Nat.toDigits 10 (i + 1) := entry_numbered f (i + 1)
    have hnumbered : within (f ++ ['.'] ++ Nat.toDigits 10 (i + 1)) = _ := entry_numbered f (i + 1)
    rw [entry_relative hrel, hplace, ← hnumbered, List.append_assoc]
    rfl

theorem logName_absolute (h : ¬ Relative f) (i : ℕ) : ¬ Relative (entry (logName f i)) := by
  obtain ⟨t, rfl, -⟩ := entry_absolute h
  cases i with
  | zero => exact h
  | succ i => exact h

/-! ### What a step does to the directory -/

variable {s s' : State} {e : Event}

/-- A step leaves the directory and the loop alone, or opens the log, or starts the loop, or is a round of it. -/
inductive Moves (f : Path) (s s' : State) : Prop
  | stays (hdir : s'.fs.dir = s.fs.dir) (hmax : s'.maxIdx = s.maxIdx) (hhole : ∀ n, hole n s'.pc = hole n s.pc)
      (hpc : ∀ i nxt b, s'.pc = .shift i nxt b → s.pc = .shift i nxt b)
  | opens (hfs : s'.fs = (s.fs.fopen f).1) (hmax : s'.maxIdx = s.maxIdx) (hhole : ∀ n, hole n s.pc = 0 ∨ hole n s.pc = n)
      (hhole' : ∀ n, hole n s'.pc = n) (hpc : ∀ i nxt b, s'.pc ≠ .shift i nxt b)
  | starts (b : List Byte) (hpc : s.pc = .check b)
      (hs : s' = { s with maxIdx := s.maxIdx + 1, pc := .shift (s.maxIdx + 1) (numbered f (s.maxIdx + 2)) b })
  | round (i : ℤ) (nxt : Path) (b : List Byte) (hpc : s.pc = .shift i nxt b)
      (hs : s' = { s with
        fs := s.fs.rename (if i = 0 then inDir f else numbered f i) nxt
        pc := if i = 0 then .close b else .shift (i - 1) (numbered f i) b })

theorem step_moves (f : Path) (s : State) (e : Event) : Sat (Moves f s) (fun _ => True) (step f s e) := by
  cases e with
  | run =>
    show Sat _ _ (runStep f s)
    cases hpc : s.pc with
    | start | clear b | puts b | closing | close b =>
      simp only [runStep, hpc]
      exact .stays rfl rfl (fun n => by simp only [hole, hpc]) (by simp)
    | opening | reopen b =>
      simp only [runStep, hpc]
      exact .opens rfl rfl (fun n => by simp only [hole, hpc, true_or, or_true]) (fun _ => rfl) (by simp)
    | reading =>
      simp only [runStep, hpc]
      split_ifs <;> exact .stays rfl rfl (fun n => by simp only [hole, hpc]) (by simp)
    | check b =>
      simp only [runStep, hpc]
      split_ifs
      · trivial
      · exact .starts b hpc rfl
      · exact .stays rfl rfl (fun n => by simp only [hole, hpc]) (by simp)
    | shift i nxt b =>
      simp only [runStep, hpc]
      split_ifs with hi
      · exact .round i nxt b hpc (by rw [if_pos hi, if_pos hi])
      · exact .round i nxt b hpc (by rw [if_neg hi, if_neg hi])
    | done | killed =>
      simp only [runStep, hpc]
      trivial
  | hup =>
    simp only [step]
    split
    · next hpc => exact .stays rfl rfl (fun n => by simp only [hole, hpc]) (by simp)
    · trivial
    · trivial
    · exact .stays rfl rfl (fun _ => rfl) fun _ _ _ => id
  | flush n =>
    simp only [step]
    split
    · trivial
    · trivial
    · exact .stays rfl rfl (fun _ => rfl) fun _ _ _ => id

/-! ### Files that an earlier process has left -/

/-- Of the places up to `top` at most `h` is empty. -/
def Present (d : ℕ → Option ℕ) (top h : ℕ) : Prop := ∀ j ≤ top, j ≠ h → (d j).isSome = true

/-- How many older files there are at least: as many as there were, or as there have been rotations. -/
def top (m : ℕ) (s : State) : ℕ := max m (s.maxIdx + 1).toNat

/-- The numbers of the files, all along a run from the directory `fs`. -/
structure Numbered (f : Path) (fs : Fs) (m : ℕ) (s : State) : Prop where
  files : Present (s.fs.dir ∘ place f) (top m s) (hole (top m s + 1) s.pc)
  above : ∀ j, (s.maxIdx + 1).toNat < j → s.fs.dir (place f j) = fs.dir (place f j)
  index : -1 ≤ s.maxIdx
  loop : ∀ i nxt b, s.pc = .shift i nxt b → ∃ n : ℕ, i = n ∧ (n : ℤ) ≤ s.maxIdx ∧ nxt = numbered f (n + 1)

variable {fs₀ : Fs}

/-- The file at `n` is renamed to the next place, where another one may be. -/
theorem Present.rename {fs : Fs} {cur nxt : Path} {t n : ℕ} (h : Present (fs.dir ∘ place f) t (n + 1)) (hn : n + 1 ≤ t)
    (hcur : entry cur = place f n) (hnxt : entry nxt = place f (n + 1)) :
    Present ((fs.rename cur nxt).dir ∘ place f) t n := by
  have hfile : (fs.dir (place f n)).isSome = true := h n (by omega) (by omega)
  intro j hle hne
  by_cases hj : j = n + 1
  · have hnew := @Fs.rename_new fs cur nxt (hcur ▸ hfile)
    rw [hnxt] at hnew
    exact hj ▸ hnew
  · have hother : (fs.rename cur nxt).dir (place f j) = fs.dir (place f j) :=
      fs.rename_other (fun hp => hne (place_injective f (hp.trans hcur))) fun hp => hj (place_injective f (hp.trans hnxt))
    rw [Function.comp_apply, hother]
    exact h j hle hj

/-- The log is opened, whether it is there or not. -/
theorem Present.fopen {fs : Fs} {t n : ℕ} (h : Present (fs.dir ∘ place f) t n) (hn : n = 0 ∨ n = t + 1) :
    Present ((fs.fopen f).1.dir ∘ place f) t (t + 1) := by
  intro j hle _
  cases j with
  | zero => exact fs.fopen_self f
  | succ j =>
    have hother : (fs.fopen f).1.dir (place f (j + 1)) = fs.dir (place f (j + 1)) :=
      fs.fopen_other fun hp => absurd (place_injective f (hp : place f (j + 1) = place f 0)) (Nat.succ_ne_zero j)
    rw [Function.comp_apply, hother]
    exact h (j + 1) hle (by omega)

/-- The start of `rotate`: one more file, unless there are enough of them. -/
theorem Numbered.rotate (h : Numbered f fs₀ m s) {b : List Byte} (hpc : s.pc = .check b) : Numbered f fs₀ m
    { s with maxIdx := s.maxIdx + 1, pc := .shift (s.maxIdx + 1) (numbered f (s.maxIdx + 2)) b } := by
  have hindex := h.index
  have hfiles := h.files
  rw [hpc] at hfiles
  refine ⟨fun j hj hne => ?_, fun j hj => h.above j ?_, ?_, fun i nxt b' hs => ?_⟩
  · apply hfiles j
    all_goals
      simp only [top, hole] at hj hne ⊢
      omega
  · dsimp only at hj
    omega
  · show -1 ≤ s.maxIdx + 1
    omega
  · obtain ⟨rfl, rfl, -⟩ := PC.shift.inj hs
    refine ⟨(s.maxIdx + 1).toNat, by omega, by show _ ≤ s.maxIdx + 1; omega, ?_⟩
    rw [show s.maxIdx + 2 = ((s.maxIdx + 1).toNat : ℤ) + 1 by omega]

/-- A rename. -/
theorem Numbered.rename (h : Numbered f fs₀ m s) {n : ℕ} {nxt cur : Path} {b : List Byte} {pc : PC} (hpc : s.pc = .shift n nxt b)
    (hcur : entry cur = place f n) (hhole : ∀ k, hole k pc = n)
    (hnext : ∀ i nxt b, pc = .shift i nxt b → ∃ n : ℕ, i = n ∧ (n : ℤ) ≤ s.maxIdx ∧ nxt = numbered f (n + 1)) :
    Numbered f fs₀ m { s with fs := s.fs.rename cur nxt, pc := pc } := by
  obtain ⟨k, hk, hle, hnxt⟩ := h.loop n nxt b hpc
  obtain rfl : n = k := by exact_mod_cast hk
  have hfiles := h.files
  rw [hpc] at hfiles
  have hplace : entry nxt = place f (n + 1) := by
    rw [hnxt]
    rfl
  refine ⟨?_, fun j hj => ?_, h.index, hnext⟩
  · show Present ((s.fs.rename cur nxt).dir ∘ place f) (top m s) (hole (top m s + 1) pc)
    rw [hhole]
    apply Present.rename hfiles _ hcur hplace
    simp only [top]
    omega
  · dsimp only at hj ⊢
    rw [← h.above j hj, s.fs.rename_other]
    · intro hp
      have := place_injective f (hp.trans hcur)
      omega
    · intro hp
      have := place_injective f (hp.trans hplace)
      omega

theorem Numbered.step (h : Numbered f fs₀ m s) (hrel : Relative f) (e : Event) :
    Sat (Numbered f fs₀ m) (fun _ => True) (Logger.step f s e) := by
  refine (step_moves f s e).mono (fun s' hmoves => ?_) fun _ => id
  cases hmoves with
  | stays hdir hmax hhole hpc =>
    refine ⟨?_, ?_, hmax ▸ h.index, fun i nxt b hs => hmax ▸ h.loop i nxt b (hpc i nxt b hs)⟩
    · rw [hdir, hhole, top, hmax]
      exact h.files
    · rw [hdir, hmax]
      exact h.above
  | opens hfs hmax hhole hhole' hpc =>
    refine ⟨?_, fun j hj => ?_, hmax ▸ h.index, fun i nxt b hs => absurd hs (hpc i nxt b)⟩
    · rw [hfs, hhole', top, hmax]
      exact h.files.fopen (hhole _)
    · rw [hmax] at hj
      rw [hfs, s.fs.fopen_other, h.above j hj]
      intro hp
      have := place_injective f (show place f j = place f 0 from hp)
      omega
  | starts b hpc hs =>
    rw [hs]
    exact h.rotate hpc
  | round i nxt b hpc hs =>
    obtain ⟨n, rfl, hle, -⟩ := h.loop i nxt b hpc
    rw [hs]
    by_cases hn : n = 0
    · have hzero : (n : ℤ) = 0 := by exact_mod_cast hn
      rw [if_pos hzero, if_pos hzero]
      exact h.rename hpc (by rw [hn]; exact entry_inDir hrel) (fun _ => hn.symm) (by simp)
    · obtain ⟨k, rfl⟩ := Nat.exists_eq_succ_of_ne_zero hn
      have hk : ((k + 1 : ℕ) : ℤ) - 1 = k := by omega
      rw [if_neg (by omega), if_neg (by omega)]
      refine h.rename hpc rfl (fun _ => ?_) fun i nxt b hs => ?_
      · rw [hk]
        rfl
      · obtain ⟨rfl, rfl, -⟩ := PC.shift.inj hs
        exact ⟨k, hk, by omega, by push_cast; rfl⟩

/-! ### An absolute name -/

/-- What is behind the root stays, when the log is there; `rotate` has names behind `./` only. -/
structure Fixed (fs : Fs) (f : Path) (s : State) : Prop where
  dir : ∀ p, ¬ Relative p → s.fs.dir p = fs.dir p
  index : -1 ≤ s.maxIdx
  loop : ∀ i nxt b, s.pc = .shift i nxt b → ∃ k, nxt = numbered f k

variable {fs : Fs}

theorem Fixed.step (h : Fixed fs f s) (hrel : ¬ Relative f) (hfile : (fs.dir (entry f)).isSome = true) (e : Event) :
    Sat (Fixed fs f) (fun _ => True) (Logger.step f s e) := by
  have hindex := h.index
  refine (step_moves f s e).mono (fun s' hmoves => ?_) fun _ => id
  cases hmoves with
  | stays hdir hmax _ hpc =>
    exact ⟨fun p hp => by rw [hdir, h.dir p hp], hmax ▸ hindex, fun i nxt b hs => h.loop i nxt b (hpc i nxt b hs)⟩
  | opens hfs hmax _ _ hpc =>
    obtain ⟨t, -, hentry⟩ := entry_absolute hrel
    have hlog := h.dir (entry f) (by rwa [hentry])
    obtain ⟨i, hi⟩ := Option.isSome_iff_exists.mp hfile
    refine ⟨fun p hp => ?_, hmax ▸ hindex, fun i nxt b hs => absurd hs (hpc i nxt b)⟩
    rw [hfs, Fs.fopen_some (hlog.trans hi), h.dir p hp]
  | starts b hpc hs =>
    rw [hs]
    refine ⟨h.dir, ?_, fun i nxt b hs => ?_⟩
    · show -1 ≤ s.maxIdx + 1
      omega
    · obtain ⟨-, rfl, -⟩ := PC.shift.inj hs
      exact ⟨_, rfl⟩
  | round i nxt b hpc hs =>
    obtain ⟨k, rfl⟩ := h.loop i nxt b hpc
    rw [hs]
    refine ⟨fun p hp => ?_, hindex, fun j nxt b hs => ?_⟩
    · rw [← h.dir p hp]
      refine s.fs.rename_other (fun hn => hp ?_) fun hn => hp (hn ▸ numbered_relative f k)
      rw [hn]
      split_ifs
      · exact inDir_relative f
      · exact numbered_relative f i
    · dsimp only at hs
      split_ifs at hs
      obtain ⟨-, rfl, -⟩ := PC.shift.inj hs
      exact ⟨i, rfl⟩

/-! ### One rotation -/

/-- Where `main` is with `left` steps left of a rotation of `k` older files. -/
def loopPC (f : Path) (k : ℕ) (b : List Byte) : ℕ → PC
  | 0 => .close b
  | i + 1 => if i ≤ k then .shift i (numbered f (i + 1)) b else .check b

/-- The files from `h` on are one place further, and `h` is empty. -/
def Slid (d₀ d : ℕ → Option ℕ) (k h : ℕ) : Prop := ∀ j ≤ k + 1, d j = if j < h then d₀ j else if j = h then none else d₀ (j - 1)

/-- The rotation that starts in `s₀`, with `left` steps left. -/
structure Rotating (f : Path) (k : ℕ) (b : List Byte) (s₀ : State) (left : ℕ) (s : State) : Prop where
  pc : s.pc = loopPC f k b left
  le : left ≤ k + 2
  flag : s.needRotate = true
  index : k + 1 < left → s.maxIdx + 1 = k
  log : s.log = s₀.log
  kept : Kept s₀ s
  other : ∀ p, (∀ j ≤ k, p ≠ entry (numbered f (j + 1))) → p ≠ entry (inDir f) → s.fs.dir p = s₀.fs.dir p
  slid : Relative f → Present (s₀.fs.dir ∘ place f) k (k + 1) → s₀.fs.dir (place f (k + 1)) = none →
    Slid (s₀.fs.dir ∘ place f) (s.fs.dir ∘ place f) k (min left (k + 1))

variable {s₀ : State} {k left : ℕ} {b : List Byte}

/-- The file in front of the hole moves to it. -/
theorem Slid.rename {d₀ : ℕ → Option ℕ} {fs : Fs} {cur nxt : Path} {i : ℕ} (h : Slid d₀ (fs.dir ∘ place f) k (i + 1)) (hi : i ≤ k)
    (hfile : (d₀ i).isSome = true) (hcur : entry cur = place f i) (hnxt : entry nxt = place f (i + 1)) :
    Slid d₀ ((fs.rename cur nxt).dir ∘ place f) k i := by
  obtain ⟨ino, hino⟩ := Option.isSome_iff_exists.mp hfile
  have hget : fs.dir (place f i) = some ino := by
    have hget := h i (by omega)
    rwa [if_pos (Nat.lt_succ_self i), hino] at hget
  have hfree : fs.dir (place f (i + 1)) = none := by
    have hfree := h (i + 1) (by omega)
    rwa [if_neg (by omega), if_pos rfl] at hfree
  intro j hj
  rw [rename_place f hcur hnxt hget hfree]
  by_cases hnew : j = i + 1
  · rw [hnew, Function.update_self, if_neg (by omega), if_neg (by omega), Nat.add_sub_cancel, hino]
  · rw [Function.update_of_ne hnew]
    by_cases hold : j = i
    · rw [hold, Function.update_self, if_neg (by omega), if_pos rfl]
    · rw [Function.update_of_ne hold, h j hj]
      by_cases hlt : j < i
      · rw [if_pos hlt, if_pos (by omega)]
      · rw [if_neg hlt, if_neg hold, if_neg (by omega), if_neg hnew]

theorem Kept.refl (s : State) : Kept s s := ⟨fun _ _ => rfl, List.prefix_rfl⟩

/-- A rename with `i + 1` steps left. -/
theorem Rotating.rename (h : Rotating f k b s₀ (i + 1) s) (hi : i ≤ k) {cur : Path}
    (hcur : cur = if i = 0 then inDir f else numbered f i) {pc : PC} (hpc : pc = loopPC f k b i) :
    Rotating f k b s₀ i { s with fs := s.fs.rename cur (numbered f (i + 1)), pc := pc } where
  pc := hpc
  le := by omega
  flag := h.flag
  index hlt := by omega
  log := h.log
  kept := by
    refine ⟨fun j hj => ?_, ?_⟩
    · show (s.fs.rename _ _).data j = s₀.fs.data j
      rw [Fs.rename_data]
      exact h.kept.others j hj
    · show s₀.fs.data s₀.log <+: (s.fs.rename _ _).data s₀.log
      rw [Fs.rename_data]
      exact h.kept.current
  other p hp hp' := by
    rw [← h.other p hp hp']
    refine s.fs.rename_other ?_ (hp i hi)
    rw [hcur]
    split_ifs with hzero
    · exact hp'
    · obtain ⟨j, rfl⟩ := Nat.exists_eq_succ_of_ne_zero hzero
      exact hp j (by omega)
  slid hrel hthere hfree := by
    have hslid := h.slid hrel hthere hfree
    rw [min_eq_left (show i + 1 ≤ k + 1 by omega)] at hslid
    rw [min_eq_left (show i ≤ k + 1 by omega)]
    refine hslid.rename hi (hthere i hi (by omega)) ?_ rfl
    rw [hcur]
    split_ifs with hzero
    · rw [hzero]
      exact entry_inDir hrel
    · obtain ⟨j, rfl⟩ := Nat.exists_eq_succ_of_ne_zero hzero
      rfl

theorem Rotating.run (h : Rotating f k b s₀ (left + 1) s) (hint : (k : ℤ) + 1 ≤ INT_MAX) :
    Sat (Rotating f k b s₀ left) (fun _ => False) (Logger.step f s .run) := by
  have hpc := h.pc
  show Sat _ _ (runStep f s)
  by_cases hleft : left ≤ k
  · rw [loopPC, if_pos hleft] at hpc
    simp only [runStep, hpc]
    by_cases hzero : left = 0
    · rw [if_pos (by exact_mod_cast hzero)]
      exact h.rename hleft (by rw [if_pos hzero]) (by rw [hzero]; rfl)
    · rw [if_neg (by exact_mod_cast hzero)]
      refine h.rename hleft (by rw [if_neg hzero]) ?_
      obtain ⟨j, rfl⟩ := Nat.exists_eq_succ_of_ne_zero hzero
      rw [loopPC, if_pos (by omega)]
      push_cast
      rw [Int.add_sub_cancel]
  · rw [loopPC, if_neg hleft] at hpc
    have hle := h.le
    obtain rfl : left = k + 1 := by omega
    have hindex : s.maxIdx + 1 = k := h.index (by omega)
    simp only [runStep, hpc, if_pos h.flag]
    rw [if_neg (by omega)]
    refine ⟨?_, by omega, h.flag, fun hlt => absurd hlt (lt_irrefl _), h.log, ⟨h.kept.others, h.kept.current⟩, h.other,
      fun hrel hthere hfree => ?_⟩
    · rw [loopPC, if_pos le_rfl]
      show PC.shift (s.maxIdx + 1) (numbered f (s.maxIdx + 2)) b = _
      rw [hindex, show s.maxIdx + 2 = (k : ℤ) + 1 by omega]
    · have hslid := h.slid hrel hthere hfree
      rw [min_eq_right (by omega)] at hslid ⊢
      exact hslid

theorem loopPC_live (f : Path) (k : ℕ) (b : List Byte) (left : ℕ) :
    loopPC f k b left ≠ .start ∧ loopPC f k b left ≠ .done ∧ loopPC f k b left ≠ .killed := by
  cases left with
  | zero => simp [loopPC]
  | succ i =>
    simp only [loopPC]
    split_ifs <;> simp

/-- A signal or a flush. -/
theorem Rotating.interrupt (h : Rotating f k b s₀ left s) (he : e ≠ .run) :
    Sat (Rotating f k b s₀ left) (fun _ => False) (Logger.step f s e) := by
  obtain ⟨hstart, hdone, hkilled⟩ := loopPC_live f k b left
  rw [← h.pc] at hstart hdone hkilled
  cases e with
  | run => exact absurd rfl he
  | hup =>
    have hs : Logger.step f s .hup = .ok { s with needRotate := true } := by
      cases hpc : s.pc <;> first
        | exact absurd hpc hstart
        | exact absurd hpc hdone
        | exact absurd hpc hkilled
        | simp only [Logger.step, hpc]
    rw [hs]
    exact ⟨h.pc, h.le, rfl, h.index, h.log, ⟨h.kept.others, h.kept.current⟩, h.other, h.slid⟩
  | flush n =>
    have hs : Logger.step f s (.flush n) = .ok { s with fs := s.fs.append s.log (s.buf.take n), buf := s.buf.drop n } := by
      cases hpc : s.pc <;> first
        | exact absurd hpc hdone
        | exact absurd hpc hkilled
        | simp only [Logger.step, hpc]
    rw [hs]
    refine ⟨h.pc, h.le, h.flag, h.index, h.log, ⟨fun j hj => ?_, ?_⟩, h.other, h.slid⟩
    · show update s.fs.data s.log _ j = s₀.fs.data j
      rw [h.log, Function.update_of_ne hj, h.kept.others j hj]
    · show s₀.fs.data s₀.log <+: update s.fs.data s.log _ s₀.log
      rw [h.log, Function.update_self]
      exact h.kept.current.trans (List.prefix_append _ _)

/-- A rotation comes to its end, wherever signals and flushes come. -/
theorem Rotating.ends (hpc : s.pc = .check b) (hflag : s.needRotate = true) (hindex : s.maxIdx + 1 = k)
    (hint : (k : ℤ) + 1 ≤ INT_MAX) {es : List Event} (hes : es.countP Event.isRun = k + 2) :
    Sat (Rotating f k b s 0) (fun _ => False) (Run.run (Logger.step f) s es) := by
  have hstart : Rotating f k b s (es.countP Event.isRun) s := by
    rw [hes]
    refine ⟨?_, le_rfl, hflag, fun _ => hindex, rfl, .refl s, fun _ _ _ => rfl, fun _ hthere hfree j hj => ?_⟩
    · rw [hpc, loopPC, if_neg (by omega)]
    · rw [min_eq_right (by omega)]
      by_cases hlast : j = k + 1
      · rw [if_neg (by omega), if_pos hlast, hlast]
        exact hfree
      · rw [if_pos (by omega)]
  apply run_counted (fun left s e he h => ?_) (fun left s e he h => ?_) es hstart
  · cases e with
    | run => exact h.run hint
    | hup | flush n => exact absurd he Bool.false_ne_true
  · apply h.interrupt
    rintro rfl
    exact absurd he.symm Bool.false_ne_true

/-! ### Every rotation -/

/-- There are no more files than are renamed: all of them are shifted. -/
theorem Rotating.shifted (h : Rotating f k b s 0 s') (hrel : Relative f) (hthere : Present (s.fs.dir ∘ place f) k (k + 1))
    (hfree : s.fs.dir (place f (k + 1)) = none) : Shifted f s.fs s'.fs := by
  have hslid := h.slid hrel hthere hfree
  rw [Nat.zero_min] at hslid
  have hnext : ∀ i ≤ k, s'.fs.dir (place f (i + 1)) = s.fs.dir (place f i) := fun i hi => by
    have hi' := hslid (i + 1) (by omega)
    rwa [if_neg (by omega), if_neg (by omega)] at hi'
  refine ⟨fun i hi => ?_, fun i hi => ?_, fun hn => ?_⟩
  · have hik : i ≤ k := by
      by_contra hlt
      have hsome := hi (k + 1) (by omega)
      rw [logName_place hrel, hfree] at hsome
      exact absurd hsome Bool.false_ne_true
    rw [logName_place hrel, logName_place hrel]
    exact hnext i hik
  · rw [logName_place hrel] at hi ⊢
    by_cases hik : i ≤ k
    · exact ⟨i + 1, by rw [logName_place hrel, hnext i hik]⟩
    · have hne : i ≠ k + 1 := fun heq => by
        rw [heq, hfree] at hi
        exact absurd hi Bool.false_ne_true
      refine ⟨i, ?_⟩
      rw [logName_place hrel, h.other]
      · intro j hj hp
        have := place_injective f (show place f i = place f (j + 1) from hp)
        omega
      · intro hp
        have := place_injective f (hp.trans (entry_inDir hrel) : place f i = place f 0)
        omega
  · have hnone : s'.fs.dir (entry f) = none := hslid 0 (Nat.zero_le _)
    have hsome := hthere 0 (Nat.zero_le k) (Nat.succ_ne_zero k).symm
    rw [show (s.fs.dir ∘ place f) 0 = s.fs.dir (entry f) from rfl, ← hn, hnone] at hsome
    exact absurd hsome Bool.false_ne_true

/-- There is a file at the last of the new names: the last file of the row that begins with it gets no new name. -/
theorem Rotating.overwritten (h : Rotating f k b s 0 s') (hrel : Relative f) (hthere : Present (s.fs.dir ∘ place f) k (k + 1))
    (hnext : (s.fs.dir (place f (k + 1))).isSome = true) (hends : ∃ n, ∀ i, n < i → s.fs.dir (place f i) = none) :
    ¬ Shifted f s.fs s'.fs := by
  intro hshift
  obtain ⟨n, hn⟩ := hends
  have hex : ∃ j, s.fs.dir (place f j) = none := ⟨n + 1, hn (n + 1) (Nat.lt_succ_self n)⟩
  have hmin : ∀ j < Nat.find hex, (s.fs.dir (place f j)).isSome = true := fun j hj =>
    Option.isSome_iff_ne_none.mpr (Nat.find_min hex hj)
  have hfirst : s.fs.dir (place f (Nat.find hex)) = none := Nat.find_spec hex
  have hlate : k + 1 < Nat.find hex := by
    by_contra hle
    rcases Nat.lt_or_ge k (Nat.find hex) with hlt | hle'
    · rw [show Nat.find hex = k + 1 by omega] at hfirst
      rw [hfirst] at hnext
      exact absurd hnext Bool.false_ne_true
    · have hsome := hthere _ hle' (by omega)
      rw [Function.comp_apply, hfirst] at hsome
      exact absurd hsome Bool.false_ne_true
  obtain ⟨i, hi⟩ := Nat.exists_eq_succ_of_ne_zero (show Nat.find hex ≠ 0 by omega)
  rw [hi] at hmin hfirst hlate
  have hlast := hshift.moved i fun j hj => by
    rw [logName_place hrel]
    exact hmin j (Nat.lt_succ_of_le hj)
  rw [logName_place hrel, logName_place hrel, h.other, hfirst] at hlast
  · have hsome := hmin i (Nat.lt_succ_self i)
    rw [← hlast] at hsome
    exact absurd hsome Bool.false_ne_true
  · intro j hj hp
    have := place_injective f (show place f (i + 1) = place f (j + 1) from hp)
    omega
  · intro hp
    exact absurd (place_injective f (hp.trans (entry_inDir hrel) : place f (i + 1) = place f 0)) (Nat.succ_ne_zero i)

/-- An absolute name still leads to the old file. -/
theorem Rotating.absolute (h : Rotating f k b s 0 s') (hrel : ¬ Relative f) : ¬ Shifted f s.fs s'.fs := by
  intro hshift
  obtain ⟨t, -, hentry⟩ := entry_absolute hrel
  apply hshift.current
  rw [hentry]
  exact h.other f (fun j _ hp => hrel (hp ▸ numbered_relative f (j + 1))) fun hp => hrel (hp ▸ inDir_relative f)

/-- A rotation that is due shifts all the files, if the last of the new names is free. -/
theorem rotation_due (hthere : Relative f → Present (s.fs.dir ∘ place f) k (k + 1))
    (hends : Relative f → ∃ n, ∀ i, n < i → s.fs.dir (place f i) = none) (hindex : s.maxIdx + 1 = k)
    (hpc : s.pc = .check b) (hflag : s.needRotate = true) (hint : s.maxIdx + 2 ≤ INT_MAX) {es : List Event}
    (hes : es.countP Event.isRun = (s.maxIdx + 3).toNat) :
    Sat (fun s' => s'.pc = .close b ∧ Kept s s' ∧ (Shifted f s.fs s'.fs ↔ Relative f ∧ s.fs.dir (place f (k + 1)) = none))
      (fun _ => False) (Run.run (Logger.step f) s es) := by
  refine (Rotating.ends hpc hflag hindex (by omega) (by omega)).mono (fun s' h => ⟨h.pc, h.kept, ?_⟩) fun _ => id
  by_cases hr : Relative f
  · cases hfree : s.fs.dir (place f (k + 1)) with
    | none => exact iff_of_true (h.shifted hr (hthere hr) hfree) ⟨hr, rfl⟩
    | some i => exact iff_of_false (h.overwritten hr (hthere hr) (by rw [hfree]; rfl) (hends hr)) fun hn => Option.some_ne_none i hn.2
  · exact iff_of_false (h.absolute hr) fun hn => hr hn.1

/-- **Shifting.** Whatever the name of the log, relative or absolute, and whatever older files are there at the start, `f.1` to `f.m` and perhaps
others: in every run, a rotation that is due comes to its end, and what was in the files is still there. It gives each of the files the next
name, and leaves each of them a name, if and only if the name of the log is relative and the last of the new names, `f.(k+1)` after `k`
rotations, was not in the directory at the start. -/
theorem rotation_shifts_iff (f : Path) (fs : Fs) (m : ℕ) (hleft : Left f fs m) (stream : List Byte) (es : List Event) :
    Sat (fun s => ∀ b, s.pc = .check b → s.needRotate = true → s.maxIdx + 2 ≤ INT_MAX →
        (∀ i ≤ m, (s.fs.dir (entry (logName f i))).isSome = true) ∧
        ∀ es', es'.countP Event.isRun = (s.maxIdx + 3).toNat →
          Sat (fun s' => s'.pc = .close b ∧ Kept s s' ∧
              (Shifted f s.fs s'.fs ↔ Relative f ∧ fs.dir (entry (logName f (s.maxIdx + 2).toNat)) = none))
            (fun _ => False) (Run.run (Logger.step f) s es'))
      (fun _ => True) (Run.run (Logger.step f) (init fs stream) es) := by
  by_cases hrel : Relative f
  · have hinit : Numbered f fs m (init fs stream) := by
      refine ⟨fun j hj _ => ?_, fun _ _ => rfl, le_rfl, by simp [init]⟩
      have htop : top m (init fs stream) = m := Nat.max_zero m
      rw [htop] at hj
      have hthere := hleft.there j hj
      rwa [logName_place hrel] at hthere
    apply (run_sat (fun s e h _ => h.step hrel e) es hinit (along_true es _)).mono _ fun _ => id
    intro s h b hpc hflag hint
    have hindex := h.index
    have hfiles : Present (s.fs.dir ∘ place f) (top m s) (top m s + 1) := by
      have hfiles := h.files
      rwa [hpc] at hfiles
    have hends : ∃ n, ∀ i, n < i → s.fs.dir (place f i) = none := by
      obtain ⟨n, hn⟩ := hleft.others
      refine ⟨max n (s.maxIdx + 1).toNat, fun i hi => ?_⟩
      rw [h.above i (by omega), ← logName_place hrel]
      exact hn i (by omega)
    refine ⟨fun i hi => ?_, fun es' hes => ?_⟩
    · rw [logName_place hrel]
      apply hfiles i <;> simp only [top] <;> omega
    · have hdue := rotation_due (k := (s.maxIdx + 1).toNat)
        (fun _ j hj _ => by apply hfiles j <;> simp only [top] <;> omega) (fun _ => hends) (by omega) hpc hflag hint hes
      rw [h.above _ (Nat.lt_succ_self _), ← logName_place hrel, show (s.maxIdx + 1).toNat.succ = (s.maxIdx + 2).toNat by omega] at hdue
      exact hdue
  · have hinit : Fixed fs f (init fs stream) := ⟨fun _ _ => rfl, le_rfl, by simp [init]⟩
    apply (run_sat (fun s e h _ => h.step hrel (hleft.there 0 (Nat.zero_le m)) e) es hinit (along_true es _)).mono _ fun _ => id
    intro s h b hpc hflag hint
    have hindex := h.index
    refine ⟨fun i hi => ?_, fun es' hes => ?_⟩
    · rw [h.dir _ (logName_absolute hrel i)]
      exact hleft.there i hi
    · have hdue := rotation_due (k := (s.maxIdx + 1).toNat) (fun hr => absurd hr hrel) (fun hr => absurd hr hrel) (by omega) hpc hflag hint hes
      exact hdue.mono (fun s' hs' => ⟨hs'.1, hs'.2.1, iff_of_false (fun hn => hrel (hs'.2.2.mp hn).1) fun hn => hrel hn.1⟩) fun _ => id

end

/-- The log, and `k` older files. -/
def logs (k : ℕ) : Fs where
  dir p := (List.range (k + 1)).find? fun i => entry (logName ['l'] i) = p
  data _ := []
  fresh := k + 1
  used _ _ h := List.mem_range.mp (List.mem_of_find?_eq_some h)

theorem logs_some (k i : ℕ) : ((logs k).dir (entry (logName ['l'] i))).isSome = true ↔ i ≤ k := by
  have hname : ∀ j, entry (logName ['l'] j) = place ['l'] j := logName_place (by decide)
  rw [logs, List.find?_isSome]
  constructor
  · rintro ⟨j, hj, hentry⟩
    rw [decide_eq_true_eq, hname, hname] at hentry
    obtain rfl := place_injective _ hentry
    exact Nat.lt_succ_iff.mp (List.mem_range.mp hj)
  · intro hi
    exact ⟨i, List.mem_range.mpr (Nat.lt_succ_of_le hi), decide_eq_true rfl⟩

theorem logs_left (k : ℕ) : Left ['l'] (logs k) k :=
  ⟨fun i => (logs_some k i).mpr, k, fun i hi => Option.not_isSome_iff_eq_none.mp fun hn => absurd ((logs_some k i).mp hn) (by omega)⟩

/-- One line, and a signal before it is read. -/
def signalled : List Event := [.run, .run, .hup, .run]

/-- The rotation, and a signal before the next line. -/
def signalledTwice : List Event := signalled ++ [.run, .run, .run, .run, .run, .run, .hup, .run]

/-- Of two rotations with an older file the first one goes over it, and the second one shifts them all. -/
theorem rotation_shifts_log : ∃ s s', Run.run (Logger.step ['l']) (init (logs 1) [97, 10, 98, 10]) signalledTwice = .ok s ∧
    s.pc = .check [98, 10] ∧ s.maxIdx = 0 ∧ Run.run (Logger.step ['l']) s [.run, .run, .run] = .ok s' ∧ Shifted ['l'] s.fs s'.fs ∧
    s'.fs.dir ['l', '.', '2'] = s.fs.dir ['l', '.', '1'] := by
  have hdue := rotation_shifts_iff ['l'] (logs 1) 1 (logs_left 1) [97, 10, 98, 10] signalledTwice
  refine ⟨_, _, rfl, rfl, rfl, rfl, ?_, ?_⟩
  · exact ((hdue [98, 10] rfl rfl (by decide)).2 [.run, .run, .run] rfl).2.2.mpr ⟨by decide, by decide +kernel⟩
  · exact (((hdue [98, 10] rfl rfl (by decide)).2 [.run, .run, .run] rfl).2.2.mpr ⟨by decide, by decide +kernel⟩).moved 1
      fun j hj => by interval_cases j <;> rfl

/-- The log goes over the older file. -/
theorem rotation_overwrites : ∃ s s', Run.run (Logger.step ['l']) (init (logs 1) [97, 10]) signalled = .ok s ∧
    s.pc = .check [97, 10] ∧ s.needRotate = true ∧ Left ['l'] s.fs 1 ∧
    Run.run (Logger.step ['l']) s [.run, .run] = .ok s' ∧ s'.pc = .close [97, 10] ∧ ¬ Shifted ['l'] s.fs s'.fs := by
  refine ⟨_, _, rfl, rfl, rfl, logs_left 1, rfl, rfl, fun h => ?_⟩
  exact absurd (h.moved 1 ((logs_left 1).there)) (by decide +kernel)

end Logger
end OsLabs
