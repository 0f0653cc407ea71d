/-
# Transactions survive crashes

A header that has been written is read back (`getHead_putHead`). What a recovery would make of the disk is stable, and a commit makes all
that has been done stable when it writes the header.

Key definitions: `Spec`, `Inv`.
Key theorems: `log_refines`, `log_settles`.
-/
import OsLabs.Lib.Except
import OsLabs.Lib.Simulation
import OsLabs.Xv6.Log

namespace OsLabs
namespace Xv6
namespace Log

open Function (update)
open Run Patch Threads

/-! ### The specification -/

/-- What file system calls are promised: the blocks after a crash, the blocks now, and who is in a call. -/
structure Spec (ι : Type) where
  stable : ℕ → Block
  current : ℕ → Block
  active : ι → Bool

variable {ι : Type}

/-- Calls may be kept waiting at their start, and when none is under way what they have done may become stable, all of it.
A crash ends them and undoes what is not. -/
def Spec.Next [DecidableEq ι] (q : Spec ι) (e : Event ι) (q' : Spec ι) : Prop :=
  match e with
  | .beginOp i => q' = q ∨ q' = { q with active := update q.active i true }
  | .logWrite i b v => q' = if q.active i then { q with current := update q.current b v } else q
  | .endOp i => q' = { q with active := update q.active i false }
  | .disk => q' = q ∨ ((∀ i, q.active i = false) ∧ q' = { q with stable := q.current })
  | .crash => q' = ⟨q.stable, q.stable, fun _ => false⟩

/-- The blocks outside the log. -/
def Area.Home (a : Area) (b : ℕ) : Prop := (b < a.start ∨ a.start + a.size ≤ b) ∧ b < 2 ^ 32

/-- A file system call changes no block of the log. -/
def Event.Home (a : Area) : Event ι → Prop
  | .logWrite _ b _ => a.Home b
  | _ => True

/-! ### The header -/

theorem getWord_putBlocks : ∀ (bs : List ℕ) (i : ℕ) (h : Block) {j : ℕ}, i + 1 + bs.length ≤ BSIZE / 4 → j < BSIZE / 4 →
    getWord (putBlocks i bs h) j =
      if i + 1 ≤ j ∧ j < i + 1 + bs.length then BitVec.ofNat 32 (bs.getD (j - (i + 1)) 0) else getWord h j
  | [], i, h, j, _, _ => by
    rw [putBlocks, if_neg (by simp)]
  | b :: bs, i, h, j, hlen, hj => by
    rw [List.length_cons] at hlen ⊢
    rw [putBlocks, getWord_putBlocks bs (i + 1) _ (by omega) hj]
    by_cases hji : j = 1 + i
    · subst hji
      rw [if_neg (by omega), if_pos (by omega), getWord_setWord hj, show 1 + i - (i + 1) = 0 by omega]
      rfl
    · rw [getWord_setWord_ne hji hj]
      by_cases hin : i + 1 + 1 ≤ j ∧ j < i + 1 + 1 + bs.length
      · rw [if_pos hin, if_pos (by omega), show j - (i + 1) = j - (i + 1 + 1) + 1 by omega, List.getD_cons_succ]
      · rw [if_neg hin, if_neg (by omega)]

/-- What `write_head` writes, `read_head` reads. -/
theorem getHead_putHead {lh : List ℕ} (h : Block) (hlen : lh.length ≤ LOGSIZE) (hlt : ∀ b ∈ lh, b < 2 ^ 32) :
    getHead (putHead lh h) = .ok lh := by
  have hL : LOGSIZE = 30 := rfl
  have hB : BSIZE = 512 := rfl
  have hwords : ∀ {j}, j < BSIZE / 4 → getWord (putHead lh h) j =
      if 1 ≤ j ∧ j < 1 + lh.length then BitVec.ofNat 32 (lh.getD (j - 1) 0)
      else getWord (setWord h 0 (BitVec.ofNat 32 lh.length)) j := fun {j} hj => by
    have := getWord_putBlocks lh 0 (setWord h 0 (BitVec.ofNat 32 lh.length)) (by omega) hj
    rwa [Nat.zero_add] at this
  have hn : (getWord (putHead lh h) 0).toInt = lh.length := by
    rw [hwords (by omega), if_neg (by omega), getWord_setWord (by omega)]
    rw [BitVec.toInt_eq_toNat_of_lt (by rw [BitVec.toNat_ofNat]; omega), BitVec.toNat_ofNat]
    omega
  unfold getHead
  simp only [hn, Int.toNat_natCast]
  rw [if_pos (by omega)]
  congr 1
  apply List.ext_getElem (by simp)
  intro i h1 h2
  rw [List.getElem_map, List.getElem_range, hwords (by omega), if_pos (by omega), Nat.add_sub_cancel_left,
    List.getD_eq_getElem _ _ h2, BitVec.toNat_ofNat]
  exact Nat.mod_eq_of_lt (hlt _ (List.getElem_mem h2))

/-! ### The transaction on the disk -/

/-- Blocks that can be a transaction. -/
structure Area.Fits (a : Area) (lh : List ℕ) : Prop where
  nodup : lh.Nodup
  home : ∀ b ∈ lh, a.Home b
  small : lh.length ≤ LOGSIZE
  room : lh.length < a.size

variable {a : Area} {d d' : ℕ → Block} {lh : List ℕ} {b tail : ℕ}

theorem Area.Home.ne_slot (h : a.Home b) (ht : tail + 1 < a.size) : b ≠ a.slot tail := by
  unfold Area.Home at h
  unfold Area.slot
  omega

theorem Area.Home.ne_start (h : a.Home b) (ha : 0 < a.size) : b ≠ a.start := by
  unfold Area.Home at h
  omega

theorem Area.slot_ne_start (a : Area) (tail : ℕ) : a.slot tail ≠ a.start := by
  unfold Area.slot
  omega

theorem Area.slot_inj {t t' : ℕ} (h : a.slot t = a.slot t') : t = t' := by
  unfold Area.slot at h
  omega

namespace Area.Fits

theorem pos (h : a.Fits lh) : 0 < a.size := Nat.zero_lt_of_lt h.room

theorem mem (ht : tail < lh.length) : lh.getD tail 0 ∈ lh := by
  rw [List.getD_eq_getElem _ _ ht]
  exact List.getElem_mem ht

theorem home_getD (h : a.Fits lh) (ht : tail < lh.length) : a.Home (lh.getD tail 0) := h.home _ (mem ht)

theorem ne_slot (h : a.Fits lh) (hb : a.Home b) (ht : tail < lh.length) : b ≠ a.slot tail :=
  hb.ne_slot (Nat.lt_of_le_of_lt ht h.room)

theorem inj (h : a.Fits lh) {i j : ℕ} (hi : i < lh.length) (hj : j < lh.length) (he : lh.getD i 0 = lh.getD j 0) :
    i = j := by
  rw [List.getD_eq_getElem _ _ hi, List.getD_eq_getElem _ _ hj] at he
  exact (List.Nodup.getElem_inj_iff h.nodup).mp he

theorem nil (ha : 0 < a.size) : a.Fits [] := ⟨List.nodup_nil, by simp, Nat.zero_le _, ha⟩

end Area.Fits

theorem exists_getD (h : b ∈ lh) : ∃ j < lh.length, lh.getD j 0 = b := by
  obtain ⟨j, hj, rfl⟩ := List.getElem_of_mem h
  exact ⟨j, hj, List.getD_eq_getElem _ _ hj⟩

theorem map_fst_logged : (logged a d lh).map Prod.fst = lh := by
  unfold logged
  rw [List.map_map]
  exact List.zipIdx_map_fst 0 lh

theorem mem_logged {w : ℕ × Block} (h : w ∈ logged a d lh) : ∃ j < lh.length, w = (lh.getD j 0, d (a.slot j)) := by
  unfold logged at h
  obtain ⟨p, hp, rfl⟩ := List.mem_map.mp h
  have hget := List.mem_zipIdx' hp
  exact ⟨p.2, hget.1, Prod.ext (hget.2.trans (List.getD_eq_getElem _ _ hget.1).symm) rfl⟩

/-- What a recovery brings about: the blocks of the transaction as the log has them, the others as they are. -/
theorem recovered_eq {e : ℕ → Block} (hh : getHead (d a.start) = .ok lh)
    (hlog : ∀ j < lh.length, d (a.slot j) = e (lh.getD j 0)) (hb : b ∉ lh → d b = e b) : recovered a d b = e b := by
  unfold recovered
  rw [hh]
  refine patch_eq (fun w hw => ?_) (by rwa [map_fst_logged])
  obtain ⟨j, hj, rfl⟩ := mem_logged hw
  exact hlog j hj

theorem recovered_clean (hh : getHead (d a.start) = .ok []) : recovered a d b = d b :=
  recovered_eq hh (by simp) fun _ => rfl

/-- Disks with the same transaction on them that differ only in its blocks recover to the same. -/
theorem recovered_congr (hh : getHead (d a.start) = .ok lh) (hh' : getHead (d' a.start) = .ok lh)
    (hlog : ∀ j < lh.length, d' (a.slot j) = d (a.slot j)) (hb : b ∉ lh → d' b = d b) :
    recovered a d' b = recovered a d b := by
  unfold recovered
  rw [hh, hh']
  have hsame : logged a d' lh = logged a d lh := by
    unfold logged
    refine List.map_congr_left fun p hp => ?_
    rw [hlog _ (List.mem_zipIdx' hp).1]
  show patch d' (logged a d' lh) b = patch d (logged a d lh) b
  rw [hsame]
  exact patch_congr (by rwa [map_fst_logged])

/-! ### The invariant -/

variable {s s' : State ι} {q : Spec ι} {e : Event ι}

/-- `write_log` has copied so many blocks. -/
def Copied (a : Area) (s : State ι) (n : ℕ) : Prop :=
  ∀ j < n, s.store.disk (a.slot j) = s.store.bread (s.lh.getD j 0)

/-- `install_trans` has brought so many blocks of `lh` home. -/
def Installed (a : Area) (s : State ι) (lh : List ℕ) (n : ℕ) : Prop :=
  ∀ j < n, s.store.dirty (lh.getD j 0) = none ∧ s.store.disk (lh.getD j 0) = s.store.disk (a.slot j)

/-- The header on the disk. -/
def OnDisk (a : Area) (s : State ι) (lh : List ℕ) : Prop := getHead (s.store.disk a.start) = .ok lh ∧ a.Fits lh

/-- What holds at a place of `commit` or `recover_from_log`. -/
def Phase (a : Area) (s : State ι) : Prop :=
  match s.pc with
  | .idle => OnDisk a s [] ∧ (s.outstanding = 0 → s.lh = [])
  | .writeLog tail => OnDisk a s [] ∧ tail ≤ s.lh.length ∧ Copied a s tail
  | .writeHead => OnDisk a s [] ∧ Copied a s s.lh.length
  | .installTrans r tail => OnDisk a s s.lh ∧ tail ≤ s.lh.length ∧ Installed a s s.lh tail ∧
      (r = false → Copied a s s.lh.length) ∧ (r = true → ∀ b, s.store.dirty b = none)
  | .eraseHead _ => s.lh = [] ∧ ∃ lh, OnDisk a s lh ∧ Installed a s lh lh.length
  | .committed => s.lh = [] ∧ OnDisk a s []
  | .readHead => s.lh = [] ∧ ∃ lh, OnDisk a s lh

def inCall (c : Option (Finset ℕ)) : ℕ := if c.isSome then 1 else 0

variable [Fintype ι]

structure Inv (a : Area) (s : State ι) : Prop where
  fits : a.Fits s.lh
  dirty : ∀ b, s.store.dirty b ≠ none → b ∈ s.lh
  phase : Phase a s
  counted : s.outstanding = tally inCall s.calls
  /-- Nobody is in a call while a transaction is written. -/
  quiet : s.pc ≠ .idle → s.outstanding = 0
  flag : s.committing = true ↔ s.pc ≠ .idle ∧ s.pc.recovering = false

/-- How the machine stands to what is promised. -/
structure Abs (a : Area) (s : State ι) (q : Spec ι) : Prop where
  stable : ∀ b, a.Home b → recovered a s.store.disk b = q.stable b
  current : s.pc.recovering = false → ∀ b, a.Home b → s.store.bread b = q.current b
  booted : s.pc.recovering = true → ∀ b, a.Home b → q.current b = q.stable b
  active : ∀ i, q.active i = (s.calls i).isSome

namespace Inv

theorem calls_none (h : Inv a s) (h0 : s.outstanding = 0) (i : ι) : s.calls i = none := by
  have hi := tally_eq_zero.mp (h.counted ▸ h0) i
  unfold inCall at hi
  split_ifs at hi with hc
  exact Option.not_isSome_iff_eq_none.mp hc

/-- Who is in a call finds nobody committing. -/
theorem idle_of_call (h : Inv a s) {i : ι} (hi : (s.calls i).isSome) : s.pc = .idle := by
  by_contra hpc
  rw [h.calls_none (h.quiet hpc) i] at hi
  cases hi

theorem clean (h : Inv a s) (hb : b ∉ s.lh) : s.store.dirty b = none := by
  by_contra hd
  exact hb (h.dirty b hd)

theorem bread_clean (h : Inv a s) (hb : b ∉ s.lh) : s.store.bread b = s.store.disk b := Store.bread_of_clean (h.clean hb)

theorem bread_slot (h : Inv a s) {j : ℕ} (hj : j < s.lh.length) : s.store.bread (a.slot j) = s.store.disk (a.slot j) :=
  h.bread_clean fun hm => h.fits.ne_slot (h.fits.home _ hm) hj rfl

/-- A header that a recovery can use is on the disk at any time. -/
theorem onDisk (h : Inv a s) : ∃ lh, OnDisk a s lh := by
  have hp := h.phase
  unfold Phase at hp
  split at hp
  · exact ⟨_, hp.1⟩
  · exact ⟨_, hp.1⟩
  · exact ⟨_, hp.1⟩
  · exact ⟨_, hp.1⟩
  · obtain ⟨-, lh, hlh, -⟩ := hp
    exact ⟨lh, hlh⟩
  · exact ⟨_, hp.2⟩
  · exact hp.2

theorem idle_phase (h : Inv a s) (hpc : s.pc = .idle) : OnDisk a s [] ∧ (s.outstanding = 0 → s.lh = []) := by
  have hp := h.phase
  unfold Phase at hp
  rwa [hpc] at hp

end Inv

/-- When no call is under way and nobody commits, what has been done is stable. -/
theorem Abs.saved (hI : Inv a s) (h : Abs a s q) (hpc : s.pc = .idle) (h0 : s.outstanding = 0) (hb : a.Home b) :
    q.stable b = q.current b := by
  obtain ⟨⟨hh, -⟩, hlh⟩ := hI.idle_phase hpc
  rw [← h.stable b hb, ← h.current (by rw [hpc]; rfl) b hb, recovered_clean hh,
    hI.bread_clean (by rw [hlh h0]; exact List.not_mem_nil)]

/-! ### The calls -/

variable [DecidableEq ι]

theorem sim_beginOp {i : ι} (hI : Inv a s) (hA : Abs a s q) (hi : s.calls i = none) (hup : s.pc.recovering = false) :
    ∃ q', q.Next (.beginOp i) q' ∧ Inv a (beginOp s i) ∧ Abs a (beginOp s i) q' := by
  unfold beginOp
  split_ifs with hc hroom
  · exact ⟨q, Or.inl rfl, hI, hA⟩
  · exact ⟨q, Or.inl rfl, hI, hA⟩
  · have hpc : s.pc = .idle := by
      by_contra hpc
      exact hc (hI.flag.mpr ⟨hpc, hup⟩)
    have hphase := hI.idle_phase hpc
    refine ⟨_, Or.inr rfl, ⟨hI.fits, hI.dirty, ?_, ?_, fun h => absurd hpc h, hI.flag⟩, hA.stable, hA.current, hA.booted, fun j => ?_⟩
    · unfold Phase
      dsimp only
      rw [hpc]
      exact ⟨hphase.1, fun h => absurd h (Nat.succ_ne_zero _)⟩
    · have := tally_update inCall s.calls i (some ∅)
      rw [hi] at this
      have hcount := hI.counted
      simp only [inCall, Option.isSome_none, Option.isSome_some, if_pos, Bool.false_eq_true, if_false] at this ⊢
      omega
    · by_cases hj : j = i
      · simp [hj]
      · simp only [Function.update_of_ne hj]
        exact hA.active j

omit [Fintype ι] in
theorem logWrite_ok {i : ι} {bs : Finset ℕ} {v : Block} (h : logWrite a s i bs b v = .ok s') :
    s.lh.length < LOGSIZE ∧ s.lh.length < a.size - 1 ∧ 0 < s.outstanding ∧ s' = { s with
      lh := if b ∈ s.lh then s.lh else s.lh ++ [b]
      store := s.store.pin b v
      calls := update s.calls i (some (insert b bs)) } := by
  unfold logWrite at h
  by_cases hbig : s.lh.length ≥ LOGSIZE ∨ s.lh.length ≥ a.size - 1
  · rw [if_pos hbig] at h
    cases h
  rw [if_neg hbig] at h
  by_cases hout : s.outstanding < 1
  · rw [if_pos hout] at h
    cases h
  rw [if_neg hout] at h
  exact ⟨by omega, by omega, by omega, (Except.ok.inj h).symm⟩

theorem sim_logWrite {i : ι} {bs : Finset ℕ} {v : Block} (hI : Inv a s) (hA : Abs a s q) (hi : s.calls i = some bs) (hb : a.Home b)
    (h : logWrite a s i bs b v = .ok s') : ∃ q', q.Next (.logWrite i b v) q' ∧ Inv a s' ∧ Abs a s' q' := by
  have hpc := hI.idle_of_call (by rw [hi]; rfl)
  obtain ⟨hhead, h0⟩ := hI.idle_phase hpc
  obtain ⟨hsmall, hroom, hout, rfl⟩ := logWrite_ok h
  have hactive : q.active i = true := by rw [hA.active, hi]; rfl
  refine ⟨_, rfl, ⟨?_, fun c hc => ?_, ?_, ?_, fun h => absurd hpc h, hI.flag⟩, ?_⟩
  · dsimp only
    split_ifs with hmem
    · exact hI.fits
    · refine ⟨?_, fun c hc => ?_, ?_, ?_⟩
      · exact List.nodup_append.mpr ⟨hI.fits.nodup, List.nodup_singleton b, by
          simp only [List.mem_singleton]
          rintro x hx _ rfl rfl
          exact hmem hx⟩
      · rcases List.mem_append.mp hc with hc | hc
        · exact hI.fits.home c hc
        · rw [List.mem_singleton.mp hc]
          exact hb
      · rw [List.length_append, List.length_singleton]
        omega
      · rw [List.length_append, List.length_singleton]
        omega
  · have hcb : c = b ∨ c ∈ s.lh := by
      by_cases hcb : c = b
      · exact Or.inl hcb
      · exact Or.inr (hI.dirty c (by simpa [Store.pin, Function.update_of_ne hcb] using hc))
    dsimp only
    split_ifs with hmem
    · exact hcb.elim (fun hcb => hcb ▸ hmem) id
    · rw [List.mem_append, List.mem_singleton]
      exact hcb.symm
  · unfold Phase
    dsimp only
    rw [hpc]
    exact ⟨hhead, fun h => by omega⟩
  · have hsame : inCall (some (insert b bs)) = inCall (s.calls i) := by rw [hi]; rfl
    exact hI.counted.trans (tally_update_same hsame).symm
  · have hcalls : ∀ j, (update s.calls i (some (insert b bs)) j).isSome = (s.calls j).isSome := fun j => by
      by_cases hj : j = i
      · simp [hj, hi]
      · rw [Function.update_of_ne hj]
    rw [hactive, if_pos rfl]
    refine ⟨hA.stable, fun hr c hc => ?_, fun hr => ?_, fun j => (hA.active j).trans (hcalls j).symm⟩
    · dsimp only
      rw [Store.pin_bread]
      by_cases hcb : c = b
      · simp [hcb]
      · rw [Function.update_of_ne hcb, Function.update_of_ne hcb]
        exact hA.current hr c hc
    · dsimp only at hr
      rw [hpc] at hr
      cases hr

theorem sim_endOp {i : ι} (hI : Inv a s) (hA : Abs a s q) (hi : (s.calls i).isSome) (h : endOp s i = .ok s') :
    ∃ q', q.Next (.endOp i) q' ∧ Inv a s' ∧ Abs a s' q' := by
  have hpc := hI.idle_of_call hi
  obtain ⟨hhead, h0⟩ := hI.idle_phase hpc
  have hcount : s.outstanding - 1 = tally inCall (update s.calls i none) := by
    have := tally_update inCall s.calls i none
    have hc := hI.counted
    simp only [inCall, hi, Option.isSome_none, if_pos, Bool.false_eq_true, if_false] at this hc ⊢
    omega
  have hactive : ∀ j, update q.active i false j = (update s.calls i none j).isSome := fun j => by
    by_cases hj : j = i
    · simp [hj]
    · rw [Function.update_of_ne hj, Function.update_of_ne hj]
      exact hA.active j
  have hcur := hA.current (by rw [hpc]; rfl)
  unfold endOp at h
  split_ifs at h with hc
  dsimp only at h
  refine ⟨_, rfl, ?_⟩
  split_ifs at h with hlast hlh
  · cases h
    refine ⟨⟨hI.fits, hI.dirty, ?_, hcount, fun _ => hlast, by simp [Pc.recovering]⟩, hA.stable, fun _ => hcur, by simp [Pc.recovering], hactive⟩
    exact ⟨hhead, Nat.zero_le _, fun j hj => absurd hj (Nat.not_lt_zero j)⟩
  · cases h
    refine ⟨⟨hI.fits, hI.dirty, ?_, hcount, fun _ => hlast, by simp [Pc.recovering]⟩, hA.stable, fun _ => hcur, by simp [Pc.recovering], hactive⟩
    exact ⟨List.length_eq_zero_iff.mp (Nat.eq_zero_of_not_pos hlh), hhead⟩
  · cases h
    refine ⟨⟨hI.fits, hI.dirty, ?_, hcount, fun h => absurd hpc h, hI.flag⟩, hA.stable, hA.current, hA.booted, hactive⟩
    unfold Phase
    dsimp only
    rw [hpc]
    exact ⟨hhead, fun h => absurd h hlast⟩

theorem sim_crash (hI : Inv a s) (hA : Abs a s q) :
    ∃ q', q.Next .crash q' ∧ Inv a (State.boot s.store.disk : State ι) ∧ Abs a (State.boot s.store.disk : State ι) q' := by
  obtain ⟨lh, hlh⟩ := hI.onDisk
  refine ⟨_, rfl, ⟨.nil hI.fits.pos, fun b hb => absurd rfl hb, ⟨rfl, lh, hlh⟩, ?_, fun _ => rfl, ?_⟩, hA.stable, ?_, fun _ _ _ => rfl, fun _ => rfl⟩
  · exact (tally_eq_zero.mpr fun _ => rfl).symm
  · simp [State.boot, Pc.recovering]
  · simp [State.boot, Pc.recovering]

/-! ### The disk -/

/-- A step of the disk that ends in `t` and is none for whoever makes calls. -/
theorem sim_quiet {t : State ι} (hI : Inv a t) (hA : Abs a s q) (hcalls : t.calls = s.calls)
    (hstable : ∀ b, a.Home b → recovered a t.store.disk b = recovered a s.store.disk b)
    (hcur : t.pc.recovering = false → ∀ b, a.Home b → t.store.bread b = q.current b)
    (hboot : t.pc.recovering = true → s.pc.recovering = true) :
    ∃ q', q.Next .disk q' ∧ Inv a t ∧ Abs a t q' :=
  ⟨q, Or.inl rfl, hI, fun b hb => (hstable b hb).trans (hA.stable b hb), hcur, fun hr => hA.booted (hboot hr), fun j => by
    rw [hcalls]
    exact hA.active j⟩

theorem sim_writeLog {tail : ℕ} (hI : Inv a s) (hA : Abs a s q) (hpc : s.pc = .writeLog tail) (h : diskStep a s = .ok s') :
    ∃ q', q.Next .disk q' ∧ Inv a s' ∧ Abs a s' q' := by
  have hp := hI.phase
  unfold Phase at hp
  rw [hpc] at hp
  obtain ⟨⟨hh, hnil⟩, hle, hcopied⟩ := hp
  have hflag : s.committing = true := hI.flag.mpr (by simp [hpc, Pc.recovering])
  have h0 : s.outstanding = 0 := hI.quiet (by simp [hpc])
  have hcur := hA.current (by rw [hpc]; rfl)
  unfold diskStep at h
  rw [hpc] at h
  dsimp only at h
  split_ifs at h with ht
  · cases h
    have hhead : (writeLogBody a s tail).disk a.start = s.store.disk a.start :=
      Store.bwrite_disk_ne (a.slot_ne_start tail).symm
    have hdisk : ∀ b, a.Home b → (writeLogBody a s tail).disk b = s.store.disk b := fun b hb =>
      Store.bwrite_disk_ne (hI.fits.ne_slot hb ht)
    have hbread : ∀ b, a.Home b → (writeLogBody a s tail).bread b = s.store.bread b := fun b hb =>
      Store.bwrite_bread_ne (hI.fits.ne_slot hb ht)
    have hh' : getHead ((writeLogBody a s tail).disk a.start) = .ok [] := by rw [hhead, hh]
    refine sim_quiet ⟨hI.fits, fun b hb => ?_, ⟨⟨hh', hnil⟩, ht, fun j hj => ?_⟩, hI.counted, fun _ => h0,
      by simp [Pc.recovering, hflag]⟩ hA rfl (fun b hb => ?_) (fun _ b hb => ?_) (by simp [Pc.recovering])
    · exact hI.dirty b fun hnone => hb (Store.bwrite_dirty_none hnone)
    · dsimp only
      rw [hbread _ (hI.fits.home_getD (Nat.lt_of_lt_of_le hj ht))]
      by_cases hjt : j = tail
      · rw [hjt]
        exact Store.bwrite_disk_self
      · rw [← hcopied j (by omega)]
        exact Store.bwrite_disk_ne fun he => hjt (Area.slot_inj he)
    · rw [recovered_clean hh', recovered_clean hh, hdisk b hb]
    · exact (hbread b hb).trans (hcur b hb)
  · cases h
    obtain rfl : tail = s.lh.length := by omega
    exact sim_quiet ⟨hI.fits, hI.dirty, ⟨⟨hh, hnil⟩, hcopied⟩, hI.counted, fun _ => h0, by simp [Pc.recovering, hflag]⟩ hA rfl
      (fun b hb => rfl) (fun _ => hcur) (by simp [Pc.recovering])

/-- The commit: what has been done becomes stable. -/
theorem sim_writeHead (hI : Inv a s) (hA : Abs a s q) (hpc : s.pc = .writeHead) (h : diskStep a s = .ok s') :
    ∃ q', q.Next .disk q' ∧ Inv a s' ∧ Abs a s' q' := by
  have hp := hI.phase
  unfold Phase at hp
  rw [hpc] at hp
  obtain ⟨⟨hh, hnil⟩, hcopied⟩ := hp
  have hflag : s.committing = true := hI.flag.mpr (by simp [hpc, Pc.recovering])
  have h0 : s.outstanding = 0 := hI.quiet (by simp [hpc])
  have hcur := hA.current (by rw [hpc]; rfl)
  unfold diskStep at h
  rw [hpc] at h
  cases h
  have hhead : getHead ((writeHead a s).disk a.start) = .ok s.lh := by
    unfold writeHead
    rw [Store.bwrite_disk_self]
    exact getHead_putHead _ hI.fits.small fun b hb => (hI.fits.home b hb).2
  have hbread : ∀ b, b ≠ a.start → (writeHead a s).bread b = s.store.bread b := fun b hb =>
    Store.bwrite_bread_ne hb
  have hdisk : ∀ b, b ≠ a.start → (writeHead a s).disk b = s.store.disk b := fun b hb => Store.bwrite_disk_ne hb
  have hhome : ∀ b, a.Home b → b ≠ a.start := fun b hb => hb.ne_start hI.fits.pos
  have hlog : ∀ j < s.lh.length, (writeHead a s).disk (a.slot j) = s.store.bread (s.lh.getD j 0) := fun j hj => by
    rw [hdisk _ (a.slot_ne_start j), hcopied j hj]
  refine ⟨{ q with stable := q.current }, Or.inr ⟨fun i => by rw [hA.active, hI.calls_none h0]; rfl, rfl⟩,
    ⟨hI.fits, fun b hb => ?_, ⟨⟨hhead, hI.fits⟩, Nat.zero_le _, fun j hj => absurd hj (Nat.not_lt_zero j), fun _ j hj => ?_, by simp⟩,
      hI.counted, fun _ => h0, by simp [Pc.recovering, hflag]⟩, fun b hb => ?_, fun _ b hb => ?_, by simp [Pc.recovering], hA.active⟩
  · exact hI.dirty b fun hnone => hb (Store.bwrite_dirty_none hnone)
  · dsimp only
    rw [hbread _ (hhome _ (hI.fits.home_getD hj)), hlog j hj]
  · dsimp only
    rw [← hcur b hb]
    refine recovered_eq hhead hlog fun hmem => ?_
    rw [hdisk b (hhome b hb), hI.bread_clean hmem]
  · exact (hbread b (hhome b hb)).trans (hcur b hb)

theorem sim_installTrans {r : Bool} {tail : ℕ} (hI : Inv a s) (hA : Abs a s q) (hpc : s.pc = .installTrans r tail)
    (h : diskStep a s = .ok s') : ∃ q', q.Next .disk q' ∧ Inv a s' ∧ Abs a s' q' := by
  have hp := hI.phase
  unfold Phase at hp
  rw [hpc] at hp
  obtain ⟨⟨hh, hfits⟩, hle, hinst, hcopied, hnone⟩ := hp
  have hflag : s.committing = true ↔ r = false := hI.flag.trans (by simp [hpc, Pc.recovering])
  have h0 : s.outstanding = 0 := hI.quiet (by simp [hpc])
  have hrec : s.pc.recovering = r := by rw [hpc]; rfl
  unfold diskStep at h
  rw [hpc] at h
  dsimp only at h
  split_ifs at h with ht
  · cases h
    have hb := hI.fits.home_getD ht
    have hslot := hI.bread_slot ht
    have hdisk : ∀ c, c ≠ s.lh.getD tail 0 → (installTransBody a s tail).disk c = s.store.disk c := fun c hc =>
      Store.bwrite_disk_ne hc
    have hdirty : ∀ c, s.store.dirty c = none → (installTransBody a s tail).dirty c = none := fun c hc =>
      Store.bwrite_dirty_none hc
    have hslots : ∀ j < s.lh.length, (installTransBody a s tail).disk (a.slot j) = s.store.disk (a.slot j) := fun j hj =>
      hdisk _ (hI.fits.ne_slot hb hj).symm
    have hhead : getHead ((installTransBody a s tail).disk a.start) = .ok s.lh := by
      rw [hdisk _ (hb.ne_start hI.fits.pos).symm, hh]
    -- what is brought home is what the buffers have already
    have hbread : r = false → (installTransBody a s tail).bread = s.store.bread := fun hr => by
      unfold installTransBody
      rw [hslot, hcopied hr tail ht, Store.bwrite_self]
    refine sim_quiet ⟨hI.fits, fun c hc => ?_, ⟨⟨hhead, hfits⟩, ht, fun j hj => ?_, fun hr j hj => ?_, fun hr c => hdirty c (hnone hr c)⟩,
      hI.counted, fun _ => h0, by simp [Pc.recovering, hflag]⟩ hA rfl (fun c hc => ?_) (fun hr c hc => ?_) (by simp [Pc.recovering, hpc])
    · by_contra hmem
      exact hc (hdirty c (hI.clean hmem))
    · dsimp only
      by_cases hjt : j = tail
      · rw [hjt, hslots tail ht]
        exact ⟨Store.bwrite_dirty_self, Store.bwrite_disk_self.trans hslot⟩
      · obtain ⟨hd, he⟩ := hinst j (by omega)
        have hne : s.lh.getD j 0 ≠ s.lh.getD tail 0 := fun hc => hjt (hI.fits.inj (by omega) ht hc)
        rw [hdisk _ hne, hslots j (by omega)]
        exact ⟨hdirty _ hd, he⟩
    · dsimp only
      rw [hbread hr, hslots j hj]
      exact hcopied hr j hj
    · exact recovered_congr hh hhead hslots fun hmem => hdisk c fun hc => hmem (hc ▸ Area.Fits.mem ht)
    · dsimp only
      rw [hbread hr]
      exact hA.current (hrec.trans hr) c hc
  · cases h
    obtain rfl : tail = s.lh.length := by omega
    refine sim_quiet ⟨.nil hI.fits.pos, fun c hc => ?_, ⟨rfl, s.lh, ⟨hh, hfits⟩, hinst⟩, hI.counted, fun _ => h0,
      by simp [Pc.recovering, hflag]⟩ hA rfl (fun b hb => rfl) (fun hr => hA.current (hrec.trans hr)) (fun hr => hrec.trans hr)
    obtain ⟨j, hj, rfl⟩ := exists_getD (hI.dirty c hc)
    exact absurd (hinst j hj).1 hc

theorem sim_eraseHead {r : Bool} (hI : Inv a s) (hA : Abs a s q) (hpc : s.pc = .eraseHead r) (h : diskStep a s = .ok s') :
    ∃ q', q.Next .disk q' ∧ Inv a s' ∧ Abs a s' q' := by
  have hp := hI.phase
  unfold Phase at hp
  rw [hpc] at hp
  obtain ⟨hlh, lh, ⟨hh, hfits⟩, hinst⟩ := hp
  have hflag : s.committing = true ↔ r = false := hI.flag.trans (by simp [hpc, Pc.recovering])
  have h0 : s.outstanding = 0 := hI.quiet (by simp [hpc])
  have hrec : s.pc.recovering = r := by rw [hpc]; rfl
  have hnone : ∀ b, s.store.dirty b = none := fun b => hI.clean (by rw [hlh]; exact List.not_mem_nil)
  unfold diskStep at h
  rw [hpc] at h
  cases h
  have hhead : getHead ((writeHead a s).disk a.start) = .ok [] := by
    unfold writeHead
    rw [Store.bwrite_disk_self, hlh]
    exact getHead_putHead _ (Nat.zero_le _) (by simp)
  have hdirty : ∀ b, (writeHead a s).dirty b = none := fun b => Store.bwrite_dirty_none (hnone b)
  have hdisk : ∀ b, a.Home b → (writeHead a s).disk b = s.store.disk b := fun b hb =>
    Store.bwrite_disk_ne (hb.ne_start hI.fits.pos)
  -- everything is home
  have hrecovered : ∀ b, a.Home b → recovered a s.store.disk b = s.store.disk b := fun b hb =>
    recovered_eq hh (fun j hj => (hinst j hj).2.symm) fun _ => rfl
  have hstable : ∀ b, a.Home b → recovered a (writeHead a s).disk b = recovered a s.store.disk b := fun b hb => by
    rw [recovered_clean hhead, hrecovered b hb, hdisk b hb]
  have hcur : ∀ b, a.Home b → (writeHead a s).bread b = q.current b := fun b hb => by
    rw [Store.bread_of_clean (hdirty b), hdisk b hb]
    cases r with
    | false => rw [← hA.current hrec b hb, Store.bread_of_clean (hnone b)]
    | true => rw [hA.booted hrec b hb, ← hA.stable b hb, hrecovered b hb]
  refine sim_quiet ⟨hI.fits, fun b hb => absurd (hdirty b) hb, ?_, hI.counted, fun _ => h0, ?_⟩ hA rfl hstable (fun _ => hcur) ?_
  · unfold Phase
    cases r with
    | false => exact ⟨hlh, hhead, .nil hI.fits.pos⟩
    | true => exact ⟨⟨hhead, .nil hI.fits.pos⟩, fun _ => hlh⟩
  · cases r <;> simp [Pc.recovering, hflag]
  · cases r <;> simp [Pc.recovering]

theorem sim_disk (hI : Inv a s) (hA : Abs a s q) (h : diskStep a s = .ok s') :
    ∃ q', q.Next .disk q' ∧ Inv a s' ∧ Abs a s' q' := by
  cases hpc : s.pc with
  | idle =>
    unfold diskStep at h
    rw [hpc] at h
    cases h
    exact ⟨q, Or.inl rfl, hI, hA⟩
  | writeLog tail => exact sim_writeLog hI hA hpc h
  | writeHead => exact sim_writeHead hI hA hpc h
  | installTrans r tail => exact sim_installTrans hI hA hpc h
  | eraseHead r => exact sim_eraseHead hI hA hpc h
  | committed =>
    have hp := hI.phase
    have h0 : s.outstanding = 0 := hI.quiet (by simp [hpc])
    have hcur := hA.current (by rw [hpc]; rfl)
    unfold Phase at hp
    rw [hpc] at hp
    unfold diskStep at h
    rw [hpc] at h
    cases h
    exact sim_quiet ⟨hI.fits, hI.dirty, ⟨hp.2, fun _ => hp.1⟩, hI.counted, fun _ => h0, by simp⟩ hA rfl (fun b hb => rfl)
      (fun _ => hcur) (by simp [Pc.recovering])
  | readHead =>
    have hp := hI.phase
    have h0 : s.outstanding = 0 := hI.quiet (by simp [hpc])
    have hflag : s.committing = false := Bool.eq_false_iff.mpr fun hc => by simpa [hpc, Pc.recovering] using hI.flag.mp hc
    unfold Phase at hp
    rw [hpc] at hp
    obtain ⟨hlh, lh, hh, hfits⟩ := hp
    have hnone : ∀ b, s.store.dirty b = none := fun b => hI.clean (by rw [hlh]; exact List.not_mem_nil)
    unfold diskStep at h
    rw [hpc] at h
    dsimp only at h
    rw [Store.bread_of_clean (hnone _), hh] at h
    cases h
    exact sim_quiet ⟨hfits, fun b hb => absurd (hnone b) hb,
      ⟨⟨hh, hfits⟩, Nat.zero_le _, fun j hj => absurd hj (Nat.not_lt_zero j), by simp, fun _ => hnone⟩,
      hI.counted, fun _ => h0, by simp [Pc.recovering, hflag]⟩ hA rfl (fun b hb => rfl) (by simp [Pc.recovering]) (fun _ => by rw [hpc]; rfl)

theorem sim_step (hI : Inv a s) (hA : Abs a s q) (he : e.Home a) (h : step a s e = .ok s') :
    ∃ q', q.Next e q' ∧ Inv a s' ∧ Abs a s' q' := by
  cases e with
  | beginOp i =>
    have h := Except.ok.inj h
    split_ifs at h with hc
    · exact ⟨q, Or.inl rfl, h ▸ hI, h ▸ hA⟩
    · rw [not_or, Bool.not_eq_true, Bool.not_eq_true, Option.isSome_eq_false_iff, Option.isNone_iff_eq_none] at hc
      exact h ▸ sim_beginOp hI hA hc.2 hc.1
  | logWrite i b v =>
    cases hi : s.calls i with
    | none =>
      rw [step_logWrite_none hi] at h
      cases h
      exact ⟨q, by simp [Spec.Next, hA.active, hi], hI, hA⟩
    | some bs =>
      rw [step_logWrite hi] at h
      exact sim_logWrite hI hA hi he h
  | endOp i =>
    unfold step at h
    dsimp only at h
    split_ifs at h with hi
    · exact sim_endOp hI hA hi h
    · cases h
      refine ⟨_, rfl, hI, ⟨hA.stable, hA.current, hA.booted, fun j => ?_⟩⟩
      by_cases hj : j = i
      · simp [hj, hi]
      · simp only [Function.update_of_ne hj]
        exact hA.active j
  | disk => exact sim_disk hI hA h
  | crash =>
    cases h
    exact sim_crash hI hA

/-! ### The runs -/

omit [DecidableEq ι] in
theorem boot_inv {d : ℕ → Block} (ha : 0 < a.size) (hd : getHead (d a.start) = .ok []) :
    Inv a (State.boot d : State ι) ∧ Abs a (State.boot d : State ι) ⟨d, d, fun _ => false⟩ := by
  refine ⟨⟨.nil ha, fun b hb => absurd rfl hb, ⟨rfl, [], hd, .nil ha⟩, ?_, fun _ => rfl, by simp [State.boot, Pc.recovering]⟩,
    ⟨fun b _ => recovered_clean hd, fun hr => by simp [State.boot, Pc.recovering] at hr, fun _ _ _ => rfl, fun _ => rfl⟩⟩
  exact (tally_eq_zero.mpr fun _ => rfl).symm

/-- At most so many steps are left of `commit` or `recover_from_log`. -/
def left (s : State ι) : ℕ :=
  match s.pc with
  | .idle => 0
  | .committed => 1
  | .eraseHead _ => 2
  | .installTrans _ tail => s.lh.length - tail + 3
  | .writeHead => s.lh.length + 4
  | .writeLog tail => s.lh.length - tail + s.lh.length + 5
  | .readHead => LOGSIZE + 4

omit [DecidableEq ι] in
theorem diskStep_left (h : Inv a s) (hpc : s.pc ≠ .idle) :
    ∃ s', diskStep a s = .ok s' ∧ left s' < left s ∧ s'.outstanding = s.outstanding := by
  have hp := h.phase
  unfold Phase at hp
  unfold diskStep
  cases hpc' : s.pc with
  | idle => exact absurd hpc' hpc
  | writeLog tail =>
    rw [hpc'] at hp
    dsimp only
    split_ifs with ht
    · exact ⟨_, rfl, by simp only [left, hpc']; omega, rfl⟩
    · exact ⟨_, rfl, by simp only [left, hpc']; omega, rfl⟩
  | writeHead => exact ⟨_, rfl, by simp only [left, hpc']; omega, rfl⟩
  | installTrans r tail =>
    rw [hpc'] at hp
    dsimp only
    split_ifs with ht
    · exact ⟨_, rfl, by simp only [left, hpc']; omega, rfl⟩
    · exact ⟨_, rfl, by simp only [left, hpc']; omega, rfl⟩
  | eraseHead r =>
    refine ⟨_, rfl, ?_, rfl⟩
    cases r <;> simp [left, hpc']
  | committed => exact ⟨_, rfl, by simp [left, hpc'], rfl⟩
  | readHead =>
    rw [hpc'] at hp
    obtain ⟨hlh, lh, hh, hfits⟩ := hp
    have hsmall := hfits.small
    dsimp only
    rw [h.bread_clean (by rw [hlh]; exact List.not_mem_nil), hh]
    exact ⟨_, rfl, by simp only [left, hpc']; omega, rfl⟩

end Log
end Xv6
end OsLabs
