/-
# The contents of files

`readi` and `writei` go through a file block by block. While a file has no holes (`Full`), a read allocates nothing and writes nothing
(`readLoop_spec`), and a write allocates behind the end of the file only: what is read back are the bytes that it has written over those
that were there (`writeLoop_spec`), the other files keep theirs, and it fails for want of free blocks only.

Key definitions: `readi`, `writei`, `Moves`.
Key theorems: `readLoop_spec`, `writeLoop_spec`.
-/
import OsLabs.Xv6.Inode

namespace OsLabs
namespace Xv6
namespace Fs

open Function (update)

abbrev T_DEV : BitVec 16 := 3

abbrev NDEV : ℕ := 10

/-- The functions of the devices, by major number, with what the device answers. -/
structure Devsw where
  read : ℕ → Option (ℕ → Option (List Byte))
  write : ℕ → Option (List Byte → Option ℕ)

/-- `devsw[ip->major]`, if there is one. -/
def Devsw.at {F : Type} (f : ℕ → Option F) (major : BitVec 16) : Option F :=
  if major.toInt < 0 ∨ NDEV ≤ major.toInt then none else f major.toNat

/-- `memmove(dst, data + o, m)` -/
def copyOut (data : Block) (o m : ℕ) : List Byte := (List.range m).map fun k => byteAt data (o + k)

/-- `memmove(data + o, src, m)` -/
def copyIn (data : Block) (o m : ℕ) (src : ℕ → Byte) : Block := fun x => if o ≤ x.1 ∧ x.1 < o + m then src (x.1 - o) else data x

/-- The bytes of a block from `off` on, or those that are left. -/
def chunk (off left : ℕ) : ℕ := min left (BSIZE - off % BSIZE)

theorem chunk_pos (off : ℕ) {left : ℕ} (h : left ≠ 0) : 0 < chunk off left := by
  have hmod : off % BSIZE < BSIZE := Nat.mod_lt _ (by decide)
  unfold chunk
  omega

theorem chunk_le_left (off left : ℕ) : chunk off left ≤ left := Nat.min_le_left ..

theorem chunk_le_block (off left : ℕ) : chunk off left ≤ BSIZE - off % BSIZE := Nat.min_le_right ..

/-- The loop of `readi`; `left` is `n - tot`. -/
def readLoop (d : Disk) (ip : Inode) (off left : ℕ) : Except Stop (Disk × Inode × List Byte) :=
  if left = 0 then .ok (d, ip, [])
  else do
    let r ← bmap d ip (off / BSIZE)
    let m := chunk off left
    let s ← readLoop r.1 r.2.1 (off + m) (left - m)
    .ok (s.1, s.2.1, copyOut (r.1.blocks r.2.2.toNat) (off % BSIZE) m ++ s.2.2)
termination_by left
decreasing_by
  have := chunk_pos off ‹_›
  omega

/-- `none` is -1. -/
def readi (devsw : Devsw) (d : Disk) (ip : Inode) (off n : ℕ) : Except Stop (Disk × Inode × Option (List Byte)) :=
  if ip.type = T_DEV then .ok (d, ip, (Devsw.at devsw.read ip.major).bind (· n))
  else if ip.size.toNat < off ∨ (off + n) % 2 ^ 32 < off then .ok (d, ip, none)
  else do
    let r ← readLoop d ip off (if ip.size.toNat < off + n then ip.size.toNat - off else n)
    .ok (r.1, r.2.1, some r.2.2)

/-- The loop of `writei`. -/
def writeLoop (d : Disk) (ip : Inode) (src : ℕ → Byte) (off left : ℕ) : Except Stop (Disk × Inode) :=
  if left = 0 then .ok (d, ip)
  else do
    let r ← bmap d ip (off / BSIZE)
    let m := chunk off left
    let b := r.2.2.toNat
    writeLoop (r.1.logWrite b (copyIn (r.1.blocks b) (off % BSIZE) m src)) r.2.1 (fun k => src (m + k)) (off + m) (left - m)
termination_by left
decreasing_by
  have := chunk_pos off ‹_›
  omega

def writei (devsw : Devsw) (d : Disk) (ip : Inode) (src : ℕ → Byte) (off n : ℕ) : Except Stop (Disk × Inode × Option ℕ) :=
  if ip.type = T_DEV then .ok (d, ip, (Devsw.at devsw.write ip.major).bind (· ((List.range n).map src)))
  else if ip.size.toNat < off ∨ (off + n) % 2 ^ 32 < off then .ok (d, ip, none)
  else if MAXFILE * BSIZE < off + n then .ok (d, ip, none)
  else do
    let r ← writeLoop d ip src off n
    if 0 < n ∧ ip.size.toNat < off + n then
      let ip := { r.2 with size := BitVec.ofNat 32 (off + n) }
      .ok (iupdate r.1 ip, ip, some n)
    else .ok (r.1, r.2, some n)

/-! ### The bytes of a file -/

/-- Byte `k` of the file of inode `i`. -/
def byteOf (B : ℕ → Block) (f : ℕ × ℕ → ℕ) (i k : ℕ) : Byte := byteAt (B (f (i, k / BSIZE))) (k % BSIZE)

theorem byteAt_copyIn {data : Block} {o m x : ℕ} {src : ℕ → Byte} (h : x < BSIZE) :
    byteAt (copyIn data o m src) x = if o ≤ x ∧ x < o + m then src (x - o) else byteAt data x := by
  simp only [byteAt, dif_pos h, copyIn]

section read

variable {d : Disk} {ip : Inode} {A : ℕ → Addrs} {i n : ℕ}

/-- The block of `off`, as it is seen in the bytes of the file. -/
theorem copyOut_byteOf (B : ℕ → Block) (f : ℕ × ℕ → ℕ) {off m : ℕ} (hm : m ≤ BSIZE - off % BSIZE) :
    copyOut (B (f (i, off / BSIZE))) (off % BSIZE) m = (List.range m).map fun k => byteOf B f i (off + k) := by
  refine List.map_congr_left fun k hk => ?_
  have hlt := List.mem_range.mp hk
  unfold BSIZE at hm
  have hdiv : (off + k) / BSIZE = off / BSIZE := by
    unfold BSIZE
    omega
  have hmod : (off + k) % BSIZE = off % BSIZE + k := by
    unfold BSIZE
    omega
  unfold byteOf
  rw [hdiv, hmod]

theorem map_range_append (f : ℕ → Byte) (m n : ℕ) :
    ((List.range m).map f) ++ ((List.range n).map fun k => f (m + k)) = (List.range (m + n)).map f := by
  rw [List.range_add, List.map_append, List.map_map]
  rfl

/-- **A read within the file's blocks writes nothing.** -/
theorem readLoop_spec (hA : A i = ip.addrs) (hfull : Full (own d.blocks A) i n) : ∀ left off : ℕ, off + left ≤ n * BSIZE →
    readLoop d ip off left = .ok (d, ip, (List.range left).map fun k => byteOf d.blocks (own d.blocks A) i (off + k)) := by
  intro left
  induction left using Nat.strong_induction_on with
  | _ left ih =>
    intro off hle
    unfold readLoop
    by_cases hleft : left = 0
    · rw [if_pos hleft, hleft]
      rfl
    · have hpos := chunk_pos off hleft
      have hlt : off / BSIZE < n := Nat.div_lt_of_lt_mul (by rw [Nat.mul_comm]; omega)
      have hchunk := chunk_le_left off left
      have hslot : (slot d.blocks ip.addrs (off / BSIZE)).toNat = own d.blocks A (i, off / BSIZE) := by
        unfold own
        rw [hA]
      rw [if_neg hleft, bmap_old hA hfull hlt, ok_bind]
      dsimp only
      rw [ih (left - chunk off left) (by omega) (off + chunk off left) (by omega), ok_bind]
      dsimp only
      rw [hslot, copyOut_byteOf _ _ (chunk_le_block _ _)]
      have happend := map_range_append (fun k => byteOf d.blocks (own d.blocks A) i (off + k)) (chunk off left) (left - chunk off left)
      rw [Nat.add_sub_cancel' hchunk] at happend
      simp only [Nat.add_assoc]
      rw [happend]

end read

/-! ### What a write does to the blocks -/

/-- Between `d` and `d'` the file of inode `i` has gone from `n` blocks to `n'`, and its blocks at the places `T` were written; the other files are what they
were, and no block before the map was written. -/
structure Moves (i : ℕ) (T : ℕ → Prop) (n n' : ℕ) (d d' : Disk) (A A' : ℕ → Addrs) : Prop where
  sound : Sound d' (own d'.blocks A')
  sb : d'.sb = d.sb
  full : Full (own d'.blocks A') i n'
  grows : n ≤ n'
  touched : ∀ p, T p → p < n'
  others : ∀ j ≠ i, ∀ p, own d'.blocks A' (j, p) = own d.blocks A (j, p) ∧
    (own d.blocks A (j, p) ≠ 0 → d'.blocks (own d.blocks A (j, p)) = d.blocks (own d.blocks A (j, p)))
  places : ∀ p < n, own d'.blocks A' (i, p) = own d.blocks A (i, p)
  indirect : own d.blocks A (i, MAXFILE) ≠ 0 → own d'.blocks A' (i, MAXFILE) = own d.blocks A (i, MAXFILE)
  low : ∀ c < d.sb.bmapstart, d'.blocks c = d.blocks c
  free : free d' + blocksFor n' = free d + blocksFor n
  logged : ∃ l, d'.logged = l ++ d.logged ∧ ∀ c ∈ l, (∃ p, T p ∧ c = own d'.blocks A' (i, p)) ∨
    (∃ p, n ≤ p ∧ p < n' ∧ c = BBLOCK (own d'.blocks A' (i, p)) d.sb) ∨
    own d'.blocks A' (i, MAXFILE) ≠ 0 ∧ (c = own d'.blocks A' (i, MAXFILE) ∨ c = BBLOCK (own d'.blocks A' (i, MAXFILE)) d.sb)

namespace Moves

variable {i n n' n'' : ℕ} {T T' S : ℕ → Prop} {d d' d'' : Disk} {A A' A'' : ℕ → Addrs}

theorem refl (h : Sound d (own d.blocks A)) (hfull : Full (own d.blocks A) i n) : Moves i (fun _ => False) n n d d A A :=
  ⟨h, rfl, hfull, le_refl n, fun _ hp => hp.elim, fun _ _ _ => ⟨rfl, fun _ => rfl⟩, fun _ _ => rfl, fun _ => rfl, fun _ _ => rfl, rfl, [], rfl, by simp⟩

theorem trans (h : Moves i T n n' d d' A A') (h' : Moves i T' n' n'' d' d'' A' A'') (hT : ∀ p, T p → S p) (hT' : ∀ p, T' p → S p)
    (hS : ∀ p, S p → p < n'') : Moves i S n n'' d d'' A A'' := by
  obtain ⟨l, hl, hmem⟩ := h.logged
  obtain ⟨l', hl', hmem'⟩ := h'.logged
  refine ⟨h'.sound, h'.sb.trans h.sb, h'.full, h.grows.trans h'.grows, hS, fun j hj p => ?_, fun p hp => ?_, fun hind => ?_, fun c hc => ?_, ?_,
    l' ++ l, by rw [hl', hl, List.append_assoc], fun c hc => ?_⟩
  · obtain ⟨hown, hkept⟩ := h.others j hj p
    obtain ⟨hown', hkept'⟩ := h'.others j hj p
    rw [hown] at hown' hkept'
    exact ⟨hown', fun hne => (hkept' hne).trans (hkept hne)⟩
  · rw [h'.places p (hp.trans_le h.grows), h.places p hp]
  · have hown := h.indirect hind
    rw [h'.indirect (hown ▸ hind), hown]
  · rw [h'.low c (h.sb ▸ hc), h.low c hc]
  · have hfree := h.free
    have hfree' := h'.free
    omega
  · rcases List.mem_append.mp hc with hc | hc
    · rcases hmem' c hc with ⟨p, hp, rfl⟩ | ⟨p, hlo, hhi, rfl⟩ | hind
      · exact .inl ⟨p, hT' p hp, rfl⟩
      · exact .inr (.inl ⟨p, h.grows.trans hlo, hhi, by rw [h.sb]⟩)
      · exact .inr (.inr (h.sb ▸ hind))
    · rcases hmem c hc with ⟨p, hp, rfl⟩ | ⟨p, hlo, hhi, rfl⟩ | ⟨hne, hind⟩
      · exact .inl ⟨p, hT p hp, (h'.places p (h.touched p hp)).symm⟩
      · exact .inr (.inl ⟨p, hlo, hhi.trans_le h'.grows, by rw [h'.places p hhi]⟩)
      · rw [h'.indirect hne]
        exact .inr (.inr ⟨hne, hind⟩)

/-- A block of the file is written. -/
theorem write (h : Moves i T n n' d d' A A') {p : ℕ} (hp : p < n') (v : Block) :
    Moves i (fun q => T q ∨ q = p) n n' d (d'.logWrite (own d'.blocks A' (i, p)) v) A A' ∧
      own (d'.logWrite (own d'.blocks A' (i, p)) v).blocks A' = own d'.blocks A' ∧
      ∀ q < n', q ≠ p → (d'.logWrite (own d'.blocks A' (i, p)) v).blocks (own d'.blocks A' (i, q)) = d'.blocks (own d'.blocks A' (i, q)) := by
  have hne : own d'.blocks A' (i, p) ≠ 0 := (h.full.places p).mpr (.inl hp)
  have hlt : p < MAXFILE := hp.trans_le h.full.le
  have hdata := h.sound.data hne
  have hkept : ∀ x, own d'.blocks A' x ≠ 0 → x ≠ (i, p) →
      (d'.logWrite (own d'.blocks A' (i, p)) v).blocks (own d'.blocks A' x) = d'.blocks (own d'.blocks A' x) := fun x hx hxp =>
    Disk.logWrite_ne (h.sound.owners.ne hx hxp)
  have hown : own (d'.logWrite (own d'.blocks A' (i, p)) v).blocks A' = own d'.blocks A' := own_congr fun j ha => by
    obtain ⟨hj, hj0⟩ := own_ind (d := d') j ha
    rw [← hj]
    exact hkept _ hj0 fun heq => hlt.ne' (congrArg Prod.snd heq)
  refine ⟨⟨?_, h.sb, ?_, h.grows, fun q hq => ?_, fun j hj q => ?_, fun q hq => ?_, fun hind => ?_, fun c hc => ?_, ?_, ?_⟩, hown,
    fun q hq hqp => hkept _ ((h.full.places q).mpr (.inl hq)) fun heq => hqp (congrArg Prod.snd heq)⟩
  · rw [hown]
    exact h.sound.write_data hdata
  · rw [hown]
    exact h.full
  · rcases hq with hq | rfl
    · exact h.touched q hq
    · exact hp
  · obtain ⟨hsame, hsame'⟩ := h.others j hj q
    rw [hown]
    refine ⟨hsame, fun hne' => ?_⟩
    rw [← hsame' hne', ← hsame]
    exact hkept _ (hsame ▸ hne') fun heq => hj (congrArg Prod.fst heq)
  · rw [hown, h.places q hq]
  · rw [hown, h.indirect hind]
  · have hlow : c < own d'.blocks A' (i, p) := hc.trans_le (h.sb ▸ (Nat.le_add_right ..).trans hdata.1)
    rw [Disk.logWrite_ne hlow.ne, h.low c hc]
  · rw [free_logWrite hdata.not_inMap]
    exact h.free
  · obtain ⟨l, hl, hmem⟩ := h.logged
    rw [hown]
    refine ⟨own d'.blocks A' (i, p) :: l, by rw [Disk.logWrite_logged, hl, List.cons_append], fun c hc => ?_⟩
    rcases List.mem_cons.mp hc with rfl | hc
    · exact .inl ⟨p, .inr rfl, rfl⟩
    · rcases hmem c hc with ⟨q, hq, heq⟩ | hmem
      · exact .inl ⟨q, .inl hq, heq⟩
      · exact .inr hmem

end Moves

/-- The file grows by a block. -/
theorem Grown.moves {i bn : ℕ} {d d' : Disk} {A A' : ℕ → Addrs} {w : Word} (h : Grown i bn d d' A A' w) (hbn : bn < MAXFILE) :
    Moves i (· = bn) bn (bn + 1) d d' A A' := by
  obtain ⟨l, hl, hmem⟩ := h.logged
  have hother : ∀ j ≠ i, ∀ p q, ((j, p) : ℕ × ℕ) ≠ (i, q) := fun j hj p q heq => hj (congrArg Prod.fst heq)
  refine ⟨h.sound, h.sb, h.full, Nat.le_succ bn, fun p hp => hp ▸ Nat.lt_succ_self bn, fun j hj p => ?_, fun p hp => ?_, h.indirect, h.low, h.free, l, hl,
    fun c hc => ?_⟩
  · exact ⟨h.places _ (hother j hj p _) (hother j hj p _), fun hne => h.kept _ hne (hother j hj p _)⟩
  · exact h.places _ (fun heq => hp.ne (congrArg Prod.snd heq)) fun heq => (hp.trans hbn).ne (congrArg Prod.snd heq)
  · rcases hmem c hc with rfl | rfl | hind
    · exact .inl ⟨bn, rfl, h.last.symm⟩
    · exact .inr (.inl ⟨bn, le_refl bn, Nat.lt_succ_self bn, by rw [h.last]⟩)
    · exact .inr (.inr hind)

/-! ### The loop of `writei` -/

/-- The number of blocks of a file of `n` blocks after a write of `left` bytes at `off`. -/
def grown (n off left : ℕ) : ℕ := if left = 0 then n else max n ((off + left + (BSIZE - 1)) / BSIZE)

/-- The places of the bytes from `off` on, `left` of them. -/
def Spans (off left p : ℕ) : Prop := off / BSIZE ≤ p ∧ p * BSIZE < off + left

section arithmetic

variable {n off left : ℕ}

theorem grown_chunk (n off : ℕ) {left : ℕ} (h : left ≠ 0) :
    grown (max n (off / BSIZE + 1)) (off + chunk off left) (left - chunk off left) = grown n off left := by
  unfold grown chunk BSIZE
  rw [if_neg h]
  split_ifs <;> omega

theorem lt_grown (n off : ℕ) {left : ℕ} (h : left ≠ 0) : off / BSIZE < grown n off left := by
  unfold grown BSIZE
  rw [if_neg h]
  omega

theorem Spans.lt_grown {p : ℕ} (h : Spans off left p) (hoff : off ≤ n * BSIZE) : p < grown n off left := by
  unfold Spans BSIZE at h
  unfold grown BSIZE at *
  split_ifs <;> omega

theorem blocksFor_mono {m n : ℕ} (h : m ≤ n) : blocksFor m ≤ blocksFor n := by
  unfold blocksFor
  split_ifs <;> omega

end arithmetic

section write

variable {d : Disk} {ip : Inode} {A : ℕ → Addrs} {i n bn : ℕ}

/-- `bmap` at a place of the file, or right behind it. -/
theorem bmap_step (h : Sound d (own d.blocks A)) (hA : A i = ip.addrs) (hfull : Full (own d.blocks A) i n) (hbn : bn ≤ n) (hlt : bn < MAXFILE) :
    (∃ d₁ a₁ w, bmap d ip bn = .ok (d₁, { ip with addrs := a₁ }, w) ∧ Moves i (· = bn) n (max n (bn + 1)) d d₁ A (update A i a₁) ∧
      own d₁.blocks (update A i a₁) (i, bn) = w.toNat ∧
      (∀ p < n, d₁.blocks (own d₁.blocks (update A i a₁) (i, p)) = d.blocks (own d.blocks A (i, p))) ∧
      (bn = n → d₁.blocks w.toNat = fun _ => 0)) ∨
      (∃ l, l.length ≤ 2 ∧ bmap d ip bn = .error ⟨.outOfBlocks, l ++ d.logged⟩) ∧ bn = n ∧
        free d + blocksFor n < blocksFor (n + 1) := by
  rcases hbn.lt_or_eq with hbn | rfl
  · refine .inl ⟨d, ip.addrs, slot d.blocks ip.addrs bn, bmap_old hA hfull hbn, ?_⟩
    rw [← hA, Function.update_eq_self, max_eq_left (Nat.succ_le_of_lt hbn)]
    exact ⟨(Moves.refl h hfull).trans (.refl h hfull) (fun _ hp => hp.elim) (fun _ hp => hp.elim) fun p hp => hp ▸ hbn, rfl, fun _ _ => rfl,
      fun heq => absurd heq hbn.ne⟩
  · rw [max_eq_right (Nat.le_succ bn)]
    rcases bmap_new h hA hfull hlt with ⟨d₁, a₁, w, hok, hgrown⟩ | ⟨herror, hfree⟩
    · refine .inl ⟨d₁, a₁, w, hok, hgrown.moves hlt, hgrown.last, fun p hp => ?_, fun _ => hgrown.zero⟩
      have hne : ((i, p) : ℕ × ℕ) ≠ (i, MAXFILE) := fun heq => (hp.trans hlt).ne (congrArg Prod.snd heq)
      rw [hgrown.places _ (fun heq => hp.ne (congrArg Prod.snd heq)) hne]
      exact hgrown.kept _ ((hfull.places p).mpr (.inl hp)) hne
    · exact .inr ⟨herror, rfl, hfree⟩

/-- The bytes of the file once the block of `off` is written. -/
theorem byteOf_write {d₁ : Disk} {f g : ℕ × ℕ → ℕ} {off m : ℕ} {src : ℕ → Byte} (hbn : off / BSIZE ≤ n) (hm : m ≤ BSIZE - off % BSIZE)
    (hkept : ∀ p < max n (off / BSIZE + 1), p ≠ off / BSIZE →
      (d₁.logWrite (g (i, off / BSIZE)) (copyIn (d₁.blocks (g (i, off / BSIZE))) (off % BSIZE) m src)).blocks (g (i, p)) = d₁.blocks (g (i, p)))
    (hold : ∀ p < n, d₁.blocks (g (i, p)) = d.blocks (f (i, p))) (hnew : off / BSIZE = n → d₁.blocks (g (i, off / BSIZE)) = fun _ => 0)
    (k : ℕ) (hk : k < max n (off / BSIZE + 1) * BSIZE) :
    byteOf (d₁.logWrite (g (i, off / BSIZE)) (copyIn (d₁.blocks (g (i, off / BSIZE))) (off % BSIZE) m src)).blocks g i k =
      if off ≤ k ∧ k < off + m then src (k - off) else if k < n * BSIZE then byteOf d.blocks f i k else 0 := by
  have hmod : k % BSIZE < BSIZE := Nat.mod_lt _ (by decide)
  have hp : k / BSIZE < max n (off / BSIZE + 1) := Nat.div_lt_of_lt_mul (by rw [Nat.mul_comm]; exact hk)
  unfold byteOf
  by_cases hkp : k / BSIZE = off / BSIZE
  · rw [hkp, Disk.logWrite_self, byteAt_copyIn hmod]
    have hin : (off % BSIZE ≤ k % BSIZE ∧ k % BSIZE < off % BSIZE + m) ↔ off ≤ k ∧ k < off + m := by
      unfold BSIZE at hkp ⊢
      omega
    by_cases hspan : off ≤ k ∧ k < off + m
    · rw [if_pos (hin.mpr hspan), if_pos hspan]
      congr 1
      unfold BSIZE at hkp ⊢
      omega
    · rw [if_neg fun hx => hspan (hin.mp hx), if_neg hspan]
      by_cases hkn : off / BSIZE < n
      · have hlt : k < n * BSIZE := (Nat.div_lt_iff_lt_mul (by decide)).mp (hkp.symm ▸ hkn)
        rw [if_pos hlt, hold _ hkn]
      · have hge : ¬ k < n * BSIZE := fun hlt => hkn (hkp ▸ (Nat.div_lt_iff_lt_mul (by decide)).mpr hlt)
        rw [if_neg hge, hnew (by omega)]
        unfold byteAt
        rw [dif_pos hmod]
  · have hspan : ¬ (off ≤ k ∧ k < off + m) := by
      unfold BSIZE at hkp hm
      omega
    have hlt : k / BSIZE < n := by omega
    have hkn : k < n * BSIZE := (Nat.div_lt_iff_lt_mul (by decide)).mp hlt
    rw [if_neg hspan, if_pos hkn, hkept _ hp hkp, hold _ hlt]

/-- The blocks of a write at the places before `n'`. -/
def Begun (off left n' p : ℕ) : Prop := Spans off left p ∧ p < n'

/-- **The loop of `writei`.** The bytes are written over those that were there; or the file has grown to `n'` blocks, of which the write has
reached the last ones, when there are not enough free blocks. -/
theorem writeLoop_spec : ∀ (left : ℕ) {off n : ℕ} {d : Disk} (ip : Inode) {A : ℕ → Addrs} (src : ℕ → Byte), Sound d (own d.blocks A) → A i = ip.addrs →
    Full (own d.blocks A) i n → off ≤ n * BSIZE → off + left ≤ MAXFILE * BSIZE →
    (∃ d' a', writeLoop d ip src off left = .ok (d', { ip with addrs := a' }) ∧ Moves i (Spans off left) n (grown n off left) d d' A (update A i a') ∧
      ∀ k < grown n off left * BSIZE, byteOf d'.blocks (own d'.blocks (update A i a')) i k =
        if off ≤ k ∧ k < off + left then src (k - off) else if k < n * BSIZE then byteOf d.blocks (own d.blocks A) i k else 0) ∨
      (∃ d' A' n' l, Moves i (Begun off left n') n n' d d' A A' ∧ n' < grown n off left ∧ l.length ≤ 2 ∧
        writeLoop d ip src off left = .error ⟨.outOfBlocks, l ++ d'.logged⟩) ∧
        free d + blocksFor n < blocksFor (grown n off left) := by
  intro left
  induction left using Nat.strong_induction_on with
  | _ left ih =>
    intro off n d ip A src h hA hfull hoff hmax
    unfold writeLoop
    by_cases hleft : left = 0
    · rw [if_pos hleft]
      refine .inl ⟨d, ip.addrs, rfl, ?_⟩
      have hgrown : grown n off left = n := if_pos hleft
      rw [← hA, Function.update_eq_self, hgrown]
      refine ⟨(Moves.refl h hfull).trans (.refl h hfull) (fun _ hp => hp.elim) (fun _ hp => hp.elim) fun p hp => hgrown ▸ hp.lt_grown hoff, fun k hk => ?_⟩
      rw [if_neg (by omega), if_pos hk]
    · rw [if_neg hleft]
      have hpos := chunk_pos off hleft
      have hle := chunk_le_left off left
      have hblock := chunk_le_block off left
      have hbn : off / BSIZE ≤ n := Nat.div_le_of_le_mul (by rw [Nat.mul_comm]; exact hoff)
      have hlt : off / BSIZE < MAXFILE := Nat.div_lt_of_lt_mul (by rw [Nat.mul_comm]; omega)
      rcases bmap_step h hA hfull hbn hlt with ⟨d₁, a₁, w, hok, hmoves, hw, hold, hnew⟩ | ⟨herror, heq, hfree⟩
      · -- The block of `off` is written.
        rw [hok, ok_bind]
        dsimp only
        rw [← hw] at hnew ⊢
        obtain ⟨hmoves', hown, hkept⟩ := hmoves.write (p := off / BSIZE) (by omega)
          (copyIn (d₁.blocks (own d₁.blocks (update A i a₁) (i, off / BSIZE))) (off % BSIZE) (chunk off left) src)
        have hbytes := byteOf_write hbn hblock hkept hold hnew
        have hbytes : ∀ k < max n (off / BSIZE + 1) * BSIZE, byteOf (d₁.logWrite (own d₁.blocks (update A i a₁) (i, off / BSIZE))
            (copyIn (d₁.blocks (own d₁.blocks (update A i a₁) (i, off / BSIZE))) (off % BSIZE) (chunk off left) src)).blocks
            (own (d₁.logWrite (own d₁.blocks (update A i a₁) (i, off / BSIZE))
              (copyIn (d₁.blocks (own d₁.blocks (update A i a₁) (i, off / BSIZE))) (off % BSIZE) (chunk off left) src)).blocks (update A i a₁)) i k =
            if off ≤ k ∧ k < off + chunk off left then src (k - off) else if k < n * BSIZE then byteOf d.blocks (own d.blocks A) i k else 0 := fun k hk => by
          rw [hown]
          exact hbytes k hk
        generalize d₁.logWrite (own d₁.blocks (update A i a₁) (i, off / BSIZE))
          (copyIn (d₁.blocks (own d₁.blocks (update A i a₁) (i, off / BSIZE))) (off % BSIZE) (chunk off left) src) = d₂ at hmoves' hbytes ⊢
        have hoff' : off + chunk off left ≤ max n (off / BSIZE + 1) * BSIZE := by
          unfold BSIZE at hblock ⊢
          omega
        have hgrown := grown_chunk n off hleft
        rcases ih (left - chunk off left) (by omega) { ip with addrs := a₁ } (fun k => src (chunk off left + k)) hmoves'.sound
          (Function.update_self ..) hmoves'.full hoff' (by omega) with
          ⟨d', a', hok', hmoves'', hbytes'⟩ | ⟨⟨d', A', n', l, hmoves'', hn', hl, herror⟩, hfree⟩
        · rw [hgrown, Function.update_idem] at hmoves'' hbytes'
          refine .inl ⟨d', a', hok', hmoves'.trans hmoves'' (fun p hp => ?_) (fun p hp => ?_) fun p hp => hp.lt_grown hoff, fun k hk => ?_⟩
          · obtain rfl : p = off / BSIZE := hp.elim id id
            exact ⟨le_refl _, by unfold BSIZE; omega⟩
          · unfold Spans BSIZE at *
            omega
          · rw [hbytes' k hk]
            by_cases hlate : off + chunk off left ≤ k ∧ k < off + chunk off left + (left - chunk off left)
            · rw [if_pos hlate, if_pos (by omega)]
              congr 1
              omega
            · rw [if_neg hlate]
              by_cases hkn : k < max n (off / BSIZE + 1) * BSIZE
              · rw [if_pos hkn, hbytes k hkn]
                by_cases hspan : off ≤ k ∧ k < off + chunk off left
                · rw [if_pos hspan, if_pos (by omega)]
                · rw [if_neg hspan, if_neg (by omega : ¬ (off ≤ k ∧ k < off + left))]
              · have hkn' : ¬ k < n * BSIZE := fun hlt => hkn (hlt.trans_le (Nat.mul_le_mul_right _ (le_max_left ..)))
                rw [if_neg hkn, if_neg (by omega : ¬ (off ≤ k ∧ k < off + left)), if_neg hkn']
        · rw [hgrown] at hn' hfree
          rw [hmoves'.free] at hfree
          refine .inr ⟨⟨d', A', n', l, hmoves'.trans hmoves'' (fun p hp => ?_) (fun p hp => ?_) fun p hp => hp.2, hn', hl, herror⟩, hfree⟩
          · obtain rfl : p = off / BSIZE := hp.elim id id
            exact ⟨⟨le_refl _, by unfold BSIZE; omega⟩, (by omega : off / BSIZE < _).trans_le hmoves''.grows⟩
          · refine ⟨?_, hp.2⟩
            have hspans := hp.1
            unfold Spans BSIZE at *
            omega
      · obtain ⟨l, hl, herror⟩ := herror
        refine .inr ⟨⟨d, A, n, l, ?_, heq ▸ lt_grown n off hleft, hl, by rw [herror, error_bind]⟩, ?_⟩
        · exact (Moves.refl h hfull).trans (.refl h hfull) (fun _ hp => hp.elim) (fun _ hp => hp.elim) fun p hp => hp.2
        have hmono := blocksFor_mono (Nat.succ_le_of_lt (lt_grown n off hleft))
        rw [heq] at hmono
        exact hfree.trans_le hmono

end write

end Fs
end Xv6
end OsLabs
