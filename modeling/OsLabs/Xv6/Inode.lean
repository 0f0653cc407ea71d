/-
# The blocks of an inode

An inode lists the blocks of its file: `NDIRECT` in the inode itself and `NINDIRECT` more in a block of their own. `bmap` finds
the block at a place of the file and allocates it where there is none, and `itrunc` gives all of them back. A file never has
holes: its blocks are the first `n` places, and the indirect block when they need it (`Full`). So `bmap` allocates at the end of a
file only, or not at all (`bmap_old`, `bmap_new`), whatever the others own, and it touches nothing that they own (`Only`).

Key definitions: `Inode`, `bmap`, `itrunc`, `slot`, `own`, `Full`, `Only`.
Key theorems: `bmap_old`, `bmap_new`, `itrunc_spec`.
-/
import OsLabs.Xv6.Disk

namespace OsLabs
namespace Xv6
namespace Fs

open Function (update)
open Owners (Exact)

/-- An inode of the cache. -/
structure Inode extends Dinode where
  inum : ℕ
  ref : ℕ
  valid : Bool

/-- Copy a modified in-memory inode to disk. -/
def iupdate (d : Disk) (ip : Inode) : Disk :=
  let b := IBLOCK ip.inum d.sb
  d.logWrite b (setDinode (d.blocks b) (ip.inum % IPB) ip.toDinode)

/-- Where `addrs` has direct block `bn`. -/
abbrev dir (bn : ℕ) (h : bn < NDIRECT) : Fin (NDIRECT + 1) := ⟨bn, Nat.lt_succ_of_lt h⟩

/-- Where `addrs` has the indirect block. -/
abbrev ind : Fin (NDIRECT + 1) := Fin.last NDIRECT

/-- Load the indirect block, allocating if necessary. -/
def indirect (d : Disk) (ip : Inode) : Except Stop (Disk × Inode) :=
  if ip.addrs ind = 0 then do
    let r ← balloc d
    .ok (r.1, { ip with addrs := update ip.addrs ind r.2 })
  else .ok (d, ip)

/-- The disk block of block `bn` of the file, allocated if there is none. -/
def bmap (d : Disk) (ip : Inode) (bn : ℕ) : Except Stop (Disk × Inode × Word) :=
  if h : bn < NDIRECT then
    if ip.addrs (dir bn h) = 0 then do
      let r ← balloc d
      .ok (r.1, { ip with addrs := update ip.addrs (dir bn h) r.2 }, r.2)
    else .ok (d, ip, ip.addrs (dir bn h))
  else if bn - NDIRECT < NINDIRECT then do
    let r ← indirect d ip
    let bp := (r.2.addrs ind).toNat
    let addr := getWord (r.1.blocks bp) (bn - NDIRECT)
    if addr = 0 then do
      let s ← balloc r.1
      .ok (s.1.logWrite bp (setWord (s.1.blocks bp) (bn - NDIRECT) s.2), r.2, s.2)
    else .ok (r.1, r.2, addr)
  else d.stop .outOfRange

/-- A step of the first loop of `itrunc`. -/
def freeDirect (r : Disk × Inode) (i : Fin NDIRECT) : Except Stop (Disk × Inode) :=
  if r.2.addrs i.castSucc = 0 then .ok r
  else do
    let d ← bfree r.1 (r.2.addrs i.castSucc).toNat
    .ok (d, { r.2 with addrs := update r.2.addrs i.castSucc 0 })

/-- A step of the second loop of `itrunc`, over the entries of the indirect block `bp`. -/
def freeEntry (bp : ℕ) (d : Disk) (j : ℕ) : Except Stop Disk :=
  let a := getWord (d.blocks bp) j
  if a = 0 then .ok d else bfree d a.toNat

/-- What `itrunc` does about the indirect block. -/
def freeIndirect (r : Disk × Inode) : Except Stop (Disk × Inode) :=
  let bp := (r.2.addrs ind).toNat
  if r.2.addrs ind = 0 then .ok r
  else do
    let d ← (List.range NINDIRECT).foldlM (freeEntry bp) r.1
    let d ← bfree d bp
    .ok (d, { r.2 with addrs := update r.2.addrs ind 0 })

def itrunc (d : Disk) (ip : Inode) : Except Stop (Disk × Inode) := do
  let r ← (List.finRange NDIRECT).foldlM freeDirect (d, ip)
  let r ← freeIndirect r
  let ip := { r.2 with size := 0 }
  .ok (iupdate r.1 ip, ip)

/-! ### The places of a file -/

/-- The block at place `p` of the file: its data blocks first, and the indirect block at `MAXFILE`. -/
def slot (B : ℕ → Block) (a : Addrs) (p : ℕ) : Word :=
  if h : p < NDIRECT then a (dir p h)
  else if p < MAXFILE then if a ind = 0 then 0 else getWord (B (a ind).toNat) (p - NDIRECT)
  else if p = MAXFILE then a ind
  else 0

/-- What the inodes own, by inode and place. -/
def own (B : ℕ → Block) (A : ℕ → Addrs) (x : ℕ × ℕ) : ℕ := (slot B (A x.1) x.2).toNat

section slot

variable {B B' : ℕ → Block} {a : Addrs} {A : ℕ → Addrs} {p q i : ℕ} {w : Word}

theorem slot_ind : slot B a MAXFILE = a ind := rfl

theorem slot_direct (h : p < NDIRECT) : slot B a p = a (dir p h) := dif_pos h

theorem slot_indirect (h : ¬ p < NDIRECT) (hp : p < MAXFILE) (ha : a ind ≠ 0) : slot B a p = getWord (B (a ind).toNat) (p - NDIRECT) := by
  unfold slot
  rw [dif_neg h, if_pos hp, if_neg ha]

theorem slot_congr (h : a ind ≠ 0 → B' (a ind).toNat = B (a ind).toNat) : slot B' a p = slot B a p := by
  unfold slot
  by_cases ha : a ind = 0
  · simp only [if_pos ha]
  · simp only [if_neg ha, h ha]

theorem slot_update_dir (h : q < NDIRECT) : slot B (update a (dir q h) w) p = if p = q then w else slot B a p := by
  have hind : update a (dir q h) w ind = a ind := Function.update_of_ne (fun heq => absurd (congrArg Fin.val heq) (Nat.ne_of_gt h)) ..
  unfold slot
  rw [hind]
  by_cases hp : p < NDIRECT
  · rw [dif_pos hp, dif_pos hp, Function.update_apply]
    exact if_congr ⟨fun heq => congrArg Fin.val heq, fun heq => Fin.ext heq⟩ rfl rfl
  · have hne : p ≠ q := fun heq => hp (heq ▸ h)
    rw [dif_neg hp, dif_neg hp, if_neg hne]

/-- The indirect block has just been allocated. -/
theorem slot_update_ind (ha : a ind = 0) (hw : B w.toNat = fun _ => 0) :
    slot B (update a ind w) p = if p = MAXFILE then w else slot B a p := by
  unfold slot
  by_cases hp : p < NDIRECT
  · have hne : dir p hp ≠ ind := fun heq => absurd (congrArg Fin.val heq) (Nat.ne_of_lt hp)
    rw [dif_pos hp, dif_pos hp, Function.update_of_ne hne, if_neg fun heq => absurd hp (by rw [heq]; decide)]
  · rw [dif_neg hp, dif_neg hp, Function.update_self, if_pos ha, hw]
    split_ifs with h1 h2 h3
    · omega
    · rfl
    · omega
    · exact getWord_of_bytes fun r _ => by simp [byteAt]
    · rfl
    · rfl

/-- The indirect block is given up. -/
theorem slot_update_ind_zero : slot B (update a ind 0) p = if p < NDIRECT then slot B a p else 0 := by
  unfold slot
  by_cases hp : p < NDIRECT
  · have hne : dir p hp ≠ ind := fun heq => absurd (congrArg Fin.val heq) (Nat.ne_of_lt hp)
    rw [dif_pos hp, dif_pos hp, if_pos hp, Function.update_of_ne hne]
  · rw [dif_neg hp, if_neg hp, Function.update_self, if_pos rfl]
    split_ifs <;> rfl

/-- An entry of the indirect block has just been set. -/
theorem slot_setWord (ha : a ind ≠ 0) (hq : ¬ q < NDIRECT) (hq' : q < MAXFILE) (hB : B' (a ind).toNat = setWord (B (a ind).toNat) (q - NDIRECT) w) :
    slot B' a p = if p = q then w else slot B a p := by
  by_cases hp : p < NDIRECT
  · have hne : p ≠ q := fun heq => hq (heq ▸ hp)
    rw [slot_direct hp, slot_direct hp, if_neg hne]
  · by_cases hp' : p < MAXFILE
    · have hent : ∀ x, ¬ x < NDIRECT → x < MAXFILE → x - NDIRECT < BSIZE / 4 := fun x h1 h2 => by
        unfold MAXFILE NINDIRECT at h2
        omega
      rw [slot_indirect hp hp' ha, slot_indirect hp hp' ha, hB]
      by_cases heq : p = q
      · rw [if_pos heq, heq, getWord_setWord (hent q hq hq')]
      · rw [if_neg heq, getWord_setWord_ne (by omega) (hent p hp hp')]
    · have hne : p ≠ q := fun heq => hp' (heq ▸ hq')
      rw [if_neg hne]
      unfold slot
      rw [dif_neg hp, dif_neg hp, if_neg hp', if_neg hp']

theorem own_congr (h : ∀ j, A j ind ≠ 0 → B' (A j ind).toNat = B (A j ind).toNat) : own B' A = own B A := by
  funext x
  unfold own
  rw [slot_congr (h x.1)]

/-- One place of one inode has changed. -/
theorem own_update (a' : Addrs) (h : ∀ p, slot B a' p = if p = q then w else slot B (A i) p) :
    own B (update A i a') = update (own B A) (i, q) w.toNat := by
  funext x
  unfold own
  by_cases hi : x.1 = i
  · rw [hi, Function.update_self, h, Function.update_apply]
    by_cases hq : x.2 = q
    · rw [if_pos hq, if_pos (Prod.ext hi hq)]
    · rw [if_neg hq, if_neg fun heq => hq (congrArg Prod.snd heq), hi]
  · rw [Function.update_of_ne hi, Function.update_of_ne fun heq => hi (congrArg Prod.fst heq)]

end slot

/-! ### One block more for an inode -/

section place

variable {d : Disk} {A : ℕ → Addrs} {i q b : ℕ} {x : ℕ × ℕ}

/-- Between `d` and `d'` inode `i` was given block `w` at its place `q`, with zeroes in it: nothing else that is owned has changed, but for
the indirect block of `i`, and no block before the map. -/
structure Placed (i q : ℕ) (d d' : Disk) (A A' : ℕ → Addrs) (w : Word) : Prop where
  sound : Sound d' (own d'.blocks A')
  sb : d'.sb = d.sb
  owned : own d'.blocks A' = update (own d.blocks A) (i, q) w.toNat
  ne : w.toNat ≠ 0
  zero : d'.blocks w.toNat = fun _ => 0
  kept : ∀ x, own d.blocks A x ≠ 0 → x ≠ (i, MAXFILE) → d'.blocks (own d.blocks A x) = d.blocks (own d.blocks A x)
  low : ∀ c < d.sb.bmapstart, d'.blocks c = d.blocks c
  free : free d' + 1 = free d
  logged : ∃ l, d'.logged = l ++ d.logged ∧ ∀ c ∈ l, c = w.toNat ∨ c = BBLOCK w.toNat d.sb ∨
    own d'.blocks A' (i, MAXFILE) ≠ 0 ∧ c = own d'.blocks A' (i, MAXFILE)

theorem own_ind (j : ℕ) (ha : A j ind ≠ 0) :
    own d.blocks A (j, MAXFILE) = (A j ind).toNat ∧ own d.blocks A (j, MAXFILE) ≠ 0 :=
  ⟨rfl, fun h0 => ha (BitVec.eq_of_toNat_eq h0)⟩

theorem took_kept (h : Sound d (own d.blocks A)) (hb : Data d.sb b) (hfresh : ∀ x, own d.blocks A x ≠ b) (hx : own d.blocks A x ≠ 0) :
    (took d b).blocks (own d.blocks A x) = d.blocks (own d.blocks A x) :=
  took_ne (hfresh x) (h.data hx).not_inMap hb.2

theorem took_low (hb : Data d.sb b) : ∀ c < d.sb.bmapstart, (took d b).blocks c = d.blocks c := fun c hc => by
  have hlt : c < b := hc.trans_le ((Nat.le_add_right ..).trans hb.1)
  exact took_ne hlt.ne (fun hmap => absurd hmap.1 (not_le.mpr hc)) hb.2

theorem took_own (h : Sound d (own d.blocks A)) (hb : Data d.sb b) (hfresh : ∀ x, own d.blocks A x ≠ b) :
    own (took d b).blocks A = own d.blocks A :=
  own_congr fun j ha => took_kept h hb hfresh (own_ind j ha).2

/-- `balloc` for a place of `addrs`. -/
theorem placed_addrs (h : Sound d (own d.blocks A)) (a' : Addrs) (hb : Data d.sb b) (hfresh : ∀ x, own d.blocks A x ≠ b)
    (hsound : Sound (took d b) (update (own d.blocks A) (i, q) b)) (hfree : free (took d b) + 1 = free d)
    (ha' : ∀ p, slot (took d b).blocks a' p = if p = q then BitVec.ofNat 32 b else slot (took d b).blocks (A i) p) :
    Placed i q d (took d b) A (update A i a') (BitVec.ofNat 32 b) := by
  have htoNat := toNat_block h.layout hb
  have hown : own (took d b).blocks (update A i a') = update (own d.blocks A) (i, q) b := by
    rw [own_update a' ha', took_own h hb hfresh, htoNat]
  refine ⟨hown ▸ hsound, rfl, htoNat.symm ▸ hown, ?_, ?_, fun x hx _ => took_kept h hb hfresh hx, took_low hb, hfree, ?_⟩
  · rw [htoNat]
    exact fun h0 => not_data_zero (h0 ▸ hb)
  · rw [htoNat, took_self]
  · exact ⟨[b, BBLOCK b d.sb], rfl, by simp [htoNat]⟩

/-- `balloc` for an entry of the indirect block. -/
theorem placed_entry (h : Sound d (own d.blocks A)) (ha : A i ind ≠ 0) (hq : ¬ q < NDIRECT) (hq' : q < MAXFILE) (hb : Data d.sb b)
    (hfresh : ∀ x, own d.blocks A x ≠ b) (hsound : Sound (took d b) (update (own d.blocks A) (i, q) b)) (hfree : free (took d b) + 1 = free d) :
    Placed i q d ((took d b).logWrite (A i ind).toNat (setWord ((took d b).blocks (A i ind).toNat) (q - NDIRECT) (BitVec.ofNat 32 b))) A A
      (BitVec.ofNat 32 b) := by
  have htoNat := toNat_block h.layout hb
  obtain ⟨hbp, hbp0⟩ := own_ind i ha
  generalize hd' : (took d b).logWrite (A i ind).toNat (setWord ((took d b).blocks (A i ind).toNat) (q - NDIRECT) (BitVec.ofNat 32 b)) = d'
  have hself : d'.blocks (A i ind).toNat = setWord ((took d b).blocks (A i ind).toNat) (q - NDIRECT) (BitVec.ofNat 32 b) := by
    rw [← hd', Disk.logWrite_self]
  have hne : ∀ c ≠ (A i ind).toNat, d'.blocks c = (took d b).blocks c := fun c hc => by
    rw [← hd', Disk.logWrite_ne hc]
  have hother : ∀ x, own d.blocks A x ≠ 0 → x ≠ (i, MAXFILE) → own d.blocks A x ≠ (A i ind).toNat := fun x hx hxi =>
    hbp ▸ h.owners.ne hx hxi
  have hind : ∀ j ≠ i, A j ind ≠ 0 → d'.blocks (A j ind).toNat = d.blocks (A j ind).toNat := fun j hj haj => by
    obtain ⟨hj', hj0⟩ := own_ind j haj
    have hji : (j, MAXFILE) ≠ (i, MAXFILE) := fun heq => hj (congrArg Prod.fst heq)
    rw [← hj', hne _ (hother _ hj0 hji), took_kept h hb hfresh hj0]
  have hown : own d'.blocks A = update (own d.blocks A) (i, q) b := by
    funext x
    unfold own
    by_cases hi : x.1 = i
    · rw [hi, slot_setWord ha hq hq' hself, Function.update_apply]
      by_cases hxq : x.2 = q
      · rw [if_pos hxq, if_pos (Prod.ext hi hxq), htoNat]
      · rw [if_neg hxq, if_neg fun heq => hxq (congrArg Prod.snd heq), hi]
        exact congrFun (took_own h hb hfresh) (i, x.2)
    · rw [Function.update_of_ne fun heq => hi (congrArg Prod.fst heq), slot_congr (hind x.1 hi)]
  have hdata : Data d.sb (A i ind).toNat := hbp ▸ h.data hbp0
  have hsb : d'.sb = d.sb := by rw [← hd', Disk.logWrite_sb, took_sb]
  refine ⟨?_, hsb, htoNat.symm ▸ hown, ?_, ?_, fun x hx hxi => ?_, fun c hc => ?_, ?_, ?_⟩
  · rw [hown, ← hd']
    exact hsound.write_data hdata
  · rw [htoNat]
    exact fun h0 => not_data_zero (h0 ▸ hb)
  · rw [htoNat, hne b (hbp ▸ (hfresh (i, MAXFILE)).symm), took_self]
  · rw [hne _ (hother x hx hxi), took_kept h hb hfresh hx]
  · have hlt : c < (A i ind).toNat := hc.trans_le ((Nat.le_add_right ..).trans hdata.1)
    rw [hne c hlt.ne, took_low hb c hc]
  · rw [← hfree, ← hd', free_logWrite (d := took d b) hdata.not_inMap]
  · refine ⟨[(A i ind).toNat, b, BBLOCK b d.sb], ?_, ?_⟩
    · rw [← hd']
      rfl
    · rw [htoNat]
      intro c hc
      simp only [List.mem_cons, List.not_mem_nil, or_false] at hc
      rcases hc with rfl | rfl | rfl
      · refine .inr (.inr ⟨?_, rfl⟩)
        exact fun h0 => not_data_zero (by rw [← h0]; exact hdata)
      · exact .inl rfl
      · exact .inr (.inl rfl)

end place

/-! ### `bmap` -/

/-- The blocks that inode `i` owns are those of its first `n` places, and the indirect block when they need it. -/
structure Full (f : ℕ × ℕ → ℕ) (i n : ℕ) : Prop where
  le : n ≤ MAXFILE
  places : ∀ p, f (i, p) ≠ 0 ↔ p < n ∨ p = MAXFILE ∧ NDIRECT < n

/-- The number of blocks that a file of `n` data blocks has. -/
def blocksFor (n : ℕ) : ℕ := if NDIRECT < n then n + 1 else n

theorem Full.grow {f g : ℕ × ℕ → ℕ} {i n : ℕ} (h : Full f i n) (hn : n < MAXFILE) (hg : ∀ p, p ≠ n → p ≠ MAXFILE → g (i, p) = f (i, p))
    (hnew : g (i, n) ≠ 0) (hind : g (i, MAXFILE) ≠ 0 ↔ NDIRECT ≤ n) : Full g i (n + 1) := by
  refine ⟨hn, fun p => ?_⟩
  by_cases hp : p = n
  · rw [hp]
    exact ⟨fun _ => .inl (Nat.lt_succ_self n), fun _ => hnew⟩
  · by_cases hp' : p = MAXFILE
    · rw [hp', hind]
      constructor
      · exact fun hle => .inr ⟨rfl, Nat.lt_succ_of_le hle⟩
      · rintro (hlt | hlt)
        · omega
        · exact Nat.le_of_lt_succ hlt.2
    · rw [hg p hp hp', h.places p]
      constructor
      · rintro (hlt | hlt)
        · exact .inl (hlt.trans (Nat.lt_succ_self n))
        · exact absurd hlt.1 hp'
      · rintro (hlt | hlt)
        · exact .inl (by omega)
        · exact absurd hlt.1 hp'

section bmap

variable {d : Disk} {ip : Inode} {A : ℕ → Addrs} {i n bn : ℕ}

/-- Between `d` and `d'` the file of inode `i` has grown from `bn` blocks by one, of zeroes, in block `w`; nothing else has changed that is
owned, and no block before the map. -/
structure Grown (i bn : ℕ) (d d' : Disk) (A A' : ℕ → Addrs) (w : Word) : Prop where
  sound : Sound d' (own d'.blocks A')
  sb : d'.sb = d.sb
  full : Full (own d'.blocks A') i (bn + 1)
  last : own d'.blocks A' (i, bn) = w.toNat
  zero : d'.blocks w.toNat = fun _ => 0
  places : ∀ x, x ≠ (i, bn) → x ≠ (i, MAXFILE) → own d'.blocks A' x = own d.blocks A x
  indirect : own d.blocks A (i, MAXFILE) ≠ 0 → own d'.blocks A' (i, MAXFILE) = own d.blocks A (i, MAXFILE)
  kept : ∀ x, own d.blocks A x ≠ 0 → x ≠ (i, MAXFILE) → d'.blocks (own d.blocks A x) = d.blocks (own d.blocks A x)
  low : ∀ c < d.sb.bmapstart, d'.blocks c = d.blocks c
  free : free d' + blocksFor (bn + 1) = free d + blocksFor bn
  logged : ∃ l, d'.logged = l ++ d.logged ∧ ∀ c ∈ l, c = w.toNat ∨ c = BBLOCK w.toNat d.sb ∨ own d'.blocks A' (i, MAXFILE) ≠ 0 ∧
    (c = own d'.blocks A' (i, MAXFILE) ∨ c = BBLOCK (own d'.blocks A' (i, MAXFILE)) d.sb)

theorem toNat_eq_zero {w : Word} : w.toNat = 0 ↔ w = 0 := ⟨fun h => BitVec.eq_of_toNat_eq h, fun h => by rw [h]; rfl⟩

theorem own_direct (hA : A i = ip.addrs) (h : bn < NDIRECT) : own d.blocks A (i, bn) = (ip.addrs (dir bn h)).toNat := by
  unfold own
  rw [slot_direct h, hA]

theorem own_indirect (hA : A i = ip.addrs) : own d.blocks A (i, MAXFILE) = (ip.addrs ind).toNat := by
  unfold own
  rw [slot_ind, hA]

/-- The block is there. -/
theorem bmap_old (hA : A i = ip.addrs) (hfull : Full (own d.blocks A) i n) (hbn : bn < n) :
    bmap d ip bn = .ok (d, ip, slot d.blocks ip.addrs bn) := by
  have hlt : bn < MAXFILE := hbn.trans_le hfull.le
  have hne := (hfull.places bn).mpr (.inl hbn)
  have hslot : slot d.blocks ip.addrs bn ≠ 0 := fun h0 => hne (by unfold own; rw [hA, h0]; rfl)
  unfold bmap
  by_cases h : bn < NDIRECT
  · rw [slot_direct h] at hslot ⊢
    rw [dif_pos h, if_neg hslot]
  · have hind : ip.addrs ind ≠ 0 := fun h0 => (hfull.places MAXFILE).mpr (.inr ⟨rfl, (not_lt.mp h).trans_lt hbn⟩)
      (by rw [own_indirect hA, h0]; rfl)
    have hent : bn - NDIRECT < NINDIRECT := by
      unfold MAXFILE at hlt
      omega
    rw [slot_indirect h hlt hind] at hslot ⊢
    have hload : indirect d ip = .ok (d, ip) := if_neg hind
    rw [dif_neg h, if_pos hent, hload, ok_bind]
    dsimp only
    rw [if_neg hslot]

/-- Where no more than the place `bn` has changed. -/
theorem Placed.grown {d' : Disk} {A' : ℕ → Addrs} {w : Word} (h : Placed i bn d d' A A' w) (hfull : Full (own d.blocks A) i bn)
    (hbn : bn < MAXFILE) (hind : own d.blocks A (i, MAXFILE) ≠ 0 ↔ NDIRECT ≤ bn) (hblocks : blocksFor (bn + 1) = blocksFor bn + 1) :
    Grown i bn d d' A A' w := by
  have hne : ((i, MAXFILE) : ℕ × ℕ) ≠ (i, bn) := fun heq => hbn.ne' (congrArg Prod.snd heq)
  have hplaces : ∀ x, x ≠ (i, bn) → own d'.blocks A' x = own d.blocks A x := fun x hx => by
    rw [h.owned, Function.update_of_ne hx]
  have hlast : own d'.blocks A' (i, bn) = w.toNat := by rw [h.owned, Function.update_self]
  obtain ⟨l, hl, hmem⟩ := h.logged
  refine ⟨h.sound, h.sb, hfull.grow hbn (fun p hp _ => hplaces (i, p) fun heq => hp (congrArg Prod.snd heq)) (hlast ▸ h.ne) ?_, hlast, h.zero,
    fun x hx _ => hplaces x hx, fun _ => hplaces _ hne, h.kept, h.low, ?_, l, hl, fun c hc => ?_⟩
  · rw [hplaces _ hne, hind]
  · have hfree := h.free
    omega
  · rcases hmem c hc with hw | hw | hw
    · exact .inl hw
    · exact .inr (.inl hw)
    · exact .inr (.inr ⟨hw.1, .inl hw.2⟩)

/-- `bmap` once it has the indirect block, for an entry that is not set. -/
theorem bmap_entry {d₁ : Disk} {ip₁ : Inode} (hload : indirect d ip = .ok (d₁, ip₁)) (h : Sound d₁ (own d₁.blocks A)) (hA : A i = ip₁.addrs)
    (hind : ip₁.addrs ind ≠ 0) (hfresh : own d₁.blocks A (i, bn) = 0) (hdir : ¬ bn < NDIRECT) (hbn : bn < MAXFILE) :
    (∃ d' w, bmap d ip bn = .ok (d', ip₁, w) ∧ Placed i bn d₁ d' A A w) ∨ bmap d ip bn = d₁.stop .outOfBlocks ∧ free d₁ = 0 := by
  have hent : bn - NDIRECT < NINDIRECT := by
    unfold MAXFILE at hbn
    omega
  have hentry : getWord (d₁.blocks (ip₁.addrs ind).toNat) (bn - NDIRECT) = 0 := by
    rw [← slot_indirect hdir hbn hind]
    apply toNat_eq_zero.mp
    rw [← hfresh, ← hA]
    rfl
  have hbmap : bmap d ip bn = (do
      let s ← balloc d₁
      .ok (s.1.logWrite (ip₁.addrs ind).toNat (setWord (s.1.blocks (ip₁.addrs ind).toNat) (bn - NDIRECT) s.2), ip₁, s.2)) := by
    unfold bmap
    rw [dif_neg hdir, if_pos hent, hload, ok_bind]
    dsimp only
    rw [if_pos hentry]
  rcases h.balloc hfresh with ⟨b, hok, hdata, hnew, hsound, hfree⟩ | ⟨herror, hfree⟩
  · refine .inl ⟨_, _, ?_, placed_entry h (hA ▸ hind) hdir hbn hdata hnew hsound hfree⟩
    rw [hbmap, hok, ok_bind, hA]
  · exact .inr ⟨by rw [hbmap, herror, Disk.stop_bind], hfree⟩

/-- The indirect block and the entry, one after the other. -/
theorem Placed.grown_ind {d₁ d' : Disk} {A₁ : ℕ → Addrs} {v w : Word} (h₁ : Placed i MAXFILE d d₁ A A₁ v) (h₂ : Placed i bn d₁ d' A₁ A₁ w)
    (hfull : Full (own d.blocks A) i bn) (hbn : bn < MAXFILE) (hfresh : own d.blocks A (i, MAXFILE) = 0) (hdir : NDIRECT ≤ bn)
    (hblocks : blocksFor (bn + 1) = blocksFor bn + 2) : Grown i bn d d' A A₁ w := by
  have hne : ((i, MAXFILE) : ℕ × ℕ) ≠ (i, bn) := fun heq => hbn.ne' (congrArg Prod.snd heq)
  have hplaces : ∀ x, x ≠ (i, bn) → x ≠ (i, MAXFILE) → own d'.blocks A₁ x = own d.blocks A x := fun x hx hx' => by
    rw [h₂.owned, Function.update_of_ne hx, h₁.owned, Function.update_of_ne hx']
  have hlast : own d'.blocks A₁ (i, bn) = w.toNat := by rw [h₂.owned, Function.update_self]
  have hv : own d'.blocks A₁ (i, MAXFILE) = v.toNat := by
    rw [h₂.owned, Function.update_of_ne hne, h₁.owned, Function.update_self]
  obtain ⟨l₁, hl₁, hmem₁⟩ := h₁.logged
  obtain ⟨l₂, hl₂, hmem₂⟩ := h₂.logged
  refine ⟨h₂.sound, h₂.sb.trans h₁.sb, ?_, hlast, h₂.zero, hplaces, fun hi => absurd hfresh hi, fun x hx hxi => ?_, fun c hc => ?_, ?_,
    l₂ ++ l₁, ?_, fun c hc => ?_⟩
  · refine hfull.grow hbn (fun p hp hp' => hplaces (i, p) (fun heq => hp (congrArg Prod.snd heq)) fun heq => hp' (congrArg Prod.snd heq))
      (hlast ▸ h₂.ne) ⟨fun _ => hdir, fun _ => hv ▸ h₁.ne⟩
  · have hx₁ : own d₁.blocks A₁ x = own d.blocks A x := by rw [h₁.owned, Function.update_of_ne hxi]
    have hkept := h₂.kept x (hx₁ ▸ hx) hxi
    rw [hx₁] at hkept
    exact hkept.trans (h₁.kept x hx hxi)
  · rw [h₂.low c (h₁.sb ▸ hc), h₁.low c hc]
  · have hfree₁ := h₁.free
    have hfree₂ := h₂.free
    omega
  · rw [hl₂, hl₁, List.append_assoc]
  · rw [hv]
    rcases List.mem_append.mp hc with hc | hc
    · rcases hmem₂ c hc with hw | hw | hw
      · exact .inl hw
      · exact .inr (.inl (h₁.sb ▸ hw))
      · exact .inr (.inr ⟨h₁.ne, .inl (hw.2.trans hv)⟩)
    · rcases hmem₁ c hc with hw | hw | hw
      · exact .inr (.inr ⟨h₁.ne, .inl hw⟩)
      · exact .inr (.inr ⟨h₁.ne, .inr hw⟩)
      · rw [h₁.owned, Function.update_self] at hw
        exact .inr (.inr ⟨h₁.ne, .inl hw.2⟩)

/-- **`bmap` at the end of the file.** It allocates the next block, and the indirect block when that is the first to need it; or there are
not enough free blocks, for the second maybe. -/
theorem bmap_new (h : Sound d (own d.blocks A)) (hA : A i = ip.addrs) (hfull : Full (own d.blocks A) i bn) (hbn : bn < MAXFILE) :
    (∃ d' a' w, bmap d ip bn = .ok (d', { ip with addrs := a' }, w) ∧ Grown i bn d d' A (update A i a') w) ∨
      (∃ l, l.length ≤ 2 ∧ bmap d ip bn = .error ⟨.outOfBlocks, l ++ d.logged⟩) ∧ free d + blocksFor bn < blocksFor (bn + 1) := by
  have hfresh : own d.blocks A (i, bn) = 0 := by
    by_contra hne
    rcases (hfull.places bn).mp hne with hlt | ⟨heq, -⟩
    · exact lt_irrefl _ hlt
    · exact hbn.ne heq
  by_cases hdir : bn < NDIRECT
  · have hzero : ip.addrs (dir bn hdir) = 0 := toNat_eq_zero.mp (own_direct hA hdir ▸ hfresh)
    have hblocks : blocksFor (bn + 1) = blocksFor bn + 1 := by
      unfold blocksFor
      rw [if_neg (by omega), if_neg (by omega)]
    have hbmap : bmap d ip bn = (do
        let r ← balloc d
        .ok (r.1, { ip with addrs := update ip.addrs (dir bn hdir) r.2 }, r.2)) := by
      unfold bmap
      rw [dif_pos hdir, if_pos hzero]
    rcases h.balloc hfresh with ⟨b, hok, hdata, hnew, hsound, hfree⟩ | ⟨herror, hfree⟩
    · refine .inl ⟨_, _, _, by rw [hbmap, hok, ok_bind], ?_⟩
      refine (placed_addrs h _ hdata hnew hsound hfree fun p => ?_).grown hfull hbn ?_ hblocks
      · rw [slot_update_dir hdir, hA]
      · rw [hfull.places]
        constructor
        · rintro (hlt | hlt)
          · omega
          · exact hlt.2.le
        · exact fun hle => absurd hdir (not_lt.mpr hle)
    · exact .inr ⟨⟨[], Nat.zero_le 2, by rw [hbmap, herror, Disk.stop_bind]; rfl⟩, by omega⟩
  · by_cases hzero : ip.addrs ind = 0
    · -- The indirect block comes first.
      have hfreshI : own d.blocks A (i, MAXFILE) = 0 := by rw [own_indirect hA, hzero]; rfl
      have hblocks : blocksFor (bn + 1) = blocksFor bn + 2 := by
        have hle : bn ≤ NDIRECT := by
          by_contra hlt
          exact (hfull.places MAXFILE).mpr (.inr ⟨rfl, not_le.mp hlt⟩) hfreshI
        unfold blocksFor
        rw [if_pos (by omega), if_neg (by omega)]
      rcases h.balloc hfreshI with ⟨b, hok, hdata, hnew, hsound, hfree⟩ | ⟨herror, hfree⟩
      · have hplaced := placed_addrs h (update (A i) ind (BitVec.ofNat 32 b)) hdata hnew hsound hfree fun p =>
          slot_update_ind (hA ▸ hzero) (by rw [toNat_block h.layout hdata, took_self])
        have hload : indirect d ip = .ok (took d b, { ip with addrs := update ip.addrs ind (BitVec.ofNat 32 b) }) := by
          unfold indirect
          rw [if_pos hzero, hok, ok_bind]
        have hv : BitVec.ofNat 32 b ≠ 0 := fun h0 => hplaced.ne (by rw [h0]; rfl)
        have hne : ((i, bn) : ℕ × ℕ) ≠ (i, MAXFILE) := fun heq => hbn.ne (congrArg Prod.snd heq)
        have hfresh' : own (took d b).blocks (update A i (update (A i) ind (BitVec.ofNat 32 b))) (i, bn) = 0 := by
          rw [hplaced.owned, Function.update_of_ne hne, hfresh]
        have hA' : update A i (update (A i) ind (BitVec.ofNat 32 b)) i = update ip.addrs ind (BitVec.ofNat 32 b) := by
          rw [Function.update_self, hA]
        have hind : update ip.addrs ind (BitVec.ofNat 32 b) ind ≠ 0 := by
          rw [Function.update_self]
          exact hv
        rcases bmap_entry hload hplaced.sound hA' hind hfresh' hdir hbn with ⟨d', w, hbmap, hentry⟩ | ⟨herror, hnone⟩
        · refine .inl ⟨d', _, w, hbmap, ?_⟩
          rw [← hA]
          exact hplaced.grown_ind hentry hfull hbn hfreshI (not_lt.mp hdir) hblocks
        · exact .inr ⟨⟨[b, BBLOCK b d.sb], le_refl 2, herror⟩, by omega⟩
      · refine .inr ⟨⟨[], Nat.zero_le 2, ?_⟩, by omega⟩
        have hent : bn - NDIRECT < NINDIRECT := by
          unfold MAXFILE at hbn
          omega
        unfold bmap indirect
        rw [dif_neg hdir, if_pos hent, if_pos hzero, herror, Disk.stop_bind, Disk.stop_bind]
        rfl
    · have hload : indirect d ip = .ok (d, ip) := if_neg hzero
      have hind : own d.blocks A (i, MAXFILE) ≠ 0 := fun h0 => hzero (toNat_eq_zero.mp (own_indirect hA ▸ h0))
      have hlt : NDIRECT < bn := by
        rcases (hfull.places MAXFILE).mp hind with hlt | ⟨-, hlt⟩
        · omega
        · exact hlt
      have hblocks : blocksFor (bn + 1) = blocksFor bn + 1 := by
        unfold blocksFor
        rw [if_pos (by omega), if_pos hlt]
      rcases bmap_entry hload h hA hzero hfresh hdir hbn with ⟨d', w, hbmap, hentry⟩ | ⟨herror, hnone⟩
      · refine .inl ⟨d', ip.addrs, w, hbmap, ?_⟩
        rw [← hA, Function.update_eq_self]
        exact hentry.grown hfull hbn ⟨fun _ => hlt.le, fun _ => hind⟩ hblocks
      · exact .inr ⟨⟨[], Nat.zero_le 2, herror⟩, by omega⟩

end bmap

/-! ### `itrunc` -/

/-- Between `d` and `d'` nothing but the map was written. -/
structure OnlyMap (d d' : Disk) : Prop where
  sb : d'.sb = d.sb
  kept : ∀ c, ¬ InMap d.sb c → d'.blocks c = d.blocks c
  logged : ∃ l, d'.logged = l ++ d.logged ∧ ∀ c ∈ l, InMap d.sb c

namespace OnlyMap

variable {d d' d'' : Disk} {b : ℕ}

theorem refl (d : Disk) : OnlyMap d d := ⟨rfl, fun _ _ => rfl, [], rfl, by simp⟩

theorem trans (h : OnlyMap d d') (h' : OnlyMap d' d'') : OnlyMap d d'' := by
  obtain ⟨l, hl, hmem⟩ := h.logged
  obtain ⟨l', hl', hmem'⟩ := h'.logged
  refine ⟨h'.sb.trans h.sb, fun c hc => ?_, l' ++ l, by rw [hl', hl, List.append_assoc], fun c hc => ?_⟩
  · rw [h'.kept c (h.sb ▸ hc), h.kept c hc]
  · rcases List.mem_append.mp hc with hc | hc
    · exact h.sb ▸ hmem' c hc
    · exact hmem c hc

theorem gave (hb : b < d.sb.size) : OnlyMap d (gave d b) := by
  refine ⟨rfl, fun c hc => gave_ne hc hb, [BBLOCK b d.sb], rfl, fun c hc => ?_⟩
  rw [List.mem_singleton.mp hc]
  exact inMap_BBLOCK hb

theorem own {A : ℕ → Addrs} (h : OnlyMap d d') (hs : Sound d (own d.blocks A)) : Fs.own d'.blocks A = Fs.own d.blocks A :=
  own_congr fun j ha => by
    obtain ⟨hj, hj0⟩ := own_ind j ha
    rw [← hj, h.kept _ (hs.data hj0).not_inMap]

end OnlyMap

section itrunc

variable {d : Disk} {ip : Inode} {A : ℕ → Addrs} {i : ℕ}

theorem freeDirect_spec (h : Sound d (own d.blocks A)) (hA : A i = ip.addrs) (j : Fin NDIRECT) :
    ∃ d', freeDirect (d, ip) j = .ok (d', { ip with addrs := update ip.addrs j.castSucc 0 }) ∧ OnlyMap d d' ∧
      Sound d' (own d'.blocks (update A i (update ip.addrs j.castSucc 0))) := by
  have hat : own d.blocks A (i, j) = (ip.addrs j.castSucc).toNat := own_direct hA j.2
  unfold freeDirect
  by_cases hzero : ip.addrs j.castSucc = 0
  · have heq : update ip.addrs j.castSucc 0 = ip.addrs := by rw [← hzero, Function.update_eq_self]
    refine ⟨d, ?_, .refl d, ?_⟩
    · rw [if_pos hzero, heq]
    · rw [heq, ← hA, Function.update_eq_self]
      exact h
  · have hne : own d.blocks A (i, j) ≠ 0 := fun h0 => hzero (toNat_eq_zero.mp (hat ▸ h0))
    obtain ⟨hok, hsound, -⟩ := h.bfree hne
    have hmap : OnlyMap d (gave d (own d.blocks A (i, j))) := .gave (h.data hne).2
    refine ⟨_, ?_, hmap, ?_⟩
    · rw [if_neg hzero]
      dsimp only
      rw [← hat, hok, ok_bind]
    · have hown := own_update (B := (gave d (own d.blocks A (i, j))).blocks) (A := A) (i := i) (q := j) (w := 0)
        (update ip.addrs j.castSucc 0) fun p => by rw [hA]; exact slot_update_dir j.2
      rw [hown, hmap.own h]
      exact hsound

/-- The first loop. -/
theorem freeDirects_spec : ∀ (l : List (Fin NDIRECT)) {d : Disk} (ip : Inode) {A : ℕ → Addrs}, Sound d (own d.blocks A) → A i = ip.addrs →
    ∃ d' a', l.foldlM freeDirect (d, ip) = .ok (d', { ip with addrs := a' }) ∧ OnlyMap d d' ∧ Sound d' (own d'.blocks (update A i a')) ∧
      (∀ k : Fin NDIRECT, k.castSucc ∈ l.map Fin.castSucc → a' k.castSucc = 0) ∧ ∀ k ∉ l.map Fin.castSucc, a' k = ip.addrs k
  | [], d, ip, A, h, hA => ⟨d, ip.addrs, rfl, .refl d, by rw [← hA, Function.update_eq_self]; exact h, by simp, fun _ _ => rfl⟩
  | j :: l, d, ip, A, h, hA => by
    obtain ⟨d₁, hok, hmap, hsound⟩ := freeDirect_spec h hA j
    obtain ⟨d', a', hok', hmap', hsound', hzero, hsame⟩ :=
      freeDirects_spec l { ip with addrs := update ip.addrs j.castSucc 0 } hsound (Function.update_self ..)
    refine ⟨d', a', ?_, hmap.trans hmap', ?_, fun k hk => ?_, fun k hk => ?_⟩
    · rw [List.foldlM_cons, hok]
      exact hok'
    · rw [Function.update_idem] at hsound'
      exact hsound'
    · by_cases hkl : k.castSucc ∈ l.map Fin.castSucc
      · exact hzero k hkl
      · have hkj : k.castSucc = j.castSucc := by simpa [hkl] using hk
        rw [hsame _ hkl]
        exact hkj ▸ Function.update_self ..
    · rw [List.map_cons, List.mem_cons, not_or] at hk
      rw [hsame k hk.2]
      exact Function.update_of_ne hk.1 ..

/-- The second loop, over some of the entries of the indirect block. -/
theorem freeEntries_spec {bp : ℕ} : ∀ (l : List ℕ) {d : Disk} {f : ℕ × ℕ → ℕ}, l.Nodup → Sound d f → Data d.sb bp →
    (∀ j ∈ l, f (i, NDIRECT + j) = (getWord (d.blocks bp) j).toNat) →
    ∃ d' f', l.foldlM (freeEntry bp) d = .ok d' ∧ OnlyMap d d' ∧ Sound d' f' ∧ (∀ j ∈ l, f' (i, NDIRECT + j) = 0) ∧
      ∀ x, (∀ j ∈ l, x ≠ (i, NDIRECT + j)) → f' x = f x
  | [], d, f, _, h, _, _ => ⟨d, f, rfl, .refl d, h, by simp, fun _ _ => rfl⟩
  | j :: l, d, f, hnodup, h, hdata, hat => by
    rw [List.nodup_cons] at hnodup
    have hj := hat j List.mem_cons_self
    have hothers : ∀ k ∈ l, ((i, NDIRECT + k) : ℕ × ℕ) ≠ (i, NDIRECT + j) := fun k hk heq => by
      have hkj : k = j := Nat.add_left_cancel (congrArg Prod.snd heq)
      exact hnodup.1 (hkj ▸ hk)
    -- One entry.
    have hstep : ∃ d₁, freeEntry bp d j = .ok d₁ ∧ OnlyMap d d₁ ∧ Sound d₁ (update f (i, NDIRECT + j) 0) := by
      unfold freeEntry
      by_cases hzero : getWord (d.blocks bp) j = 0
      · have hf : f (i, NDIRECT + j) = 0 := by rw [hj, hzero]; rfl
        refine ⟨d, if_pos hzero, .refl d, ?_⟩
        rw [← hf, Function.update_eq_self]
        exact h
      · have hne : f (i, NDIRECT + j) ≠ 0 := fun h0 => hzero (toNat_eq_zero.mp (hj ▸ h0))
        obtain ⟨hok, hsound, -⟩ := h.bfree hne
        refine ⟨_, ?_, .gave (h.data hne).2, hsound⟩
        dsimp only
        rw [if_neg hzero, ← hj, hok]
    obtain ⟨d₁, hok, hmap, hsound⟩ := hstep
    obtain ⟨d', f', hok', hmap', hsound', hzero, hsame⟩ := freeEntries_spec l hnodup.2 hsound (hmap.sb ▸ hdata) fun k hk => by
      rw [Function.update_of_ne (hothers k hk), hmap.kept _ hdata.not_inMap]
      exact hat k (List.mem_cons_of_mem _ hk)
    refine ⟨d', f', ?_, hmap.trans hmap', hsound', fun k hk => ?_, fun x hx => ?_⟩
    · rw [List.foldlM_cons, hok]
      exact hok'
    · rcases List.mem_cons.mp hk with rfl | hk
      · rw [hsame _ fun k' hk' heq => hothers k' hk' heq.symm, Function.update_self]
      · exact hzero k hk
    · rw [hsame x fun k hk => hx k (List.mem_cons_of_mem _ hk), Function.update_of_ne (hx j List.mem_cons_self)]

/-- All that hangs on the indirect block. -/
theorem freeIndirect_spec (ip : Inode) (h : Sound d (own d.blocks A)) (hA : A i = ip.addrs) :
    ∃ d', freeIndirect (d, ip) = .ok (d', { ip with addrs := update ip.addrs ind 0 }) ∧ OnlyMap d d' ∧
      Sound d' (own d'.blocks (update A i (update ip.addrs ind 0))) := by
  unfold freeIndirect
  dsimp only
  by_cases hzero : ip.addrs ind = 0
  · have heq : update ip.addrs ind 0 = ip.addrs := by rw [← hzero, Function.update_eq_self]
    refine ⟨d, ?_, .refl d, ?_⟩
    · rw [if_pos hzero, heq]
    · rw [heq, ← hA, Function.update_eq_self]
      exact h
  · have hbp : own d.blocks A (i, MAXFILE) = (ip.addrs ind).toNat := own_indirect hA
    have hne : own d.blocks A (i, MAXFILE) ≠ 0 := fun h0 => hzero (toNat_eq_zero.mp (hbp ▸ h0))
    have hdata : Data d.sb (ip.addrs ind).toNat := hbp ▸ h.data hne
    obtain ⟨d₁, f, hok, hmap, hsound, hf0, hf⟩ := freeEntries_spec (i := i) (List.range NINDIRECT) List.nodup_range h hdata fun j hj => by
      have hlt : NDIRECT + j < MAXFILE := Nat.add_lt_add_left (List.mem_range.mp hj) _
      have hslot := slot_indirect (B := d.blocks) (a := ip.addrs) (p := NDIRECT + j) (by omega) hlt hzero
      rw [Nat.add_sub_cancel_left] at hslot
      rw [← hslot]
      unfold own
      rw [hA]
    have hfbp : f (i, MAXFILE) = (ip.addrs ind).toNat := by
      rw [hf, hbp]
      intro j hj heq
      have hlt := List.mem_range.mp hj
      have heq' : MAXFILE = NDIRECT + j := congrArg Prod.snd heq
      unfold MAXFILE at heq'
      omega
    obtain ⟨hok', hsound', -⟩ := hsound.bfree (k := (i, MAXFILE)) (by rw [hfbp, ← hbp]; exact hne)
    rw [hfbp] at hok' hsound'
    have hmap' : OnlyMap d₁ (gave d₁ (ip.addrs ind).toNat) := .gave (hmap.sb ▸ hdata.2)
    refine ⟨_, ?_, hmap.trans hmap', ?_⟩
    · rw [if_neg hzero, hok, ok_bind, hok', ok_bind]
    · have hown : own (gave d₁ (ip.addrs ind).toNat).blocks (update A i (update ip.addrs ind 0)) = update f (i, MAXFILE) 0 := by
        have hkept : ∀ x, own (gave d₁ (ip.addrs ind).toNat).blocks A x = own d.blocks A x := congrFun ((hmap.trans hmap').own h)
        funext x
        unfold own at hkept ⊢
        by_cases hi : x.1 = i
        · rw [hi, Function.update_self, slot_update_ind_zero]
          by_cases hp : x.2 < NDIRECT
          · have hxf : f x = (slot d.blocks (A x.1) x.2).toNat := hf x fun j _ heq => by
              have := congrArg Prod.snd heq
              dsimp only at this
              omega
            have hxm : x ≠ (i, MAXFILE) := fun heq => by
              have heq' : x.2 = NDIRECT + NINDIRECT := congrArg Prod.snd heq
              omega
            rw [if_pos hp, Function.update_of_ne hxm, hxf, ← hkept x, hi, hA]
          · rw [if_neg hp]
            by_cases hxm : x = (i, MAXFILE)
            · rw [hxm, Function.update_self]
              rfl
            · rw [Function.update_of_ne hxm]
              by_cases hlt : x.2 - NDIRECT < NINDIRECT
              · rw [show x = (i, NDIRECT + (x.2 - NDIRECT)) from Prod.ext hi (by dsimp only; omega)]
                exact (hf0 _ (List.mem_range.mpr hlt)).symm
              · have hxf : f x = own d.blocks A x := hf x fun j hj heq => by
                  have heq' : x.2 = NDIRECT + j := congrArg Prod.snd heq
                  have := List.mem_range.mp hj
                  omega
                have hp' : ¬ x.2 < MAXFILE := fun h' => hlt (by unfold MAXFILE at h'; omega)
                have hpm : x.2 ≠ MAXFILE := fun heq => hxm (Prod.ext hi heq)
                rw [hxf]
                unfold own slot
                rw [dif_neg hp, if_neg hp', if_neg hpm]
        · have hxf : f x = (slot d.blocks (A x.1) x.2).toNat := hf x fun j _ heq => hi (congrArg Prod.fst heq)
          rw [Function.update_of_ne hi, Function.update_of_ne fun heq => hi (congrArg Prod.fst heq), hxf, ← hkept x]
      rw [hown]
      exact hsound'

/-- The blocks of inodes in core are before the map. -/
theorem Sound.iupdate (h : Sound d (own d.blocks A)) (ip : Inode) (hi : ip.inum < d.sb.ninodes) :
    Sound (iupdate d ip) (own (iupdate d ip).blocks A) ∧ own (iupdate d ip).blocks A = own d.blocks A ∧
      ∀ c ≠ IBLOCK ip.inum d.sb, (iupdate d ip).blocks c = d.blocks c := by
  obtain ⟨hlo, hhi⟩ := h.layout.IBLOCK_lt hi
  have hne : ∀ c ≠ IBLOCK ip.inum d.sb, (Fs.iupdate d ip).blocks c = d.blocks c := fun c hc => Disk.logWrite_ne hc
  have hown : own (Fs.iupdate d ip).blocks A = own d.blocks A := own_congr fun j ha => by
    obtain ⟨hj, hj0⟩ := own_ind j ha
    have hdata := h.data hj0
    rw [← hj]
    exact hne _ fun heq => absurd hdata.1 (not_le.mpr (by rw [heq]; exact hhi.trans_le (Nat.le_add_right ..)))
  rw [hown]
  exact ⟨h.logWrite hlo fun hmap => absurd hmap.1 (not_le.mpr hhi), rfl, hne⟩

/-- **`itrunc`.** It gives back every block of the file, and writes the map and the inode only. -/
theorem itrunc_spec (h : Sound d (own d.blocks A)) (hA : A i = ip.addrs) :
    ∃ d', itrunc d ip = .ok (iupdate d' { ip with size := 0, addrs := fun _ => 0 }, { ip with size := 0, addrs := fun _ => 0 }) ∧ OnlyMap d d' ∧
      Sound d' (own d'.blocks (update A i fun _ => 0)) := by
  obtain ⟨d₁, a₁, hok, hmap, hsound, hzero, -⟩ := freeDirects_spec (List.finRange NDIRECT) ip h hA
  obtain ⟨d₂, hok', hmap', hsound'⟩ := freeIndirect_spec { ip with addrs := a₁ } hsound (Function.update_self ..)
  have haddrs : update a₁ ind 0 = fun _ => 0 := by
    funext j
    refine Fin.lastCases (Function.update_self ..) (fun k => ?_) j
    rw [Function.update_of_ne (Fin.castSucc_lt_last k).ne]
    exact hzero k (List.mem_map.mpr ⟨k, List.mem_finRange k, rfl⟩)
  rw [Function.update_idem, haddrs] at hsound'
  refine ⟨d₂, ?_, hmap.trans hmap', hsound'⟩
  unfold itrunc
  rw [hok, ok_bind, hok', ok_bind]
  dsimp only
  rw [haddrs]

end itrunc

end Fs
end Xv6
end OsLabs
