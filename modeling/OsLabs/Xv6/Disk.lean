/-
# The blocks of a file system and the map of those in use

The disk has the superblock, the inodes, a bit map and the data blocks (`fs.h`). `balloc` takes the first block whose bit is
clear and zeroes it, `bfree` clears the bit again. The map is exact when the bits set are those of the blocks before the data
blocks and of the data blocks that somebody owns (`Sound`); both keep it so, `bfree` never meets a free block, and `balloc` goes
without a block only when every data block is owned (`Sound.balloc`, `Sound.bfree`).

Block numbers are natural numbers: the disk has fewer than 2^31 blocks, so that `int b` of `balloc` does not overflow.

Key definitions: `Superblock`, `Dinode`, `Disk`, `balloc`, `bfree`, `Layout`, `Sound`, `free`.
Key theorems: `Sound.balloc`, `Sound.took`, `Sound.gave`.
-/
import OsLabs.Lib.Owners
import OsLabs.Lib.Except
import OsLabs.Xv6.Log

namespace OsLabs
namespace Xv6
namespace Fs

open Function (update)
open Owners (Exact)

abbrev NDIRECT : ℕ := 12
abbrev NINDIRECT : ℕ := BSIZE / 4
abbrev MAXFILE : ℕ := NDIRECT + NINDIRECT

/-- Inodes per block: a `struct dinode` has 64 bytes. -/
abbrev IPB : ℕ := BSIZE / 64

/-- Bitmap bits per block. -/
abbrev BPB : ℕ := BSIZE * 8

inductive Panic where
  /-- `balloc: out of blocks` -/
  | outOfBlocks
  /-- `freeing free block` -/
  | freeingFreeBlock
  /-- `bmap: out of range` -/
  | outOfRange
  /-- `ialloc: no inodes` -/
  | noInodes
  /-- `iget: no inodes` -/
  | cacheFull
  /-- `ilock` -/
  | ilock
  /-- `ilock: no type` -/
  | noType
  /-- One of `log_write`'s. -/
  | log (x : Log.Panic)
deriving Repr, DecidableEq

structure Superblock where
  size : ℕ
  nblocks : ℕ
  ninodes : ℕ
  nlog : ℕ
  logstart : ℕ
  inodestart : ℕ
  bmapstart : ℕ
deriving Repr, DecidableEq

def readsb (blocks : ℕ → Block) : Superblock :=
  let w (i : ℕ) := (getWord (blocks 1) i).toNat
  ⟨w 0, w 1, w 2, w 3, w 4, w 5, w 6⟩

/-- Block containing inode `i`. -/
def IBLOCK (i : ℕ) (sb : Superblock) : ℕ := i / IPB + sb.inodestart

/-- Block of the free map containing the bit for block `b`. -/
def BBLOCK (b : ℕ) (sb : Superblock) : ℕ := b / BPB + sb.bmapstart

/-! ### Inodes in their block -/

abbrev Addrs := Fin (NDIRECT + 1) → Word

structure Dinode where
  type : BitVec 16
  major : BitVec 16
  minor : BitVec 16
  nlink : BitVec 16
  size : Word
  addrs : Addrs

/-- The inode that `memset(dip, 0, sizeof(*dip))` makes. -/
def Dinode.zero : Dinode := ⟨0, 0, 0, 0, 0, fun _ => 0⟩

/-- The words of a `struct dinode`. -/
def Dinode.word (ip : Dinode) : ℕ → Word
  | 0 => ip.major ++ ip.type
  | 1 => ip.nlink ++ ip.minor
  | 2 => ip.size
  | j + 3 => if h : j < NDIRECT + 1 then ip.addrs ⟨j, h⟩ else 0

/-- `((struct dinode*)data)[k]`. -/
def getDinode (data : Block) (k : ℕ) : Dinode where
  type := (getWord data (16 * k)).extractLsb' 0 16
  major := (getWord data (16 * k)).extractLsb' 16 16
  minor := (getWord data (16 * k + 1)).extractLsb' 0 16
  nlink := (getWord data (16 * k + 1)).extractLsb' 16 16
  size := getWord data (16 * k + 2)
  addrs j := getWord data (16 * k + (j + 3))

/-- `((struct dinode*)data)[k] = ip`. -/
def setDinode (data : Block) (k : ℕ) (ip : Dinode) : Block := fun x =>
  if x.1 / 64 = k then (ip.word (x.1 % 64 / 4)).extractLsb' (8 * (x.1 % 4)) 8 else data x

theorem byteAt_setDinode {data : Block} {k x : ℕ} {ip : Dinode} (h : x < BSIZE) :
    byteAt (setDinode data k ip) x =
      if x / 64 = k then (ip.word (x % 64 / 4)).extractLsb' (8 * (x % 4)) 8 else byteAt data x := by
  simp only [byteAt, dif_pos h, setDinode]

theorem getWord_setDinode {data : Block} {k j : ℕ} {ip : Dinode} (hk : k < IPB) (hj : j < 16) :
    getWord (setDinode data k ip) (16 * k + j) = ip.word j := by
  refine getWord_of_bytes fun r hr => ?_
  rw [byteAt_setDinode (by unfold IPB BSIZE at hk; unfold BSIZE; omega), if_pos (by omega)]
  congr 3 <;> omega

theorem getWord_setDinode_ne {data : Block} {k k' j : ℕ} {ip : Dinode} (hne : k' ≠ k) (hk : k' < IPB) (hj : j < 16) :
    getWord (setDinode data k ip) (16 * k' + j) = getWord data (16 * k' + j) := by
  refine getWord_congr fun r hr => ?_
  rw [byteAt_setDinode (by unfold IPB BSIZE at hk; unfold BSIZE; omega), if_neg (by omega)]

/-- The low half of a word of two. -/
theorem extractLsb'_low (x y : BitVec 16) : (x ++ y).extractLsb' 0 16 = y := by
  rw [BitVec.extractLsb'_append_eq_ite]
  simp

/-- The high half of a word of two. -/
theorem extractLsb'_high (x y : BitVec 16) : (x ++ y).extractLsb' 16 16 = x := by
  rw [BitVec.extractLsb'_append_eq_ite]
  simp

theorem getDinode_setDinode {data : Block} {k : ℕ} {ip : Dinode} (hk : k < IPB) : getDinode (setDinode data k ip) k = ip := by
  have hw : ∀ j < 16, getWord (setDinode data k ip) (16 * k + j) = ip.word j := fun j hj => getWord_setDinode hk hj
  have h3 : ∀ j : Fin (NDIRECT + 1), getWord (setDinode data k ip) (16 * k + (j + 3)) = ip.addrs j := fun j => by
    have hj : j.1 < 13 := j.2
    rw [hw _ (by omega)]
    exact dif_pos j.2
  have h0 := hw 0 (by omega)
  rw [Nat.add_zero] at h0
  unfold getDinode
  rw [h0, hw 1 (by omega), hw 2 (by omega), funext h3]
  unfold Dinode.word
  rw [extractLsb'_low, extractLsb'_high, extractLsb'_low, extractLsb'_high]

theorem getDinode_setDinode_ne {data : Block} {k k' : ℕ} {ip : Dinode} (hne : k' ≠ k) (hk : k' < IPB) :
    getDinode (setDinode data k ip) k' = getDinode data k' := by
  have hw : ∀ j < 16, getWord (setDinode data k ip) (16 * k' + j) = getWord data (16 * k' + j) := fun j hj =>
    getWord_setDinode_ne hne hk hj
  have h3 : ∀ j : Fin (NDIRECT + 1), getWord (setDinode data k ip) (16 * k' + (j + 3)) = getWord data (16 * k' + (j + 3)) := fun j => by
    have hj : j.1 < 13 := j.2
    exact hw _ (by omega)
  have h0 := hw 0 (by omega)
  rw [Nat.add_zero] at h0
  unfold getDinode
  rw [h0, hw 1 (by omega), hw 2 (by omega), funext h3]

/-! ### Bits in their block -/

/-- `1 << (bi % 8)` -/
def mask (bi : ℕ) : Byte := 1#8 <<< (bi % 8)

/-- `(data[bi/8] & m) != 0` -/
def isSet (data : Block) (bi : ℕ) : Bool := byteAt data (bi / 8) &&& mask bi != 0

/-- `data[bi/8] |= m` -/
def setBit (data : Block) (bi : ℕ) : Block := fun x => if x.1 = bi / 8 then data x ||| mask bi else data x

/-- `data[bi/8] &= ~m` -/
def clearBit (data : Block) (bi : ℕ) : Block := fun x => if x.1 = bi / 8 then data x &&& ~~~mask bi else data x

theorem isSet_eq (data : Block) (bi : ℕ) : isSet data bi = (byteAt data (bi / 8)).getLsbD (bi % 8) := by
  unfold isSet mask
  rw [← BitVec.twoPow_eq, BitVec.and_twoPow]
  split_ifs with h
  · rw [h, bne_iff_ne]
    intro h0
    have := congrArg (·.getLsbD (bi % 8)) h0
    simp [Nat.mod_lt] at this
  · simp [h]

theorem getLsbD_mask {bi i : ℕ} : (mask bi).getLsbD i = decide (i = bi % 8) := by
  unfold mask
  rw [← BitVec.twoPow_eq, BitVec.getLsbD_twoPow]
  have : bi % 8 < 8 := Nat.mod_lt _ (by omega)
  simp [this, eq_comm]

theorem isSet_setBit {data : Block} {bi bj : ℕ} (h : bj < BPB) : isSet (setBit data bi) bj = (isSet data bj || decide (bj = bi)) := by
  have hx : bj / 8 < BSIZE := by unfold BPB at h; omega
  have hbyte : byteAt (setBit data bi) (bj / 8) = if bj / 8 = bi / 8 then byteAt data (bj / 8) ||| mask bi else byteAt data (bj / 8) := by
    simp only [byteAt, dif_pos hx, setBit]
  rw [isSet_eq, isSet_eq, hbyte]
  split_ifs with hdiv
  · rw [BitVec.getLsbD_or, getLsbD_mask]
    congr 2
    exact propext ⟨fun hmod => by omega, fun heq => by rw [heq]⟩
  · have hne : bj ≠ bi := fun heq => hdiv (by rw [heq])
    simp [hne]

theorem isSet_clearBit {data : Block} {bi bj : ℕ} (h : bj < BPB) : isSet (clearBit data bi) bj = (isSet data bj && !decide (bj = bi)) := by
  have hx : bj / 8 < BSIZE := by unfold BPB at h; omega
  have hbyte : byteAt (clearBit data bi) (bj / 8) = if bj / 8 = bi / 8 then byteAt data (bj / 8) &&& ~~~mask bi else byteAt data (bj / 8) := by
    simp only [byteAt, dif_pos hx, clearBit]
  rw [isSet_eq, isSet_eq, hbyte]
  split_ifs with hdiv
  · have hmod : bj % 8 < 8 := Nat.mod_lt _ (by omega)
    rw [BitVec.getLsbD_and, BitVec.getLsbD_not, getLsbD_mask, decide_eq_true hmod, Bool.true_and]
    congr 3
    exact propext ⟨fun hmod => by omega, fun heq => by rw [heq]⟩
  · have hne : bj ≠ bi := fun heq => hdiv (by rw [heq])
    simp [hne]

/-! ### The disk -/

/-- What the code sees of the disk: the superblock it has read, what `bread` gives, and the blocks given to `log_write`, the last
one first. Whether `log_write` panics depends on these blocks only (`transact`). -/
structure Disk where
  sb : Superblock
  blocks : ℕ → Block
  logged : List ℕ

structure Stop where
  panic : Panic
  logged : List ℕ

namespace Disk

/-- The buffer of block `b` is given the contents `v`, and `log_write` the buffer. -/
def logWrite (d : Disk) (b : ℕ) (v : Block) : Disk := { d with blocks := update d.blocks b v, logged := b :: d.logged }

/-- A panic, with the blocks given to `log_write` by then. -/
def stop {α : Type} (d : Disk) (x : Panic) : Except Stop α := .error ⟨x, d.logged⟩

theorem stop_bind {α β : Type} (d : Disk) (x : Panic) (k : α → Except Stop β) : (d.stop x >>= k) = d.stop x := rfl

/-- Whether the map has block `b` in use. -/
def used (d : Disk) (b : ℕ) : Bool := isSet (d.blocks (BBLOCK b d.sb)) (b % BPB)

variable {d : Disk} {b c : ℕ} {v : Block}

@[simp] theorem logWrite_sb : (d.logWrite b v).sb = d.sb := rfl

@[simp] theorem logWrite_logged : (d.logWrite b v).logged = b :: d.logged := rfl

theorem logWrite_self : (d.logWrite b v).blocks b = v := Function.update_self ..

theorem logWrite_ne (h : c ≠ b) : (d.logWrite b v).blocks c = d.blocks c := Function.update_of_ne h ..

end Disk

def bzero (d : Disk) (b : ℕ) : Disk := d.logWrite b fun _ => 0

/-- The inner loop of `balloc`: the first clear bit of a block of the map, of which `left` bits are for blocks of the disk. -/
def scanBits (data : Block) (left : ℕ) : Option ℕ := (List.range (min BPB left)).find? fun bi => !isSet data bi

def balloc (d : Disk) : Except Stop (Disk × Word) :=
  -- `b` is `k * BPB`.
  match (List.range ((d.sb.size + (BPB - 1)) / BPB)).findSome? fun k =>
      (scanBits (d.blocks (BBLOCK (k * BPB) d.sb)) (d.sb.size - k * BPB)).map fun bi => (k * BPB, bi) with
  | some r =>
    let bn := BBLOCK r.1 d.sb
    let b := r.1 + r.2
    .ok (bzero (d.logWrite bn (setBit (d.blocks bn) r.2)) b, BitVec.ofNat 32 b)
  | none => d.stop .outOfBlocks

def bfree (d : Disk) (b : ℕ) : Except Stop Disk :=
  let d := { d with sb := readsb d.blocks }
  let bn := BBLOCK b d.sb
  let bi := b % BPB
  if isSet (d.blocks bn) bi then .ok (d.logWrite bn (clearBit (d.blocks bn) bi)) else d.stop .freeingFreeBlock

/-! ### Where things are -/

/-- The blocks before the data blocks, the map among them. -/
def nmeta (sb : Superblock) : ℕ := sb.bmapstart + (sb.size / BPB + 1)

/-- The superblock, the inodes, the map and the data blocks follow one another on the disk. -/
structure Layout (sb : Superblock) : Prop where
  super : 1 < sb.inodestart
  inodes : sb.inodestart + sb.ninodes / IPB < sb.bmapstart
  map : nmeta sb ≤ sb.size
  fits : sb.size + BPB ≤ 2 ^ 31

/-- A data block. -/
def Data (sb : Superblock) (b : ℕ) : Prop := nmeta sb ≤ b ∧ b < sb.size

/-- A block of the map. -/
def InMap (sb : Superblock) (b : ℕ) : Prop := sb.bmapstart ≤ b ∧ b < nmeta sb

section layout

variable {sb : Superblock} {b c i : ℕ}

theorem inMap_BBLOCK (h : b < sb.size) : InMap sb (BBLOCK b sb) := by
  have hdiv : b / BPB ≤ sb.size / BPB := Nat.div_le_div_right h.le
  unfold BPB BSIZE at hdiv
  unfold InMap BBLOCK nmeta BPB BSIZE
  omega

theorem Data.not_inMap (h : Data sb b) : ¬ InMap sb b := fun hmap => absurd h.1 (not_le.mpr hmap.2)

theorem not_data_zero : ¬ Data sb 0 := fun hdata => by
  have hle := hdata.1
  unfold nmeta BPB BSIZE at hle
  omega

theorem Layout.one_lt_bmapstart (h : Layout sb) : 1 < sb.bmapstart := by
  have hsuper := h.super
  have hinodes := h.inodes
  unfold IPB BSIZE at hinodes
  omega

theorem Layout.one_lt_data (h : Layout sb) (hb : Data sb b) : 1 < b :=
  h.one_lt_bmapstart.trans_le ((Nat.le_add_right ..).trans hb.1)

theorem Layout.IBLOCK_lt (h : Layout sb) (hi : i < sb.ninodes) : 1 < IBLOCK i sb ∧ IBLOCK i sb < sb.bmapstart := by
  have hsuper := h.super
  have hinodes := h.inodes
  unfold IPB BSIZE at hinodes
  unfold IBLOCK IPB BSIZE
  omega

/-- Blocks of the map have their bits at distinct places. -/
theorem BBLOCK_ne (h : BBLOCK b sb = BBLOCK c sb) (hne : b ≠ c) : b % BPB ≠ c % BPB := fun hmod => hne <| by
  unfold BBLOCK at h
  have hb := Nat.div_add_mod b BPB
  have hc := Nat.div_add_mod c BPB
  rw [show b / BPB = c / BPB by omega, hmod] at hb
  omega

end layout

/-! ### Taking a block and giving it back -/

/-- Block `b` is marked as in use and zeroed. -/
def took (d : Disk) (b : ℕ) : Disk :=
  bzero (d.logWrite (BBLOCK b d.sb) (setBit (d.blocks (BBLOCK b d.sb)) (b % BPB))) b

/-- Block `b` is marked as free. -/
def gave (d : Disk) (b : ℕ) : Disk := d.logWrite (BBLOCK b d.sb) (clearBit (d.blocks (BBLOCK b d.sb)) (b % BPB))

section ops

variable {d : Disk} {b c : ℕ}

@[simp] theorem took_sb : (took d b).sb = d.sb := rfl

@[simp] theorem gave_sb : (gave d b).sb = d.sb := rfl

/-- A write outside the map. -/
theorem used_logWrite {v : Block} (hmap : ¬ InMap d.sb b) (hc : c < d.sb.size) : (d.logWrite b v).used c = d.used c := by
  have hne : BBLOCK c d.sb ≠ b := fun heq => hmap (heq ▸ inMap_BBLOCK hc)
  unfold Disk.used
  rw [Disk.logWrite_sb, Disk.logWrite_ne hne]

theorem took_self : (took d b).blocks b = fun _ => 0 := Disk.logWrite_self

theorem took_ne (hc : c ≠ b) (hmap : ¬ InMap d.sb c) (hb : b < d.sb.size) : (took d b).blocks c = d.blocks c := by
  have hbn : c ≠ BBLOCK b d.sb := fun heq => hmap (heq ▸ inMap_BBLOCK hb)
  unfold took bzero
  rw [Disk.logWrite_ne hc, Disk.logWrite_ne hbn]

theorem gave_ne (hmap : ¬ InMap d.sb c) (hb : b < d.sb.size) : (gave d b).blocks c = d.blocks c :=
  Disk.logWrite_ne fun heq => hmap (heq ▸ inMap_BBLOCK hb)

theorem took_used (hb : Data d.sb b) (hc : c < d.sb.size) : (took d b).used c = (d.used c || decide (c = b)) := by
  have hbn : BBLOCK c d.sb ≠ b := fun heq => hb.not_inMap (heq ▸ inMap_BBLOCK hc)
  have hmod : c % BPB < BPB := Nat.mod_lt _ (by decide)
  unfold Disk.used took bzero
  rw [Disk.logWrite_sb, Disk.logWrite_sb, Disk.logWrite_ne hbn]
  by_cases heq : BBLOCK c d.sb = BBLOCK b d.sb
  · rw [heq, Disk.logWrite_self, isSet_setBit hmod]
    congr 2
    exact propext ⟨fun h => by_contra fun hne => BBLOCK_ne heq hne h, fun h => by rw [h]⟩
  · have hne : c ≠ b := fun h => heq (by rw [h])
    rw [Disk.logWrite_ne heq]
    simp [hne]

theorem gave_used : (gave d b).used c = (d.used c && !decide (c = b)) := by
  have hmod : c % BPB < BPB := Nat.mod_lt _ (by decide)
  unfold Disk.used gave
  rw [Disk.logWrite_sb]
  by_cases heq : BBLOCK c d.sb = BBLOCK b d.sb
  · rw [heq, Disk.logWrite_self, isSet_clearBit hmod]
    congr 3
    exact propext ⟨fun h => by_contra fun hne => BBLOCK_ne heq hne h, fun h => by rw [h]⟩
  · have hne : c ≠ b := fun h => heq (by rw [h])
    rw [Disk.logWrite_ne heq]
    simp [hne]

theorem BBLOCK_mul_add (k : ℕ) {bi : ℕ} (sb : Superblock) (h : bi < BPB) : BBLOCK (k * BPB + bi) sb = BBLOCK (k * BPB) sb ∧ (k * BPB + bi) % BPB = bi := by
  unfold BPB BSIZE at h
  unfold BBLOCK BPB BSIZE
  omega

/-- `balloc` takes a block that is free, or there is none. -/
theorem balloc_cases (d : Disk) :
    (∃ b < d.sb.size, d.used b = false ∧ balloc d = .ok (took d b, BitVec.ofNat 32 b)) ∨
      (∀ b < d.sb.size, d.used b = true) ∧ balloc d = d.stop .outOfBlocks := by
  unfold balloc
  split
  · rename_i r hsome
    left
    obtain ⟨k, -, hk⟩ := List.exists_of_findSome?_eq_some hsome
    obtain ⟨bi, hbi, rfl⟩ := Option.map_eq_some_iff.mp hk
    have hlt : bi < min BPB (d.sb.size - k * BPB) := List.mem_range.mp (List.mem_of_find?_eq_some hbi)
    have hclear := List.find?_some hbi
    obtain ⟨hbn, hmod⟩ := BBLOCK_mul_add k d.sb (lt_min_iff.mp hlt).1
    refine ⟨k * BPB + bi, by omega, ?_, ?_⟩
    · unfold Disk.used
      rw [hbn, hmod]
      simpa using hclear
    · unfold took
      rw [hbn, hmod]
  · rename_i hnone
    right
    refine ⟨fun b hb => ?_, rfl⟩
    have hk : b / BPB < (d.sb.size + (BPB - 1)) / BPB := by
      unfold BPB BSIZE
      omega
    have hscan := List.findSome?_eq_none_iff.mp hnone (b / BPB) (List.mem_range.mpr hk)
    rw [Option.map_eq_none_iff] at hscan
    have hmod : b % BPB < BPB := Nat.mod_lt _ (by decide)
    have hdiv := Nat.div_add_mod' b BPB
    have hbit := List.find?_eq_none.mp hscan (b % BPB) (List.mem_range.mpr (lt_min_iff.mpr ⟨hmod, by omega⟩))
    obtain ⟨hbn, -⟩ := BBLOCK_mul_add (b / BPB) d.sb hmod
    rw [hdiv] at hbn
    unfold Disk.used
    rw [hbn]
    simpa using hbit

end ops

/-! ### The map is exact -/

/-- The superblock read is the one on the disk, and the blocks in use are those before the data blocks and those that are owned. -/
structure Sound {K : Type*} (d : Disk) (own : K → ℕ) : Prop where
  sb : readsb d.blocks = d.sb
  layout : Layout d.sb
  reserved : ∀ b < nmeta d.sb, d.used b = true
  owners : Exact 0 (Data d.sb) (d.used · = true) own

namespace Sound

variable {K : Type*} {d d' : Disk} {own : K → ℕ} {k : K} {b c : ℕ} {v : Block}

theorem data (h : Sound d own) (hk : own k ≠ 0) : Data d.sb (own k) := h.owners.valid k hk

/-- A write to a block that neither is the superblock nor belongs to the map. -/
theorem logWrite (h : Sound d own) (hb : 1 < b) (hmap : ¬ InMap d.sb b) : Sound (d.logWrite b v) own := by
  refine ⟨?_, h.layout, fun c hc => ?_, h.owners.congr fun c hc => ?_⟩
  · rw [Disk.logWrite_sb, ← h.sb]
    unfold readsb
    rw [Disk.logWrite_ne (by omega)]
  · rw [used_logWrite hmap (hc.trans_le h.layout.map)]
    exact h.reserved c hc
  · rw [used_logWrite hmap hc.2]

theorem write_data (h : Sound d own) (hb : Data d.sb b) : Sound (d.logWrite b v) own :=
  h.logWrite (h.layout.one_lt_data hb) hb.not_inMap

/-- The superblock is not in the map. -/
theorem not_inMap_one (h : Sound d own) : ¬ InMap d.sb 1 := fun hmap => absurd hmap.1 (not_le.mpr h.layout.one_lt_bmapstart)

variable [DecidableEq K]

/-- A key that owns nothing is given a free block. -/
theorem took (h : Sound d own) (hk : own k = 0) (hb : b < d.sb.size) (hfree : d.used b = false) :
    Data d.sb b ∧ Sound (took d b) (update own k b) := by
  have hdata : Data d.sb b := ⟨by_contra fun hlt => by simp [h.reserved b (by omega)] at hfree, hb⟩
  refine ⟨hdata, ?_, h.layout, fun c hc => ?_, ?_⟩
  · rw [took_sb, ← h.sb]
    unfold readsb
    rw [took_ne (h.layout.one_lt_data hdata).ne h.not_inMap_one hb]
  · rw [took_used hdata (hc.trans_le h.layout.map), h.reserved c hc]
    rfl
  · refine h.owners.take not_data_zero hk hdata (by simp [hfree]) fun c hc => ?_
    rw [took_used hdata hc.2]
    simp

/-- An owned block is given back, and `bfree` finds it in use. -/
theorem gave (h : Sound d own) (hk : own k ≠ 0) :
    bfree d (own k) = .ok (gave d (own k)) ∧ Sound (gave d (own k)) (update own k 0) := by
  have hdata := h.data hk
  refine ⟨?_, ?_, h.layout, fun c hc => ?_, ?_⟩
  · have hused := h.owners.used hk
    unfold Disk.used at hused
    unfold bfree
    rw [h.sb]
    exact if_pos hused
  · rw [gave_sb, ← h.sb]
    unfold readsb
    rw [gave_ne h.not_inMap_one hdata.2]
  · rw [gave_sb] at hc
    have hne : c ≠ own k := fun heq => absurd hdata.1 (by omega)
    rw [gave_used, h.reserved c hc]
    simp [hne]
  · refine h.owners.drop not_data_zero fun c _ => ?_
    rw [gave_used]
    simp

omit [DecidableEq K] in
/-- A free block is nobody's. -/
theorem own_ne (h : Sound d own) (hb : b < d.sb.size) (hfree : d.used b = false) (j : K) : own j ≠ b := fun hj => by
  have hle : nmeta d.sb ≤ b := by_contra fun hlt => by simp [h.reserved b (by omega)] at hfree
  have hused := (h.owners.exact b ⟨hle, hb⟩).mpr ⟨j, hj⟩
  rw [hfree] at hused
  exact Bool.false_ne_true hused

end Sound

/-- The number of data blocks that are free. -/
def free (d : Disk) : ℕ := ((Finset.Ico (nmeta d.sb) d.sb.size).filter (d.used · = false)).card

section free

variable {K : Type*} [DecidableEq K] {d : Disk} {own : K → ℕ} {k : K} {b : ℕ}

theorem free_logWrite {v : Block} (hmap : ¬ InMap d.sb b) : free (d.logWrite b v) = free d := by
  unfold free
  rw [Disk.logWrite_sb, Finset.filter_congr fun c hc => by rw [used_logWrite hmap (Finset.mem_Ico.mp hc).2]]

theorem free_took (hb : Data d.sb b) (hfree : d.used b = false) : free (took d b) + 1 = free d := by
  have hmem : b ∈ (Finset.Ico (nmeta d.sb) d.sb.size).filter (d.used · = false) := by simp [hb.1, hb.2, hfree]
  have herase : (Finset.Ico (nmeta d.sb) d.sb.size).filter ((took d b).used · = false) =
      ((Finset.Ico (nmeta d.sb) d.sb.size).filter (d.used · = false)).erase b := by
    ext c
    simp only [Finset.mem_filter, Finset.mem_erase, Finset.mem_Ico]
    constructor
    · rintro ⟨hc, hu⟩
      rw [took_used hb hc.2] at hu
      simp only [Bool.or_eq_false_iff, decide_eq_false_iff_not] at hu
      exact ⟨hu.2, hc, hu.1⟩
    · rintro ⟨hne, hc, hu⟩
      refine ⟨hc, ?_⟩
      rw [took_used hb hc.2, hu, decide_eq_false hne]
      rfl
  unfold free
  rw [took_sb, herase]
  exact Finset.card_erase_add_one hmem

theorem free_gave (hb : Data d.sb b) (hused : d.used b = true) : free (gave d b) = free d + 1 := by
  have hmem : b ∉ (Finset.Ico (nmeta d.sb) d.sb.size).filter (d.used · = false) := by simp [hused]
  have hinsert : (Finset.Ico (nmeta d.sb) d.sb.size).filter ((gave d b).used · = false) =
      insert b ((Finset.Ico (nmeta d.sb) d.sb.size).filter (d.used · = false)) := by
    ext c
    simp only [Finset.mem_filter, Finset.mem_insert, Finset.mem_Ico, gave_used, Bool.and_eq_false_iff, Bool.not_eq_false',
      decide_eq_true_eq]
    constructor
    · rintro ⟨hc, hu | rfl⟩
      · exact .inr ⟨hc, hu⟩
      · exact .inl rfl
    · rintro (rfl | ⟨hc, hu⟩)
      · exact ⟨hb, .inr rfl⟩
      · exact ⟨hc, .inl hu⟩
  unfold free
  rw [gave_sb, hinsert]
  exact Finset.card_insert_of_notMem hmem

/-- **`balloc`.** It gives a free block to a key that owns none, or there is no free block. -/
theorem Sound.balloc (h : Sound d own) (hk : own k = 0) :
    (∃ b, Fs.balloc d = .ok (Fs.took d b, BitVec.ofNat 32 b) ∧ Data d.sb b ∧ (∀ j, own j ≠ b) ∧ Sound (Fs.took d b) (update own k b) ∧
      free (Fs.took d b) + 1 = free d) ∨ Fs.balloc d = d.stop .outOfBlocks ∧ free d = 0 := by
  rcases balloc_cases d with ⟨b, hb, hfree, hok⟩ | ⟨hall, herror⟩
  · obtain ⟨hdata, hsound⟩ := h.took hk hb hfree
    exact .inl ⟨b, hok, hdata, h.own_ne hb hfree, hsound, free_took hdata hfree⟩
  · refine .inr ⟨herror, Finset.card_eq_zero.mpr (Finset.filter_eq_empty_iff.mpr fun b hb => ?_)⟩
    simp [hall b (Finset.mem_Ico.mp hb).2]

/-- **`bfree`.** It gives an owned block back. -/
theorem Sound.bfree (h : Sound d own) (hk : own k ≠ 0) :
    Fs.bfree d (own k) = .ok (Fs.gave d (own k)) ∧ Sound (Fs.gave d (own k)) (update own k 0) ∧
      free (Fs.gave d (own k)) = free d + 1 := by
  obtain ⟨hok, hsound⟩ := h.gave hk
  exact ⟨hok, hsound, free_gave (h.data hk) (h.owners.used hk)⟩

theorem toNat_block {sb : Superblock} (h : Layout sb) (hb : Data sb b) : (BitVec.ofNat 32 b).toNat = b := by
  have hfits := h.fits
  have hlt := hb.2
  rw [BitVec.toNat_ofNat, Nat.mod_eq_of_lt (by omega)]

end free

end Fs
end Xv6
end OsLabs
