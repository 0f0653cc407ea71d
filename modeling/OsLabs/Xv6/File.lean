/-
# Files as lists of bytes

The inodes in core, each as `ilock` has read it, with the disk under them, and calls of `readi`, `writei` and `itrunc` for any of them in any
order. What they show is a list of bytes for each file (`Spec`): a write puts its bytes over those that were there, the files keep out of each
other's way, and a call fails only where the files together would need more blocks than the disk has (`call_spec`).

The disk at the start is one on which the map is exact and no file has a hole (`Good`), as the calls leave it.

Key definitions: `Kernel`, `call`, `Good`, `File`, `Spec.call`.
Key theorems: `call_spec`, `read_writes_nothing`.
-/
import OsLabs.Lib.Files
import OsLabs.Lib.Simulation
import OsLabs.Xv6.Contents

namespace OsLabs
namespace Xv6
namespace Fs

open Function (update)
open Files (overwrite overwrite_nil)
open Run (run Sat)

structure Kernel where
  disk : Disk
  inode : ℕ → Inode

/-- What `ilock` reads. -/
def ilock (d : Disk) (i : ℕ) : Inode := { getDinode (d.blocks (IBLOCK i d.sb)) (i % IPB) with inum := i, ref := 1, valid := true }

def Kernel.start (d : Disk) : Kernel := ⟨d, ilock d⟩

inductive Call
  | read (i : ℕ) (off n : Word)
  | write (i : ℕ) (src : ℕ → Byte) (off n : Word)
  | trunc (i : ℕ)

/-- The inode the call is for. -/
def Call.inum : Call → ℕ
  | .read i _ _ => i
  | .write i _ _ _ => i
  | .trunc i => i

/-- What a call returns; `none` is -1. -/
inductive Reply
  | bytes (dst : Option (List Byte))
  | count (n : Option ℕ)
  | done

/-- The function that the call is for. -/
def dispatch (devsw : Devsw) (s : Kernel) : Call → Except Stop (Kernel × Reply)
  | .read i off n => do
    let r ← readi devsw s.disk (s.inode i) off.toNat n.toNat
    .ok (⟨r.1, update s.inode i r.2.1⟩, .bytes r.2.2)
  | .write i src off n => do
    let r ← writei devsw s.disk (s.inode i) src off.toNat n.toNat
    .ok (⟨r.1, update s.inode i r.2.1⟩, .count r.2.2)
  | .trunc i => do
    let r ← itrunc s.disk (s.inode i)
    .ok (⟨r.1, update s.inode i r.2⟩, .done)

/-- A call under a log that takes every block. -/
def call (devsw : Devsw) (s : Kernel) (c : Call) : Except Panic (Kernel × Reply) := (dispatch devsw s c).mapError Stop.panic

/-- A call in a session, which keeps the replies. -/
def step (devsw : Devsw) (s : Kernel × List Reply) (c : Call) : Except Panic (Kernel × List Reply) := do
  let r ← call devsw s.1 c
  .ok (r.1, s.2 ++ [r.2])

/-! ### What the files are -/

structure File where
  type : BitVec 16
  major : BitVec 16
  data : List Byte

/-- The number of blocks that hold `size` bytes. -/
def nblocks (size : ℕ) : ℕ := (size + (BSIZE - 1)) / BSIZE

namespace Spec

/-- The files `0` to `N - 1` need no more than `capacity` blocks, their indirect blocks included. -/
def Fits (N capacity : ℕ) (files : ℕ → File) : Prop :=
  ∑ i ∈ Finset.range N, blocksFor (nblocks (files i).data.length) ≤ capacity

instance (N capacity : ℕ) (files : ℕ → File) : Decidable (Fits N capacity files) := Nat.decLe ..

def call (devsw : Devsw) (N capacity : ℕ) (files : ℕ → File) : Call → Except Panic ((ℕ → File) × Reply)
  | .read i off n =>
    let f := files i
    let off := off.toNat
    let n := n.toNat
    if f.type = T_DEV then .ok (files, .bytes ((Devsw.at devsw.read f.major).bind (· n)))
    else if f.data.length < off ∨ 2 ^ 32 ≤ off + n then .ok (files, .bytes none)
    else .ok (files, .bytes (some ((f.data.drop off).take n)))
  | .write i src off n =>
    let f := files i
    let off := off.toNat
    let n := n.toNat
    if f.type = T_DEV then .ok (files, .count ((Devsw.at devsw.write f.major).bind (· ((List.range n).map src))))
    else if f.data.length < off ∨ 2 ^ 32 ≤ off + n ∨ MAXFILE * BSIZE < off + n then .ok (files, .count none)
    else
      let files' := update files i { f with data := overwrite f.data off ((List.range n).map src) }
      if Fits N capacity files' then .ok (files', .count (some n)) else .error .outOfBlocks
  | .trunc i => .ok (update files i { files i with data := [] }, .done)

def step (devsw : Devsw) (N capacity : ℕ) (s : (ℕ → File) × List Reply) (c : Call) : Except Panic ((ℕ → File) × List Reply) := do
  let r ← call devsw N capacity s.1 c
  .ok (r.1, s.2 ++ [r.2])

end Spec

namespace Kernel

variable (s : Kernel)

/-- The blocks that the inodes list. -/
def addrs (i : ℕ) : Addrs := if i < s.disk.sb.ninodes then (s.inode i).addrs else fun _ => 0

/-- What the inodes own. -/
def owns : ℕ × ℕ → ℕ := own s.disk.blocks s.addrs

def size (i : ℕ) : ℕ := (s.inode i).size.toNat

def file (i : ℕ) : File where
  type := (s.inode i).type
  major := (s.inode i).major
  data := (List.range (s.size i)).map (byteOf s.disk.blocks s.owns i)

/-- The files of the inodes that there are. -/
def files (i : ℕ) : File := if i < s.disk.sb.ninodes then s.file i else ⟨0, 0, []⟩

end Kernel

/-- The map is exact, the files have no holes, and each inode on the disk is the one in core. -/
structure Good (s : Kernel) : Prop where
  sound : Sound s.disk s.owns
  full : ∀ i < s.disk.sb.ninodes, Full s.owns i (nblocks (s.size i))
  synced : ∀ i < s.disk.sb.ninodes, getDinode (s.disk.blocks (IBLOCK i s.disk.sb)) (i % IPB) = (s.inode i).toDinode
  inum : ∀ i, (s.inode i).inum = i

/-- The number of data blocks. -/
def capacity (sb : Superblock) : ℕ := sb.size - nmeta sb

/-! ### Lists -/

theorem overwrite_map_range {f src : ℕ → Byte} {size off n : ℕ} (h : off ≤ size) :
    overwrite ((List.range size).map f) off ((List.range n).map src) =
      (List.range (max size (off + n))).map fun k => if off ≤ k ∧ k < off + n then src (k - off) else f k := by
  unfold overwrite
  apply List.ext_getElem
  · simp only [List.length_append, List.length_take, List.length_map, List.length_range, List.length_drop]
    omega
  · intro k hk hk'
    simp only [List.length_map, List.length_range] at hk'
    simp only [List.getElem_append, List.length_append, List.length_take, List.length_map, List.length_range, Nat.min_eq_left h, List.getElem_take,
      List.getElem_map, List.getElem_range, List.getElem_drop]
    by_cases h1 : k < off
    · rw [dif_pos (by omega), dif_pos h1, if_neg (by omega)]
    · by_cases h2 : k < off + n
      · rw [dif_pos h2, dif_neg h1, if_pos ⟨by omega, h2⟩]
      · rw [dif_neg h2, if_neg (by omega)]
        congr 1
        omega

theorem take_drop_map_range {f : ℕ → Byte} {size off n : ℕ} :
    (((List.range size).map f).drop off).take n = (List.range (min n (size - off))).map fun k => f (off + k) := by
  apply List.ext_getElem
  · simp
  · intro k hk hk'
    simp

/-! ### Counting the blocks -/

theorem Layout.data_ne_IBLOCK {sb : Superblock} {c i : ℕ} (h : Layout sb) (hi : i < sb.ninodes) (hc : Data sb c) : c ≠ IBLOCK i sb := fun heq =>
  absurd hc.1 (not_le.mpr (heq ▸ (h.IBLOCK_lt hi).2.trans_le (Nat.le_add_right ..)))

theorem slot_zero (B : ℕ → Block) (p : ℕ) : slot B (fun _ => 0) p = 0 := by
  simp [slot]

theorem card_places {f : ℕ × ℕ → ℕ} {i n : ℕ} (h : Full f i n) : ((Finset.range (MAXFILE + 1)).filter fun p => f (i, p) ≠ 0).card = blocksFor n := by
  have hle := h.le
  rw [Finset.filter_congr fun p _ => h.places p]
  unfold blocksFor
  split_ifs with hn
  · have hset : ((Finset.range (MAXFILE + 1)).filter fun p => p < n ∨ p = MAXFILE ∧ NDIRECT < n) = insert MAXFILE (Finset.range n) := by
      ext p
      simp only [Finset.mem_filter, Finset.mem_insert, Finset.mem_range]
      constructor
      · rintro ⟨-, hp | hp⟩
        · exact .inr hp
        · exact .inl hp.1
      · rintro (rfl | hp)
        · exact ⟨Nat.lt_succ_self _, .inr ⟨rfl, hn⟩⟩
        · exact ⟨by omega, .inl hp⟩
    rw [hset, Finset.card_insert_of_notMem (by rw [Finset.mem_range]; omega), Finset.card_range]
  · have hset : ((Finset.range (MAXFILE + 1)).filter fun p => p < n ∨ p = MAXFILE ∧ NDIRECT < n) = Finset.range n := by
      ext p
      simp only [Finset.mem_filter, Finset.mem_range]
      constructor
      · rintro ⟨-, hp | hp⟩
        · exact hp
        · exact absurd hp.2 hn
      · exact fun hp => ⟨by omega, .inl hp⟩
    rw [hset, Finset.card_range]

namespace Good

variable {s : Kernel} {i : ℕ}

theorem addrs_eq (s : Kernel) (hi : i < s.disk.sb.ninodes) : s.addrs i = (s.inode i).addrs := if_pos hi

/-- **Every block is free or in a file.** -/
theorem free_add (h : Good s) :
    free s.disk + ∑ i ∈ Finset.range s.disk.sb.ninodes, blocksFor (nblocks (s.size i)) = capacity s.disk.sb := by
  have hkeys : ∀ x, s.owns x ≠ 0 → x ∈ Finset.range s.disk.sb.ninodes ×ˢ Finset.range (MAXFILE + 1) := fun x hx => by
    have hi : x.1 < s.disk.sb.ninodes := by
      by_contra hi
      refine hx ?_
      unfold Kernel.owns own Kernel.addrs
      rw [if_neg hi, slot_zero]
      rfl
    have hle := (h.full x.1 hi).le
    rw [Finset.mem_product, Finset.mem_range, Finset.mem_range]
    refine ⟨hi, ?_⟩
    rcases ((h.full x.1 hi).places x.2).mp hx with hp | hp <;> omega
  have hcard := h.sound.owners.card not_data_zero (Finset.Ico (nmeta s.disk.sb) s.disk.sb.size)
    (fun r => Finset.mem_Ico) hkeys
  have hsum : ((Finset.range s.disk.sb.ninodes ×ˢ Finset.range (MAXFILE + 1)).filter (s.owns · ≠ 0)).card =
      ∑ i ∈ Finset.range s.disk.sb.ninodes, blocksFor (nblocks (s.size i)) := by
    rw [Finset.card_filter, Finset.sum_product]
    refine Finset.sum_congr rfl fun i hi => ?_
    rw [← card_places (h.full i (Finset.mem_range.mp hi)), Finset.card_filter]
  have hsplit := Finset.card_filter_add_card_filter_not (s := Finset.Ico (nmeta s.disk.sb) s.disk.sb.size) (s.disk.used · = true)
  have hfree : ((Finset.Ico (nmeta s.disk.sb) s.disk.sb.size).filter fun b => ¬ s.disk.used b = true).card = free s.disk := by
    unfold free
    exact congrArg Finset.card (Finset.filter_congr fun b _ => Bool.not_eq_true _ ▸ Iff.rfl)
  rw [hcard, hsum, hfree, Nat.card_Ico] at hsplit
  unfold capacity
  omega

/-- An inode on the disk after `iupdate`. -/
theorem getDinode_iupdate (d : Disk) (ip : Inode) (j : ℕ) :
    getDinode ((iupdate d ip).blocks (IBLOCK j d.sb)) (j % IPB) =
      if j = ip.inum then ip.toDinode else getDinode (d.blocks (IBLOCK j d.sb)) (j % IPB) := by
  have hmod : ∀ x, x % IPB < IPB := fun x => Nat.mod_lt _ (by decide)
  unfold iupdate
  by_cases hj : j = ip.inum
  · rw [if_pos hj, hj, Disk.logWrite_self, getDinode_setDinode (hmod _)]
  · rw [if_neg hj]
    by_cases hblock : IBLOCK j d.sb = IBLOCK ip.inum d.sb
    · have hne : j % IPB ≠ ip.inum % IPB := fun heq => by
        unfold IBLOCK at hblock
        have hdiv := Nat.div_add_mod j IPB
        have hdiv' := Nat.div_add_mod ip.inum IPB
        rw [show j / IPB = ip.inum / IPB by omega, heq] at hdiv
        omega
      rw [hblock, Disk.logWrite_self, getDinode_setDinode_ne hne (hmod _)]
    · rw [Disk.logWrite_ne hblock]

/-- The file of an inode whose blocks are what they were. -/
theorem file_congr {s' : Kernel} (h : Good s) (hi : i < s.disk.sb.ninodes) (hinode : s'.inode i = s.inode i)
    (hown : ∀ p, s'.owns (i, p) = s.owns (i, p) ∧ (s.owns (i, p) ≠ 0 → s'.disk.blocks (s.owns (i, p)) = s.disk.blocks (s.owns (i, p)))) :
    s'.file i = s.file i := by
  unfold Kernel.file Kernel.size
  rw [hinode]
  congr 1
  refine List.map_congr_left fun k hk => ?_
  have hlt : k / BSIZE < nblocks (s.size i) := by
    have := List.mem_range.mp hk
    unfold nblocks Kernel.size BSIZE
    omega
  obtain ⟨hsame, hkept⟩ := hown (k / BSIZE)
  unfold byteOf
  rw [hsame, hkept (((h.full i hi).places _).mpr (.inl hlt))]

/-- The inode `i` has changed, with its blocks and nobody else's. -/
theorem change (h : Good s) (hi : i < s.disk.sb.ninodes) {d' : Disk} (ip' : Inode) (hsound : Sound d' (own d'.blocks (update s.addrs i ip'.addrs)))
    (hsb : d'.sb = s.disk.sb) (hinum : ip'.inum = i) (hfull : Full (own d'.blocks (update s.addrs i ip'.addrs)) i (nblocks ip'.size.toNat))
    (hothers : ∀ j ≠ i, ∀ p, own d'.blocks (update s.addrs i ip'.addrs) (j, p) = s.owns (j, p) ∧
      (s.owns (j, p) ≠ 0 → d'.blocks (s.owns (j, p)) = s.disk.blocks (s.owns (j, p))))
    (hsync : ∀ j < s.disk.sb.ninodes, getDinode (d'.blocks (IBLOCK j s.disk.sb)) (j % IPB) =
      if j = i then ip'.toDinode else getDinode (s.disk.blocks (IBLOCK j s.disk.sb)) (j % IPB)) :
    Good ⟨d', update s.inode i ip'⟩ ∧ Kernel.files ⟨d', update s.inode i ip'⟩ = update s.files i
      ⟨ip'.type, ip'.major, (List.range ip'.size.toNat).map (byteOf d'.blocks (own d'.blocks (update s.addrs i ip'.addrs)) i)⟩ := by
  have haddrs : Kernel.addrs ⟨d', update s.inode i ip'⟩ = update s.addrs i ip'.addrs := by
    funext j
    unfold Kernel.addrs
    dsimp only
    rw [hsb]
    by_cases hj : j = i
    · rw [hj, if_pos hi, Function.update_self, Function.update_self]
    · rw [Function.update_of_ne hj, Function.update_of_ne hj]
  have howns : Kernel.owns ⟨d', update s.inode i ip'⟩ = own d'.blocks (update s.addrs i ip'.addrs) := by
    unfold Kernel.owns
    rw [haddrs]
  constructor
  · refine ⟨howns.symm ▸ hsound, fun j hj => ?_, fun j hj => ?_, fun j => ?_⟩
    · rw [howns]
      unfold Kernel.size
      dsimp only at hj ⊢
      by_cases hji : j = i
      · rw [hji, Function.update_self]
        exact hfull
      · rw [Function.update_of_ne hji]
        have hfull' := h.full j (hsb ▸ hj)
        exact ⟨hfull'.le, fun p => by rw [(hothers j hji p).1]; exact hfull'.places p⟩
    · dsimp only at hj ⊢
      rw [hsb] at hj ⊢
      rw [hsync j hj]
      by_cases hji : j = i
      · rw [if_pos hji, hji, Function.update_self]
      · rw [if_neg hji, Function.update_of_ne hji, h.synced j hj]
    · dsimp only
      by_cases hji : j = i
      · rw [hji, Function.update_self, hinum]
      · rw [Function.update_of_ne hji, h.inum j]
  · funext j
    unfold Kernel.files
    dsimp only
    rw [hsb]
    by_cases hji : j = i
    · rw [hji, if_pos hi, Function.update_self]
      unfold Kernel.file Kernel.size
      rw [howns]
      dsimp only
      rw [Function.update_self]
    · rw [Function.update_of_ne hji]
      by_cases hj : j < s.disk.sb.ninodes
      · rw [if_pos hj, if_pos hj]
        refine h.file_congr hj (Function.update_of_ne hji ..) fun p => ?_
        rw [howns]
        exact hothers j hji p
      · rw [if_neg hj, if_neg hj]

/-- There is room for the files that there are. -/
theorem fits (h : Good s) : Spec.Fits s.disk.sb.ninodes (capacity s.disk.sb) s.files := by
  have hadd := h.free_add
  have hsum : ∑ i ∈ Finset.range s.disk.sb.ninodes, blocksFor (nblocks (s.files i).data.length) =
      ∑ i ∈ Finset.range s.disk.sb.ninodes, blocksFor (nblocks (s.size i)) := by
    refine Finset.sum_congr rfl fun i hi => ?_
    unfold Kernel.files Kernel.file
    rw [if_pos (Finset.mem_range.mp hi), List.length_map, List.length_range]
  unfold Spec.Fits
  rw [hsum]
  omega

end Good

/-! ### A disk without files -/

/-- The superblock that `mkfs` writes for 1000 blocks and 200 inodes. -/
def mkfsSb : Superblock := ⟨1000, 941, 200, 30, 2, 32, 58⟩

/-- The disk before `mkfs` has made the first file, with the map of the blocks that are not for data. -/
def emptyDisk : Disk where
  sb := mkfsSb
  blocks b :=
    if b = 1 then fun x => ([1000, 941, 200, 30, 2, 32, 58].getD (x.1 / 4) (0 : Word)).extractLsb' (8 * (x.1 % 4)) 8
    else if b = 58 then fun x => if x.1 < 7 then 255 else if x.1 = 7 then 7 else 0
    else fun _ => 0
  logged := []

theorem emptyDisk_block {b : ℕ} (h1 : b ≠ 1) (h58 : b ≠ 58) : emptyDisk.blocks b = fun _ => 0 := by
  unfold emptyDisk
  dsimp only
  rw [if_neg h1, if_neg h58]

theorem getWord_zero (i : ℕ) : getWord (fun _ => 0) i = 0 := getWord_of_bytes fun r _ => by simp [byteAt]

theorem emptyDisk_addrs : (Kernel.start emptyDisk).addrs = fun _ _ => 0 := by
  funext i
  unfold Kernel.addrs
  split_ifs with hi
  · have hi' : i < 200 := hi
    have hblock : emptyDisk.blocks (IBLOCK i emptyDisk.sb) = fun _ => 0 := by
      have hib : IBLOCK i emptyDisk.sb = i / 8 + 32 := rfl
      rw [hib]
      exact emptyDisk_block (by omega) (by omega)
    funext j
    unfold Kernel.start ilock getDinode
    dsimp only
    rw [hblock, getWord_zero]
  · rfl

theorem emptyDisk_good : Good (Kernel.start emptyDisk) := by
  have hown : ∀ x, (Kernel.start emptyDisk).owns x = 0 := fun x => by
    unfold Kernel.owns own
    rw [emptyDisk_addrs, slot_zero]
    rfl
  have hsize : ∀ i < 200, (Kernel.start emptyDisk).size i = 0 := fun i hi => by
    have hblock : emptyDisk.blocks (IBLOCK i emptyDisk.sb) = fun _ => 0 := by
      have hib : IBLOCK i emptyDisk.sb = i / 8 + 32 := rfl
      rw [hib]
      exact emptyDisk_block (by omega) (by omega)
    unfold Kernel.size Kernel.start ilock getDinode
    dsimp only
    rw [hblock, getWord_zero]
    rfl
  have hlayout : Layout mkfsSb := ⟨by decide, by decide, by decide, by decide⟩
  have hfree : ∀ b < 1000, 59 ≤ b → emptyDisk.used b = false := by decide +kernel
  refine ⟨⟨by decide +kernel, hlayout, by decide +kernel, fun x hx => absurd (hown x) hx, fun x _ _ hx => absurd (hown x) hx, fun b hb => ?_⟩,
    fun i hi => ?_, fun i _ => rfl, fun i => rfl⟩
  · constructor
    · intro hused
      have hclear := hfree b hb.2 hb.1
      exact absurd (hclear.symm.trans hused) Bool.false_ne_true
    · rintro ⟨x, hx⟩
      exact absurd hb (by rw [← hx, hown x]; exact not_data_zero)
  · rw [hsize i hi]
    refine ⟨Nat.zero_le _, fun p => ?_⟩
    have hnone : nblocks 0 = 0 := rfl
    rw [hown, hnone]
    simp

/-! ### The calls -/

section calls

variable {s : Kernel} {i : ℕ} (devsw : Devsw)

/-- What a call should do: what the files' specification says, in a state as good as before. -/
def Meets (devsw : Devsw) (s : Kernel) (c : Call) : Prop :=
  (call devsw s c).map (fun r => (r.1.files, r.2)) = Spec.call devsw s.disk.sb.ninodes (capacity s.disk.sb) s.files c ∧
    Sat (fun r => Good r.1 ∧ r.1.disk.sb = s.disk.sb) (fun _ => True) (call devsw s c)

theorem files_of_lt (hi : i < s.disk.sb.ninodes) : s.files i = s.file i := if_pos hi

/-- Overflow of an offset. -/
theorem wraps_iff {off n : Word} : (off.toNat + n.toNat) % 2 ^ 32 < off.toNat ↔ 2 ^ 32 ≤ off.toNat + n.toNat := by
  have hoff := off.isLt
  have hn := n.isLt
  omega

theorem le_nblocks {size : ℕ} : size ≤ nblocks size * BSIZE := by
  unfold nblocks BSIZE
  omega

theorem length_file : (s.file i).data.length = (s.inode i).size.toNat := by
  unfold Kernel.file Kernel.size
  rw [List.length_map, List.length_range]

/-- **A read changes nothing at all.** -/
theorem readi_spec (h : Good s) (hi : i < s.disk.sb.ninodes) (off n : Word) :
    ∃ r, readi devsw s.disk (s.inode i) off.toNat n.toNat = .ok (s.disk, s.inode i, r) ∧
      Spec.call devsw s.disk.sb.ninodes (capacity s.disk.sb) s.files (.read i off n) = .ok (s.files, .bytes r) := by
  unfold readi Spec.call
  dsimp only
  rw [files_of_lt hi, length_file]
  by_cases hdev : (s.inode i).type = T_DEV
  · exact ⟨_, if_pos hdev, if_pos hdev⟩
  · have hdev' : ¬ (s.file i).type = T_DEV := hdev
    rw [if_neg hdev, if_neg hdev']
    by_cases hbad : (s.inode i).size.toNat < off.toNat ∨ 2 ^ 32 ≤ off.toNat + n.toNat
    · exact ⟨none, if_pos (hbad.imp_right wraps_iff.mpr), if_pos hbad⟩
    · rw [if_neg fun hbad' => hbad (hbad'.imp_right wraps_iff.mp), if_neg hbad]
      have hmin : (if (s.inode i).size.toNat < off.toNat + n.toNat then (s.inode i).size.toNat - off.toNat else n.toNat) =
          min n.toNat ((s.inode i).size.toNat - off.toNat) := by
        split_ifs <;> omega
      have hle : off.toNat + min n.toNat ((s.inode i).size.toNat - off.toNat) ≤ nblocks (s.size i) * BSIZE := by
        refine le_trans ?_ le_nblocks
        unfold Kernel.size
        omega
      rw [hmin, readLoop_spec (Good.addrs_eq s hi) (h.full i hi) _ _ hle, ok_bind]
      refine ⟨_, rfl, ?_⟩
      unfold Kernel.file
      rw [take_drop_map_range]
      rfl

theorem read_meets (h : Good s) (hi : i < s.disk.sb.ninodes) (off n : Word) : Meets devsw s (.read i off n) := by
  obtain ⟨r, hok, hspec⟩ := readi_spec devsw h hi off n
  have hcall : call devsw s (.read i off n) = .ok (s, .bytes r) := by
    unfold call dispatch
    dsimp only
    rw [hok, ok_bind]
    dsimp only
    rw [Function.update_eq_self, mapError_ok]
  unfold Meets
  rw [hcall, hspec]
  exact ⟨rfl, h, rfl⟩

theorem trunc_meets (h : Good s) (hi : i < s.disk.sb.ninodes) : Meets devsw s (.trunc i) := by
  obtain ⟨d', hok, hmap, hsound⟩ := itrunc_spec h.sound (Good.addrs_eq s hi)
  generalize hip : ({ s.inode i with size := 0, addrs := fun _ => 0 } : Inode) = ip' at hok
  have haddrs : ip'.addrs = fun _ => 0 := by rw [← hip]
  have hinum : ip'.inum = i := by rw [← hip]; exact h.inum i
  have hlt : ip'.inum < d'.sb.ninodes := by rw [hinum, hmap.sb]; exact hi
  obtain ⟨hsound', hown, hne⟩ := hsound.iupdate ip' hlt
  have hsb : (iupdate d' ip').sb = s.disk.sb := hmap.sb
  have hdata : ∀ x, s.owns x ≠ 0 → (iupdate d' ip').blocks (s.owns x) = s.disk.blocks (s.owns x) := fun x hx => by
    have hd := h.sound.data hx
    have hib := (h.sound.layout.IBLOCK_lt hi).2
    rw [hne, hmap.kept _ hd.not_inMap]
    rw [hinum, hmap.sb]
    exact fun heq => absurd hd.1 (not_le.mpr (heq ▸ hib.trans_le (Nat.le_add_right ..)))
  have hothers : ∀ j ≠ i, ∀ p, own (iupdate d' ip').blocks (update s.addrs i ip'.addrs) (j, p) = s.owns (j, p) ∧
      (s.owns (j, p) ≠ 0 → (iupdate d' ip').blocks (s.owns (j, p)) = s.disk.blocks (s.owns (j, p))) := fun j hj p => by
    refine ⟨?_, hdata _⟩
    unfold Kernel.owns own
    dsimp only
    rw [Function.update_of_ne hj]
    exact congrArg BitVec.toNat (slot_congr fun ha => hdata (j, MAXFILE) (own_ind (d := s.disk) j ha).2)
  have hsync : ∀ j < s.disk.sb.ninodes, getDinode ((iupdate d' ip').blocks (IBLOCK j s.disk.sb)) (j % IPB) =
      if j = i then ip'.toDinode else getDinode (s.disk.blocks (IBLOCK j s.disk.sb)) (j % IPB) := fun j hj => by
    have hib := (h.sound.layout.IBLOCK_lt hj).2
    have hget := Good.getDinode_iupdate d' ip' j
    rw [hmap.sb, hinum, hmap.kept _ fun hm => absurd hm.1 (not_le.mpr hib)] at hget
    exact hget
  have hsize : ip'.size.toNat = 0 := by rw [← hip]; rfl
  have hfull : Full (own (iupdate d' ip').blocks (update s.addrs i ip'.addrs)) i (nblocks ip'.size.toNat) := by
    have hnone : nblocks 0 = 0 := rfl
    rw [hsize, hnone]
    refine ⟨Nat.zero_le _, fun p => ?_⟩
    unfold own
    dsimp only
    rw [Function.update_self, haddrs, slot_zero]
    simp
  obtain ⟨hgood, hfiles⟩ := h.change hi ip' (by rw [haddrs]; exact hsound') hsb hinum hfull hothers hsync
  have hcall : call devsw s (.trunc i) = .ok (⟨iupdate d' ip', update s.inode i ip'⟩, .done) := by
    unfold call dispatch
    dsimp only
    rw [hok, ok_bind, mapError_ok]
  unfold Meets
  rw [hcall]
  refine ⟨congrArg Except.ok (Prod.ext ?_ rfl), hgood, hsb⟩
  dsimp only
  rw [hfiles, hsize, files_of_lt hi, ← hip]
  rfl

theorem grown_nblocks {size off n : ℕ} (hn : 0 < n) (hlt : size < off + n) : grown (nblocks size) off n = nblocks (off + n) := by
  unfold grown nblocks BSIZE
  rw [if_neg (by omega)]
  omega

theorem grown_same {size off n : ℕ} (hle : n = 0 ∨ off + n ≤ size) : grown (nblocks size) off n = nblocks size := by
  unfold grown nblocks BSIZE
  split_ifs <;> omega

/-- The inode lists what it listed. -/
theorem addrs_of_own {B B' : ℕ → Block} {A A' : ℕ → Addrs} {n : ℕ} (hfull : Full (own B A) i n) (hfull' : Full (own B' A') i n)
    (hplaces : ∀ p < n, own B' A' (i, p) = own B A (i, p))
    (hind : own B A (i, MAXFILE) ≠ 0 → own B' A' (i, MAXFILE) = own B A (i, MAXFILE)) : A' i = A i := by
  have hsame : ∀ p, own B' A' (i, p) = own B A (i, p) := fun p => by
    by_cases hp : own B A (i, p) = 0
    · rw [hp]
      by_contra hne
      exact (hfull.places p).mpr ((hfull'.places p).mp hne) hp
    · rcases (hfull.places p).mp hp with hlt | ⟨rfl, -⟩
      · exact hplaces p hlt
      · exact hind hp
  funext j
  apply BitVec.eq_of_toNat_eq
  refine Fin.lastCases (hsame MAXFILE) (fun k => ?_) j
  have hk := hsame k
  unfold own at hk
  rw [slot_direct k.2, slot_direct k.2] at hk
  exact hk

/-- What a write makes of the bytes of a file. -/
theorem data_write (src : ℕ → Byte) {off : ℕ} (n : ℕ) {size : ℕ} (hoff : off ≤ (s.inode i).size.toNat) (hsize : size = max (s.inode i).size.toNat (off + n))
    {g : ℕ → Byte} (hg : ∀ k < size, g k = if off ≤ k ∧ k < off + n then src (k - off) else byteOf s.disk.blocks s.owns i k) :
    (List.range size).map g = overwrite (s.file i).data off ((List.range n).map src) := by
  unfold Kernel.file Kernel.size
  rw [overwrite_map_range hoff, ← hsize]
  exact List.map_congr_left fun k hk => hg k (List.mem_range.mp hk)

/-- **`writei`** within the largest file: the bytes are in the file, or there are not enough free blocks. -/
theorem writei_spec (h : Good s) (hi : i < s.disk.sb.ninodes) (src : ℕ → Byte) {off n : ℕ} (hdev : (s.inode i).type ≠ T_DEV)
    (hoff : off ≤ (s.inode i).size.toNat) (hwrap : off + n < 2 ^ 32) (hmax : off + n ≤ MAXFILE * BSIZE) :
    (∃ d' ip', writei devsw s.disk (s.inode i) src off n = .ok (d', ip', some n) ∧ d'.sb = s.disk.sb ∧ Good ⟨d', update s.inode i ip'⟩ ∧
      Kernel.files ⟨d', update s.inode i ip'⟩ =
        update s.files i { s.file i with data := overwrite (s.file i).data off ((List.range n).map src) }) ∨
      (∃ l, writei devsw s.disk (s.inode i) src off n = .error ⟨.outOfBlocks, l⟩) ∧
        free s.disk + blocksFor (nblocks (s.inode i).size.toNat) < blocksFor (nblocks (max (s.inode i).size.toNat (off + n))) := by
  have hfull := h.full i hi
  have haddrs := Good.addrs_eq s hi
  have hloop : writei devsw s.disk (s.inode i) src off n = (do
      let r ← writeLoop s.disk (s.inode i) src off n
      if 0 < n ∧ (s.inode i).size.toNat < off + n then
        let ip := { r.2 with size := BitVec.ofNat 32 (off + n) }
        .ok (iupdate r.1 ip, ip, some n)
      else .ok (r.1, r.2, some n)) := by
    unfold writei
    rw [if_neg hdev, if_neg (by omega), if_neg (not_lt.mpr hmax)]
  have hle : off ≤ nblocks (s.inode i).size.toNat * BSIZE := hoff.trans le_nblocks
  rcases writeLoop_spec n (s.inode i) src h.sound haddrs hfull hle hmax with
    ⟨d', a', hok, hmoves, hbytes⟩ | ⟨⟨_, _, _, l, -, -, -, herror⟩, hfree⟩
  · left
    have hsb := hmoves.sb
    have hlow : ∀ j < s.disk.sb.ninodes, d'.blocks (IBLOCK j s.disk.sb) = s.disk.blocks (IBLOCK j s.disk.sb) := fun j hj =>
      hmoves.low _ (h.sound.layout.IBLOCK_lt hj).2
    by_cases hgrow : 0 < n ∧ (s.inode i).size.toNat < off + n
    · -- The file is longer than it was, and its inode is written.
      generalize hip : ({ s.inode i with addrs := a', size := BitVec.ofNat 32 (off + n) } : Inode) = ip'
      have hinum : ip'.inum = i := by rw [← hip]; exact h.inum i
      have haddrs' : ip'.addrs = a' := by rw [← hip]
      have hsize : ip'.size.toNat = off + n := by
        rw [← hip]
        dsimp only
        rw [BitVec.toNat_ofNat, Nat.mod_eq_of_lt hwrap]
      have hgrown : grown (nblocks (s.size i)) off n = nblocks ip'.size.toNat := by
        rw [hsize]
        exact grown_nblocks hgrow.1 hgrow.2
      rw [hgrown, ← haddrs'] at hmoves
      rw [hgrown, ← haddrs'] at hbytes
      obtain ⟨hsound, hown, hne⟩ := hmoves.sound.iupdate ip' (by rw [hinum, hsb]; exact hi)
      have hdata : ∀ c, Data s.disk.sb c → (iupdate d' ip').blocks c = d'.blocks c := fun c hc => by
        apply hne
        rw [hinum, hsb]
        exact h.sound.layout.data_ne_IBLOCK hi hc
      obtain ⟨hgood, hfiles⟩ := h.change hi ip' hsound hsb hinum (by rw [hown]; exact hmoves.full)
        (fun j hj p => by
          obtain ⟨hsame, hkept⟩ := hmoves.others j hj p
          rw [hown]
          exact ⟨hsame, fun hx => (hdata _ (h.sound.data hx)).trans (hkept hx)⟩)
        (fun j hj => by
          have hget := Good.getDinode_iupdate d' ip' j
          rw [hsb, hinum, hlow j hj] at hget
          exact hget)
      refine ⟨iupdate d' ip', ip', ?_, hsb, hgood, ?_⟩
      · rw [hloop, hok, ok_bind]
        dsimp only
        rw [if_pos hgrow, hip]
      · rw [hfiles, data_write src n hoff (hsize.trans (max_eq_right hgrow.2.le).symm), ← hip]
        · rfl
        · intro k hk
          have hkb : k < nblocks ip'.size.toNat * BSIZE := hk.trans_le le_nblocks
          have hdiv : k / BSIZE < nblocks ip'.size.toNat := (Nat.div_lt_iff_lt_mul (by decide)).mpr hkb
          have hd := hmoves.sound.data ((hmoves.full.places _).mpr (.inl hdiv))
          rw [hown]
          have hbyte := hbytes k hkb
          unfold byteOf at hbyte ⊢
          rw [hdata _ (hsb ▸ hd), hbyte]
          by_cases hspan : off ≤ k ∧ k < off + n
          · rw [if_pos hspan, if_pos hspan]
          · have hold : k < (s.inode i).size.toNat := by omega
            rw [if_neg hspan, if_neg hspan, if_pos (show k < nblocks (s.size i) * BSIZE from hold.trans_le le_nblocks)]
            rfl
    · -- It has the blocks that it had.
      have hgrown : grown (nblocks (s.size i)) off n = nblocks (s.size i) := grown_same (by
        have : s.size i = (s.inode i).size.toNat := rfl
        omega)
      rw [hgrown] at hmoves hbytes
      have ha' : a' = (s.inode i).addrs := by
        rw [← haddrs, ← addrs_of_own (i := i) hfull hmoves.full hmoves.places hmoves.indirect, Function.update_self]
      rw [ha'] at hok hmoves hbytes
      obtain ⟨hgood, hfiles⟩ := h.change hi (s.inode i) hmoves.sound hsb (h.inum i) hmoves.full hmoves.others (fun j hj => by
        rw [hlow j hj]
        by_cases hji : j = i
        · rw [if_pos hji, hji, h.synced i hi]
        · rw [if_neg hji])
      refine ⟨d', s.inode i, ?_, hsb, hgood, ?_⟩
      · rw [hloop, hok, ok_bind]
        exact if_neg hgrow
      · rw [hfiles, data_write src n hoff (max_eq_left (by omega)).symm fun k hk => ?_]
        · rfl
        · have hkb : k < nblocks (s.size i) * BSIZE := hk.trans_le le_nblocks
          rw [hbytes k hkb, if_pos hkb]
          rfl
  · refine .inr ⟨⟨_, by rw [hloop, herror, error_bind]⟩, ?_⟩
    by_cases hgrow : 0 < n ∧ (s.inode i).size.toNat < off + n
    · unfold Kernel.size at hfree
      rw [grown_nblocks hgrow.1 hgrow.2] at hfree
      rw [max_eq_right hgrow.2.le]
      exact hfree
    · unfold Kernel.size at hfree
      rw [grown_same (by omega)] at hfree
      omega

/-- A write behind the end of the file, or beyond the largest one, is refused. -/
theorem writei_refused {src : ℕ → Byte} {off n : ℕ} (hdev : (s.inode i).type ≠ T_DEV)
    (hbad : (s.inode i).size.toNat < off ∨ MAXFILE * BSIZE < off + n) (hwrap : off + n < 2 ^ 32) :
    writei devsw s.disk (s.inode i) src off n = .ok (s.disk, s.inode i, none) := by
  unfold writei
  rw [if_neg hdev]
  by_cases hoff : (s.inode i).size.toNat < off
  · rw [if_pos (.inl hoff)]
  · rw [if_neg (by omega), if_pos (by omega)]

/-- A file that needs more blocks than are free does not fit. -/
theorem not_fits (h : Good s) (hi : i < s.disk.sb.ninodes) {f : File}
    (hfree : free s.disk + blocksFor (nblocks (s.inode i).size.toNat) < blocksFor (nblocks f.data.length)) :
    ¬ Spec.Fits s.disk.sb.ninodes (capacity s.disk.sb) (update s.files i f) := by
  have hmem : i ∈ Finset.range s.disk.sb.ninodes := Finset.mem_range.mpr hi
  have hadd := h.free_add
  rw [← Finset.add_sum_erase _ _ hmem] at hadd
  have hothers : ∑ j ∈ (Finset.range s.disk.sb.ninodes).erase i, blocksFor (nblocks (update s.files i f j).data.length) =
      ∑ j ∈ (Finset.range s.disk.sb.ninodes).erase i, blocksFor (nblocks (s.size j)) := by
    refine Finset.sum_congr rfl fun j hj => ?_
    obtain ⟨hji, hj⟩ := Finset.mem_erase.mp hj
    rw [Function.update_of_ne hji, files_of_lt (Finset.mem_range.mp hj), length_file]
    rfl
  unfold Spec.Fits
  rw [← Finset.add_sum_erase _ _ hmem, hothers, Function.update_self]
  have hsize : s.size i = (s.inode i).size.toNat := rfl
  rw [hsize] at hadd
  omega

theorem write_meets (h : Good s) (hi : i < s.disk.sb.ninodes) (src : ℕ → Byte) (off n : Word) : Meets devsw s (.write i src off n) := by
  have hwrap := off.isLt
  have hwrap' := n.isLt
  have hcall : ∀ {d' ip' r}, writei devsw s.disk (s.inode i) src off.toNat n.toNat = .ok (d', ip', r) →
      call devsw s (.write i src off n) = .ok (⟨d', update s.inode i ip'⟩, .count r) := fun {d' ip' r} hok => by
    unfold call dispatch
    dsimp only
    rw [hok, ok_bind, mapError_ok]
  by_cases hdev : (s.inode i).type = T_DEV
  · have hok : writei devsw s.disk (s.inode i) src off.toNat n.toNat =
        .ok (s.disk, s.inode i, (Devsw.at devsw.write (s.inode i).major).bind (· ((List.range n.toNat).map src))) := if_pos hdev
    have hspec : Spec.call devsw s.disk.sb.ninodes (capacity s.disk.sb) s.files (.write i src off n) =
        .ok (s.files, .count ((Devsw.at devsw.write (s.inode i).major).bind (· ((List.range n.toNat).map src)))) := by
      unfold Spec.call
      dsimp only
      rw [files_of_lt hi]
      exact if_pos hdev
    unfold Meets
    rw [hcall hok, hspec, Function.update_eq_self]
    exact ⟨rfl, h, rfl⟩
  have hdev' : ¬ (s.file i).type = T_DEV := hdev
  by_cases hbad : (s.inode i).size.toNat < off.toNat ∨ 2 ^ 32 ≤ off.toNat + n.toNat ∨ MAXFILE * BSIZE < off.toNat + n.toNat
  · have hok : writei devsw s.disk (s.inode i) src off.toNat n.toNat = .ok (s.disk, s.inode i, none) := by
      unfold writei
      rw [if_neg hdev]
      by_cases hbad' : (s.inode i).size.toNat < off.toNat ∨ (off.toNat + n.toNat) % 2 ^ 32 < off.toNat
      · rw [if_pos hbad']
      · rw [wraps_iff] at hbad'
        rw [if_neg (by rw [wraps_iff]; exact hbad'), if_pos (by omega)]
    have hspec : Spec.call devsw s.disk.sb.ninodes (capacity s.disk.sb) s.files (.write i src off n) = .ok (s.files, .count none) := by
      unfold Spec.call
      dsimp only
      rw [files_of_lt hi, length_file, if_neg hdev']
      exact if_pos hbad
    unfold Meets
    rw [hcall hok, hspec, Function.update_eq_self]
    exact ⟨rfl, h, rfl⟩
  · rw [not_or, not_or, not_lt, not_le, not_lt] at hbad
    obtain ⟨hoff, hsum, hmax⟩ := hbad
    have hspec : Spec.call devsw s.disk.sb.ninodes (capacity s.disk.sb) s.files (.write i src off n) =
        if Spec.Fits s.disk.sb.ninodes (capacity s.disk.sb)
            (update s.files i { s.file i with data := overwrite (s.file i).data off.toNat ((List.range n.toNat).map src) }) then
          .ok (update s.files i { s.file i with data := overwrite (s.file i).data off.toNat ((List.range n.toNat).map src) }, .count (some n.toNat))
        else .error .outOfBlocks := by
      unfold Spec.call
      dsimp only
      rw [files_of_lt hi, length_file, if_neg hdev', if_neg (by omega)]
    unfold Meets
    rw [hspec]
    rcases writei_spec devsw h hi src hdev hoff hsum hmax with ⟨d', ip', hok, hsb, hgood, hfiles⟩ | ⟨⟨l, herror⟩, hfree⟩
    · rw [hcall hok]
      have hfits := hgood.fits
      dsimp only at hfits
      rw [hsb, hfiles] at hfits
      rw [if_pos hfits, ← hfiles]
      exact ⟨rfl, hgood, hsb⟩
    · have hcall' : call devsw s (.write i src off n) = .error .outOfBlocks := by
        unfold call dispatch
        dsimp only
        rw [herror, error_bind, mapError_error]
      have hfits : ¬ Spec.Fits s.disk.sb.ninodes (capacity s.disk.sb)
          (update s.files i { s.file i with data := overwrite (s.file i).data off.toNat ((List.range n.toNat).map src) }) := by
        refine not_fits h hi ?_
        dsimp only
        rw [← data_write src n.toNat hoff rfl fun k _ => rfl, List.length_map, List.length_range]
        exact hfree
      rw [hcall', if_neg hfits]
      exact ⟨rfl, trivial⟩

/-- **Every call does what the files' specification says.** -/
theorem call_spec (h : Good s) {c : Call} (hc : c.inum < s.disk.sb.ninodes) : Meets devsw s c := by
  cases c with
  | read i off n => exact read_meets devsw h hc off n
  | write i src off n => exact write_meets devsw h hc src off n
  | trunc i => exact trunc_meets devsw h hc

/-- No device. -/
def noDevices : Devsw := ⟨fun _ => none, fun _ => none⟩

/-- A write, a read over its end and `itrunc`. -/
def threeCalls : List Call := [.write 1 (fun _ => 65) 0 600, .read 1 599 10, .trunc 1]

theorem threeCalls_inum : ∀ c ∈ threeCalls, c.inum < (Kernel.start emptyDisk).disk.sb.ninodes := by
  intro c hc
  simp only [threeCalls, List.mem_cons, List.not_mem_nil, or_false] at hc
  rcases hc with rfl | rfl | rfl <;> decide

/-- So does every call of a session. -/
theorem step_spec {sb : Superblock} {r : Kernel × List Reply} (h : Good r.1 ∧ r.1.disk.sb = sb) {c : Call} (hc : c.inum < sb.ninodes) :
    (step devsw r c).map (fun r => (r.1.files, r.2)) = Spec.step devsw sb.ninodes (capacity sb) (r.1.files, r.2) c ∧
      Sat (fun r => Good r.1 ∧ r.1.disk.sb = sb) (· = .outOfBlocks) (step devsw r c) := by
  obtain ⟨hgood, rfl⟩ := h
  obtain ⟨hmap, hsat⟩ := call_spec devsw hgood hc
  unfold step Spec.step
  dsimp only
  rw [← hmap]
  cases hcall : call devsw r.1 c with
  | ok r' =>
    rw [hcall] at hsat
    exact ⟨rfl, hsat⟩
  | error x =>
    refine ⟨rfl, ?_⟩
    rw [hcall] at hmap
    -- The files' specification has one panic only.
    cases c with
    | read i off n =>
      unfold Spec.call at hmap
      dsimp only at hmap
      split_ifs at hmap <;> cases hmap
    | write i src off n =>
      unfold Spec.call at hmap
      dsimp only at hmap
      split_ifs at hmap <;> cases hmap
      rfl
    | trunc i => cases hmap

/-- All that the calls reach is good. -/
theorem run_good (h : Good s) {cs : List Call} (hcs : ∀ c ∈ cs, c.inum < s.disk.sb.ninodes) :
    Sat (fun r => Good r.1 ∧ r.1.disk.sb = s.disk.sb) (· = .outOfBlocks) (run (step devsw) (s, []) cs) :=
  Run.run_sat (P := fun _ c => c.inum < s.disk.sb.ninodes) (fun _ _ hr hc => (step_spec devsw hr hc).2) cs ⟨h, rfl⟩ (Run.along_of_mem hcs)

/-- **A read writes nothing**, wherever the calls have come to: `fileread` needs no transaction. -/
theorem read_writes_nothing (s : Kernel) (h : Good s) (cs : List Call) (hcs : ∀ c ∈ cs, c.inum < s.disk.sb.ninodes) :
    Sat (fun r => ∀ i < s.disk.sb.ninodes, ∀ off n, ∃ reply, call devsw r.1 (.read i off n) = .ok (r.1, reply)) (· = .outOfBlocks)
      (run (step devsw) (s, []) cs) := by
  refine (run_good devsw h hcs).mono (fun r hr i hi off n => ?_) fun _ => id
  obtain ⟨reply, hok, -⟩ := readi_spec devsw hr.1 (hr.2.symm ▸ hi) off n
  refine ⟨.bytes reply, ?_⟩
  unfold call dispatch
  dsimp only
  rw [hok, ok_bind]
  dsimp only
  rw [Function.update_eq_self, mapError_ok]

theorem read_writes_nothing_mkfs : Sat (fun r => ∀ i < mkfsSb.ninodes, ∀ off n, ∃ reply, call noDevices r.1 (.read i off n) = .ok (r.1, reply))
    (· = .outOfBlocks) (run (step noDevices) (Kernel.start emptyDisk, []) threeCalls) :=
  read_writes_nothing noDevices (Kernel.start emptyDisk) emptyDisk_good threeCalls threeCalls_inum

end calls

end Fs
end Xv6
end OsLabs
