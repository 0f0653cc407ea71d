/-
# What a write gives to the log

`filewrite` cuts a write into pieces of three blocks, each a transaction of its own. `begin_op` reserves `MAXOPBLOCKS` blocks of the log for
it, and that is what `writei` needs at the most, however the piece lies in the file: with the inode and the indirect block, the blocks of the map
for it and for at most three new blocks, and four blocks of data if it is not aligned, the first of which is not new as the file has no holes.
A transaction that gives no more blocks than there is room for does not panic in `log_write`, so that calls which are transactions of their
own and write a piece at the most show lists of bytes (`files_refine`), without a block shared or lost (`map_exact`).

The pieces together are one write. If the file would become too large, it ends with the last piece that goes into it whole, and `filewrite`
gives `-1` although it has written the pieces before.

Key definitions: `filewriteMax`, `transact`, `Roomy`, `filewriteLoop`, `filewrite`, `accepted`.
Key theorems: `write_fits_log`, `files_refine`, `map_exact`, `filewrite_overwrites`.
-/
import OsLabs.Xv6.Commit
import OsLabs.Xv6.File

namespace OsLabs
namespace Xv6
namespace Fs

open Function (update)
open Files (overwrite overwrite_nil overwrite_append)
open Run (run Sat)
open Log (MAXOPBLOCKS LOGSIZE)

/-- `max` of `filewrite`: i-node, indirect block, allocation blocks, and 2 blocks of slop for non-aligned writes. -/
def filewriteMax : ℕ := ((MAXOPBLOCKS - 1 - 1 - 2) / 2) * 512

/-- The blocks given to `log_write` are those of the bytes, those of the map for the new ones, and the indirect block with its own. -/
theorem Moves.card_logged {i off n nb nb' : ℕ} {T : ℕ → Prop} {d d' : Disk} {A A' : ℕ → Addrs} (h : Moves i T nb nb' d d' A A')
    (hT : ∀ p, T p → Spans off n p) :
    ∃ l, d'.logged = l ++ d.logged ∧
      l.toFinset.card ≤ ((off + n + (BSIZE - 1)) / BSIZE - off / BSIZE) + (nb' - nb) + 2 := by
  obtain ⟨l, hl, hmem⟩ := h.logged
  refine ⟨l, hl, ?_⟩
  have hsub : l.toFinset ⊆ ((Finset.Ico (off / BSIZE) ((off + n + (BSIZE - 1)) / BSIZE)).image fun p => own d'.blocks A' (i, p)) ∪
      ((Finset.Ico nb nb').image fun p => BBLOCK (own d'.blocks A' (i, p)) d.sb) ∪
      {own d'.blocks A' (i, MAXFILE), BBLOCK (own d'.blocks A' (i, MAXFILE)) d.sb} := by
    intro c hc
    simp only [Finset.mem_union, Finset.mem_image, Finset.mem_Ico, Finset.mem_insert, Finset.mem_singleton]
    rcases hmem c (List.mem_toFinset.mp hc) with ⟨p, hp, rfl⟩ | ⟨p, hlo, hhi, rfl⟩ | ⟨-, hind⟩
    · obtain ⟨hlo, hlt⟩ := hT p hp
      refine .inl (.inl ⟨p, ⟨hlo, ?_⟩, rfl⟩)
      unfold BSIZE at hlt ⊢
      omega
    · exact .inl (.inr ⟨p, ⟨hlo, hhi⟩, rfl⟩)
    · exact .inr hind
  calc l.toFinset.card
      ≤ _ := Finset.card_le_card hsub
    _ ≤ _ + _ := Finset.card_union_le ..
    _ ≤ (_ + _) + 2 := Nat.add_le_add (Finset.card_union_le ..) Finset.card_le_two
    _ ≤ _ := by
      refine Nat.add_le_add_right (Nat.add_le_add ?_ ?_) 2
      · exact Finset.card_image_le.trans (Nat.card_Ico ..).le
      · exact Finset.card_image_le.trans (Nat.card_Ico ..).le

/-- Four blocks of data and three new ones, the first of the four being old, or three and three. -/
theorem pieces_le {off n size : ℕ} (hoff : off ≤ size) (hn : n ≤ filewriteMax) :
    ((off + n + (BSIZE - 1)) / BSIZE - off / BSIZE) + (grown (nblocks size) off n - nblocks size) + 2 + 1 ≤ MAXOPBLOCKS := by
  have hmax : filewriteMax = 1536 := rfl
  have hops : MAXOPBLOCKS = 10 := rfl
  rw [hmax] at hn
  rw [hops]
  unfold grown nblocks BSIZE
  split_ifs <;> omega

/-- No more than `MAXOPBLOCKS` blocks were given to `log_write` since the disk was `d`. -/
def FewLogged (d : Disk) (logged : List ℕ) : Prop := ∃ l, logged = l ++ d.logged ∧ l.toFinset.card ≤ MAXOPBLOCKS

section calls

variable {s : Kernel} {i : ℕ} (devsw : Devsw)

/-- Also when there is no block left on the way. -/
theorem writei_logged (h : Good s) (hi : i < s.disk.sb.ninodes) (src : ℕ → Byte) (off : ℕ) {n : ℕ} (hn : n ≤ filewriteMax) :
    Sat (fun r => FewLogged s.disk r.1.logged) (fun x => FewLogged s.disk x.logged) (writei devsw s.disk (s.inode i) src off n) := by
  have hnone : FewLogged s.disk s.disk.logged := ⟨[], rfl, Nat.zero_le _⟩
  unfold writei
  by_cases hdev : (s.inode i).type = T_DEV
  · rw [if_pos hdev]
    exact hnone
  rw [if_neg hdev]
  by_cases hbad : (s.inode i).size.toNat < off ∨ (off + n) % 2 ^ 32 < off
  · rw [if_pos hbad]
    exact hnone
  rw [if_neg hbad]
  by_cases hmax : MAXFILE * BSIZE < off + n
  · rw [if_pos hmax]
    exact hnone
  rw [if_neg hmax]
  have hoff : off ≤ (s.inode i).size.toNat := not_lt.mp fun hlt => hbad (.inl hlt)
  have hle := pieces_le hoff hn
  have hsize : s.size i = (s.inode i).size.toNat := rfl
  rcases writeLoop_spec n (s.inode i) src h.sound (Good.addrs_eq s hi) (h.full i hi) (hoff.trans le_nblocks) (not_lt.mp hmax) with
    ⟨d', a', hok, hmoves, -⟩ | ⟨⟨d', A', n', l', hmoves, hn', hl', herror⟩, -⟩
  · obtain ⟨l, hl, hcard⟩ := hmoves.card_logged fun _ hp => hp
    rw [hsize] at hcard
    rw [hok, ok_bind]
    dsimp only
    split_ifs
    · refine ⟨_ :: l, congrArg (List.cons _) hl, ?_⟩
      rw [List.toFinset_cons]
      exact (Finset.card_insert_le ..).trans (by omega)
    · exact ⟨l, hl, by omega⟩
  · -- One block less, and `bmap` may have gone half its way.
    obtain ⟨l, hl, hcard⟩ := hmoves.card_logged fun _ hp => hp.1
    have hgrows := hmoves.grows
    rw [hsize] at hcard hn' hgrows
    rw [herror, error_bind]
    refine ⟨l' ++ l, by rw [hl, List.append_assoc], ?_⟩
    rw [List.toFinset_append]
    have hcard' : l'.toFinset.card ≤ 2 := (List.toFinset_card_le l').trans hl'
    exact (Finset.card_union_le ..).trans (by omega)

/-- **A piece of `filewrite` fits into its transaction.** Wherever the calls have come to, a write of no more than `filewriteMax` bytes gives
no more than `MAXOPBLOCKS` blocks to the log. -/
theorem write_fits_log (s : Kernel) (h : Good s) (cs : List Call) (hcs : ∀ c ∈ cs, c.inum < s.disk.sb.ninodes) :
    Sat (fun r => ∀ i < s.disk.sb.ninodes, ∀ src off n, n.toNat ≤ filewriteMax →
        Sat (fun r' => ∃ l, r'.1.disk.logged = l ++ r.1.disk.logged ∧ l.toFinset.card ≤ MAXOPBLOCKS) (fun _ => True)
          (call devsw r.1 (.write i src off n)))
      (· = .outOfBlocks) (run (step devsw) (s, []) cs) := by
  refine (run_good devsw h hcs).mono (fun r hr i hi src off n hn => ?_) fun _ => id
  have hlogged := writei_logged devsw hr.1 (hr.2.symm ▸ hi) src off.toNat hn
  unfold call dispatch
  dsimp only
  cases hw : writei devsw r.1.disk (r.1.inode i) src off.toNat n.toNat with
  | error x => trivial
  | ok w =>
    rw [hw] at hlogged
    exact hlogged

theorem write_fits_log_mkfs : Sat (fun r => ∀ i < mkfsSb.ninodes, ∀ src off n, n.toNat ≤ filewriteMax →
      Sat (fun r' => ∃ l, r'.1.disk.logged = l ++ r.1.disk.logged ∧ l.toFinset.card ≤ MAXOPBLOCKS) (fun _ => True)
        (call noDevices r.1 (.write i src off n)))
    (· = .outOfBlocks) (run (step noDevices) (Kernel.start emptyDisk, []) threeCalls) :=
  write_fits_log noDevices (Kernel.start emptyDisk) emptyDisk_good threeCalls threeCalls_inum

end calls

/-! ### A call in a transaction of its own -/

/-- What the disk of the files is to the log: when `log_write` takes a block, the buffers come to hold what the disk has then. -/
theorem Disk.logWrite_bread {ι : Type} [DecidableEq ι] {a : Log.Area} {t t' : Log.State ι} {i : ι} {bs : Finset ℕ} {d : Disk} {b : ℕ} {v : Block}
    (h : t.store.bread = d.blocks) (hok : Log.logWrite a t i bs b v = .ok t') : t'.store.bread = (d.logWrite b v).blocks := by
  obtain ⟨-, -, -, rfl⟩ := Log.logWrite_ok hok
  rw [Store.pin_bread, h]
  rfl

/-- `log_write` for the blocks `bs`, one after another. Its panics depend on the numbers of the blocks, not on what is in them. -/
def logWrites (a : Log.Area) (t : Log.State Unit) (bs : List ℕ) : Except Log.Panic (Log.State Unit) :=
  bs.foldlM (fun t b => Log.logWrite a t () ∅ b fun _ => 0) t

/-- The log when no transaction is under way. -/
def idleLog (blocks : ℕ → Block) : Log.State Unit := { Log.State.boot blocks with pc := .idle }

/-- `begin_op`, the call and `end_op`, of which nobody else is between the two: the first panic is the one that comes. -/
def transact (devsw : Devsw) (s : Kernel) (c : Call) : Except Panic (Kernel × Reply) :=
  let a : Log.Area := ⟨s.disk.sb.logstart, s.disk.sb.nlog⟩
  let t := Log.beginOp (idleLog s.disk.blocks) ()
  match dispatch devsw { s with disk := { s.disk with logged := [] } } c with
  | .ok r => do
    let _ ← (logWrites a t r.1.disk.logged.reverse).mapError .log
    .ok r
  | .error x => do
    let _ ← (logWrites a t x.logged.reverse).mapError .log
    .error x.panic

/-- A transaction in a session, which keeps the replies. -/
def session (devsw : Devsw) (s : Kernel × List Reply) (c : Call) : Except Panic (Kernel × List Reply) := do
  let r ← transact devsw s.1 c
  .ok (r.1, s.2 ++ [r.2])

/-- The log has room for what a call may write, and for the whole map with an inode: more than `log_write` ever finds used. -/
structure Roomy (sb : Superblock) : Prop where
  ops : MAXOPBLOCKS < min LOGSIZE (sb.nlog - 1)
  map : sb.size / BPB + 2 < min LOGSIZE (sb.nlog - 1)

/-- The call writes a piece of `filewrite` at the most. -/
def Call.Piece : Call → Prop
  | .write _ _ _ n => n.toNat ≤ filewriteMax
  | _ => True

/-- While the blocks are fewer than there is room for, `log_write` takes them. -/
theorem logWrites_ok {a : Log.Area} : ∀ (bs : List ℕ) {t : Log.State Unit}, 1 ≤ t.outstanding → t.lh.Nodup →
    (t.lh.toFinset ∪ bs.toFinset).card < min LOGSIZE (a.size - 1) → ∃ t', logWrites a t bs = .ok t'
  | [], t, _, _, _ => ⟨t, rfl⟩
  | b :: bs, t, hop, hnodup, hroom => by
    have hlen : t.lh.length < min LOGSIZE (a.size - 1) := by
      rw [← List.toFinset_card_of_nodup hnodup]
      exact (Finset.card_le_card Finset.subset_union_left).trans_lt hroom
    rw [lt_min_iff] at hlen
    have hok : Log.logWrite a t () ∅ b (fun _ => 0) = .ok { t with
        lh := if b ∈ t.lh then t.lh else t.lh ++ [b]
        store := t.store.pin b fun _ => 0
        calls := update t.calls () (some (insert b ∅)) } := by
      unfold Log.logWrite
      rw [if_neg (by omega), if_neg (by omega)]
    have hnodup' : (if b ∈ t.lh then t.lh else t.lh ++ [b]).Nodup := by
      split_ifs with hmem
      · exact hnodup
      · exact hnodup.concat hmem |> (by rwa [List.concat_eq_append] at ·)
    have hset : (if b ∈ t.lh then t.lh else t.lh ++ [b]).toFinset ∪ bs.toFinset = t.lh.toFinset ∪ (b :: bs).toFinset := by
      ext c
      split_ifs with hmem
      · simp only [Finset.mem_union, List.mem_toFinset, List.mem_cons]
        constructor
        · exact fun hc => hc.imp_right .inr
        · rintro (hc | rfl | hc)
          · exact .inl hc
          · exact .inl hmem
          · exact .inr hc
      · simp only [Finset.mem_union, List.mem_toFinset, List.mem_append, List.mem_cons, List.not_mem_nil, or_false, or_assoc]
    obtain ⟨t', ht'⟩ := logWrites_ok (a := a) bs (t := { t with
        lh := if b ∈ t.lh then t.lh else t.lh ++ [b]
        store := t.store.pin b fun _ => 0
        calls := update t.calls () (some (insert b ∅)) }) hop hnodup' (hset ▸ hroom)
    refine ⟨t', ?_⟩
    unfold logWrites at ht' ⊢
    rw [List.foldlM_cons, hok]
    exact ht'

section transact

variable {s : Kernel} (devsw : Devsw)

theorem trunc_logged (h : Good s) {i : ℕ} (hi : i < s.disk.sb.ninodes) (hstart : s.disk.logged = []) :
    ∃ r, dispatch devsw s (.trunc i) = .ok r ∧ r.1.disk.logged.toFinset.card ≤ s.disk.sb.size / BPB + 2 := by
  obtain ⟨d', hok, hmap, -⟩ := itrunc_spec h.sound (Good.addrs_eq s hi)
  obtain ⟨l, hl, hmem⟩ := hmap.logged
  rw [hstart, List.append_nil] at hl
  refine ⟨_, by unfold dispatch; dsimp only; rw [hok, ok_bind], ?_⟩
  have hlogged : (iupdate d' { s.inode i with size := 0, addrs := fun _ => 0 }).logged = IBLOCK (s.inode i).inum d'.sb :: l :=
    congrArg (List.cons _) hl
  dsimp only
  rw [hlogged, List.toFinset_cons]
  have hsub : l.toFinset ⊆ Finset.Ico s.disk.sb.bmapstart (nmeta s.disk.sb) := fun c hc =>
    Finset.mem_Ico.mpr (hmem c (List.mem_toFinset.mp hc))
  have hcard := Finset.card_le_card hsub
  have hinsert := Finset.card_insert_le (IBLOCK (s.inode i).inum d'.sb) l.toFinset
  rw [Nat.card_Ico] at hcard
  unfold nmeta at hcard
  generalize s.disk.sb.size / BPB = q at hcard ⊢
  omega

/-- What a call in a transaction gives to the log. -/
theorem dispatch_logged (h : Good s) (hroom : Roomy s.disk.sb) {c : Call} (hc : c.inum < s.disk.sb.ninodes) (hpiece : c.Piece)
    (hstart : s.disk.logged = []) :
    Sat (fun r => r.1.disk.logged.toFinset.card < min LOGSIZE (s.disk.sb.nlog - 1))
      (fun x => x.logged.toFinset.card < min LOGSIZE (s.disk.sb.nlog - 1)) (dispatch devsw s c) := by
  have hops := hroom.ops
  cases c with
  | read i off n =>
    obtain ⟨r, hok, -⟩ := readi_spec devsw h (i := i) hc off n
    unfold dispatch
    dsimp only
    rw [hok, ok_bind]
    show s.disk.logged.toFinset.card < _
    rw [hstart]
    exact (Nat.zero_le _).trans_lt hops
  | write i src off n =>
    have hlogged := writei_logged devsw h (i := i) hc src off.toNat hpiece
    have hfew : ∀ {l}, FewLogged s.disk l → l.toFinset.card < min LOGSIZE (s.disk.sb.nlog - 1) := fun hl => by
      obtain ⟨l', hl', hcard⟩ := hl
      rw [hl', hstart, List.append_nil]
      exact hcard.trans_lt hops
    unfold dispatch
    dsimp only
    cases hw : writei devsw s.disk (s.inode i) src off.toNat n.toNat with
    | error x =>
      rw [hw] at hlogged
      exact hfew hlogged
    | ok w =>
      rw [hw] at hlogged
      exact hfew hlogged
  | trunc i =>
    obtain ⟨r, hok, hcard⟩ := trunc_logged devsw h (i := i) hc hstart
    rw [hok]
    exact hcard.trans_lt hroom.map

/-- **A transaction of its own.** `log_write` does not panic, and so the call does what it does under a log that takes every block. -/
theorem transact_eq (h : Good s) (hroom : Roomy s.disk.sb) {c : Call} (hc : c.inum < s.disk.sb.ninodes) (hpiece : c.Piece) :
    transact devsw s c = call devsw { s with disk := { s.disk with logged := [] } } c := by
  have hgood : Good { s with disk := { s.disk with logged := [] } } :=
    ⟨⟨h.sound.sb, h.sound.layout, h.sound.reserved, h.sound.owners⟩, h.full, h.synced, h.inum⟩
  have hlogged := dispatch_logged devsw hgood hroom hc hpiece rfl
  have htakes : ∀ bs : List ℕ, bs.toFinset.card < min LOGSIZE (s.disk.sb.nlog - 1) →
      ∃ t, logWrites ⟨s.disk.sb.logstart, s.disk.sb.nlog⟩ (Log.beginOp (idleLog s.disk.blocks) ()) bs.reverse = .ok t := fun bs hbs => by
    refine logWrites_ok bs.reverse (le_refl 1) List.nodup_nil ?_
    show (([] : List ℕ).toFinset ∪ bs.reverse.toFinset).card < _
    rw [List.toFinset_nil, Finset.empty_union, List.toFinset_reverse]
    exact hbs
  unfold transact call
  cases hd : dispatch devsw { s with disk := { s.disk with logged := [] } } c with
  | ok r =>
    rw [hd] at hlogged
    obtain ⟨t, ht⟩ := htakes _ hlogged
    dsimp only
    rw [ht, mapError_ok, ok_bind, mapError_ok]
  | error x =>
    rw [hd] at hlogged
    obtain ⟨t, ht⟩ := htakes _ hlogged
    dsimp only
    rw [ht, mapError_ok, ok_bind, mapError_error]

/-- A transaction does what the files' specification says. -/
theorem session_spec {sb : Superblock} (hroom : Roomy sb) {r : Kernel × List Reply} (h : Good r.1 ∧ r.1.disk.sb = sb) {c : Call}
    (hc : c.inum < sb.ninodes ∧ c.Piece) :
    (session devsw r c).map (fun r => (r.1.files, r.2)) = Spec.step devsw sb.ninodes (capacity sb) (r.1.files, r.2) c ∧
      Sat (fun r => Good r.1 ∧ r.1.disk.sb = sb) (· = .outOfBlocks) (session devsw r c) := by
  obtain ⟨hgood, rfl⟩ := h
  have hgood' : Good { r.1 with disk := { r.1.disk with logged := [] } } :=
    ⟨⟨hgood.sound.sb, hgood.sound.layout, hgood.sound.reserved, hgood.sound.owners⟩, hgood.full, hgood.synced, hgood.inum⟩
  have hstep := step_spec devsw (r := ({ r.1 with disk := { r.1.disk with logged := [] } }, r.2)) ⟨hgood', rfl⟩ hc.1
  unfold session
  rw [transact_eq devsw hgood hroom hc.1 hc.2]
  exact hstep

/-- **Files are lists of bytes.** Whatever is called for whichever inodes in whichever order, each call in a transaction and no write longer
than a piece, the replies and the contents of the files are those of the lists of bytes, and a call panics exactly where the files would need
more blocks than the disk has. -/
theorem files_refine (s : Kernel) (h : Good s) (hroom : Roomy s.disk.sb) (cs : List Call)
    (hcs : ∀ c ∈ cs, c.inum < s.disk.sb.ninodes ∧ c.Piece) :
    (run (session devsw) (s, []) cs).map (fun r => (r.1.files, r.2)) =
      run (Spec.step devsw s.disk.sb.ninodes (capacity s.disk.sb)) (s.files, []) cs := by
  have hstep : ∀ (r : Kernel × List Reply) (c : Call), Good r.1 ∧ r.1.disk.sb = s.disk.sb → c.inum < s.disk.sb.ninodes ∧ c.Piece →
      (session devsw r c).map (fun r => (r.1.files, r.2)) = Spec.step devsw s.disk.sb.ninodes (capacity s.disk.sb) (r.1.files, r.2) c ∧
        Sat (fun r => Good r.1 ∧ r.1.disk.sb = s.disk.sb) (fun _ => True) (session devsw r c) := fun r c hr hc => by
    obtain ⟨hmap, hsat⟩ := session_spec devsw hroom hr hc
    exact ⟨hmap, hsat.mono (fun _ h => h) fun _ _ => trivial⟩
  exact (Simulation.run_map (f := fun r : Kernel × List Reply => (r.1.files, r.2)) hstep cs ⟨h, rfl⟩ hcs).1

theorem mkfs_roomy : Roomy (Kernel.start emptyDisk).disk.sb := ⟨by decide, by decide⟩

theorem threeCalls_piece : ∀ c ∈ threeCalls, c.inum < (Kernel.start emptyDisk).disk.sb.ninodes ∧ c.Piece := by
  intro c hc
  simp only [threeCalls, List.mem_cons, List.not_mem_nil, or_false] at hc
  rcases hc with rfl | rfl | rfl
  · have hpiece : (600 : Word).toNat ≤ filewriteMax := by decide
    exact ⟨by decide, hpiece⟩
  · exact ⟨by decide, trivial⟩
  · exact ⟨by decide, trivial⟩

theorem files_refine_mkfs : (run (session noDevices) (Kernel.start emptyDisk, []) threeCalls).map (fun r => (r.1.files, r.2)) =
    run (Spec.step noDevices mkfsSb.ninodes (capacity mkfsSb)) ((Kernel.start emptyDisk).files, []) threeCalls :=
  files_refine noDevices (Kernel.start emptyDisk) emptyDisk_good mkfs_roomy threeCalls threeCalls_piece

/-- **No block is shared and none is lost.** In whatever the transactions reach, the map has a data block in use exactly if an inode has it,
at one place only; the free blocks and those of the files make up the disk; and there is no panic but for want of blocks. -/
theorem map_exact (s : Kernel) (h : Good s) (hroom : Roomy s.disk.sb) (cs : List Call)
    (hcs : ∀ c ∈ cs, c.inum < s.disk.sb.ninodes ∧ c.Piece) :
    Sat (fun r => (∀ b, Data s.disk.sb b → (r.1.disk.used b = true ↔ ∃ x, r.1.owns x = b)) ∧
        (∀ x y, r.1.owns x = r.1.owns y → r.1.owns x ≠ 0 → x = y) ∧
        free r.1.disk + ∑ i ∈ Finset.range s.disk.sb.ninodes, blocksFor (nblocks (r.1.size i)) = capacity s.disk.sb)
      (· = .outOfBlocks) (run (session devsw) (s, []) cs) := by
  have hrun : Sat (fun r => Good r.1 ∧ r.1.disk.sb = s.disk.sb) (· = .outOfBlocks) (run (session devsw) (s, []) cs) :=
    Run.run_sat (P := fun _ c => c.inum < s.disk.sb.ninodes ∧ c.Piece) (fun _ _ hr hc => (session_spec devsw hroom hr hc).2) cs ⟨h, rfl⟩
      (Run.along_of_mem hcs)
  refine hrun.mono (fun r hr => ?_) fun _ => id
  obtain ⟨hgood, hsb⟩ := hr
  have howners := hgood.sound.owners
  have hadd := hgood.free_add
  rw [hsb] at howners hadd
  exact ⟨howners.exact, howners.alone, hadd⟩

theorem map_exact_mkfs : Sat (fun r => (∀ b, Data mkfsSb b → (r.1.disk.used b = true ↔ ∃ x, r.1.owns x = b)) ∧
      (∀ x y, r.1.owns x = r.1.owns y → r.1.owns x ≠ 0 → x = y) ∧
      free r.1.disk + ∑ i ∈ Finset.range mkfsSb.ninodes, blocksFor (nblocks (r.1.size i)) = capacity mkfsSb)
    (· = .outOfBlocks) (run (session noDevices) (Kernel.start emptyDisk, []) threeCalls) :=
  map_exact noDevices (Kernel.start emptyDisk) emptyDisk_good mkfs_roomy threeCalls threeCalls_piece

end transact

/-! ### `filewrite` -/

inductive FilePanic
  | fs (x : Panic)
  /-- `short filewrite` -/
  | shortFilewrite

/-- The loop of `filewrite` for an inode: `left` is `n - i`, and it gives `f->off` and what is left in the end. -/
def filewriteLoop (devsw : Devsw) (s : Kernel) (i : ℕ) (src : ℕ → Byte) (off left : ℕ) : Except FilePanic (Kernel × ℕ × ℕ) :=
  if left = 0 then .ok (s, off, 0)
  else do
    let n1 := min left filewriteMax
    let r ← (writei devsw s.disk (s.inode i) src off n1).mapError fun x => .fs x.panic
    let s' : Kernel := ⟨r.1, update s.inode i r.2.1⟩
    if r.2.2 = none then .ok (s', off, left)
    else if r.2.2 = some n1 then filewriteLoop devsw s' i (fun k => src (n1 + k)) ((off + n1) % 2 ^ 32) (left - n1)
    else .error .shortFilewrite
termination_by left
decreasing_by
  have hpos : 0 < filewriteMax := by decide
  omega

/-- `filewrite(f, src, n)` for a file that is open on inode `i` at `off`: the new offset, and what it returns. -/
def filewrite (devsw : Devsw) (s : Kernel) (i : ℕ) (src : ℕ → Byte) (off n : ℕ) : Except FilePanic (Kernel × ℕ × Option ℕ) := do
  let r ← filewriteLoop devsw s i src off n
  .ok (r.1, r.2.1, if r.2.2 = 0 then some n else none)

/-- How much of a write of `n` bytes is written: none behind the end of the file, all of it within the largest file, and else the pieces
that are. -/
def accepted (size off n : ℕ) : ℕ :=
  if size < off then 0
  else if off + n ≤ MAXFILE * BSIZE then n
  else (MAXFILE * BSIZE - off) / filewriteMax * filewriteMax

theorem accepted_eq (size off n : ℕ) :
    accepted size off n = if size < off then 0 else if off + n ≤ 71680 then n else (71680 - off) / 1536 * 1536 := rfl

theorem accepted_le (size off n : ℕ) : accepted size off n ≤ n := by
  rw [accepted_eq]
  split_ifs <;> omega

theorem accepted_piece (size : ℕ) {off left : ℕ} (hoff : off ≤ size) (hmax : off + min left filewriteMax ≤ MAXFILE * BSIZE) :
    accepted size off left =
      min left filewriteMax + accepted (max size (off + min left filewriteMax)) (off + min left filewriteMax) (left - min left filewriteMax) := by
  replace hmax : off + min left 1536 ≤ 71680 := hmax
  rw [show filewriteMax = 1536 from rfl, accepted_eq, accepted_eq, if_neg (not_lt.mpr hoff), if_neg (not_lt.mpr (le_max_right ..))]
  split_ifs <;> omega

theorem accepted_none {size off left : ℕ} (hbad : size < off ∨ MAXFILE * BSIZE < off + min left filewriteMax) : accepted size off left = 0 := by
  replace hbad : size < off ∨ 71680 < off + min left 1536 := hbad
  rw [accepted_eq]
  split_ifs <;> omega

section filewrite

variable {s : Kernel} {i : ℕ} (devsw : Devsw)

theorem file_of_write {s s' : Kernel} {src : ℕ → Byte} {off n : ℕ} (hi : i < s'.disk.sb.ninodes) (hoff : off ≤ s.size i)
    (hfiles : s'.files = update s.files i { s.file i with data := overwrite (s.file i).data off ((List.range n).map src) }) :
    s'.file i = { s.file i with data := overwrite (s.file i).data off ((List.range n).map src) } ∧ s'.size i = max (s.size i) (off + n) := by
  have hfile : s'.file i = { s.file i with data := overwrite (s.file i).data off ((List.range n).map src) } := by
    rw [← files_of_lt hi, hfiles, Function.update_self]
  refine ⟨hfile, ?_⟩
  have hlen := congrArg (fun f => f.data.length) hfile
  dsimp only at hlen
  rw [length_file, ← data_write src n hoff rfl fun k _ => rfl, List.length_map, List.length_range] at hlen
  exact hlen

/-- **The loop of `filewrite`.** The pieces are one write of all the bytes that are accepted. -/
theorem filewriteLoop_spec : ∀ (left : ℕ) {s : Kernel} {off : ℕ} (src : ℕ → Byte), Good s → i < s.disk.sb.ninodes →
    (s.inode i).type ≠ T_DEV → off + left < 2 ^ 32 →
    (∃ s', filewriteLoop devsw s i src off left =
        .ok (s', off + accepted (s.size i) off left, left - accepted (s.size i) off left) ∧ Good s' ∧
      s'.files = update s.files i { s.file i with data := overwrite (s.file i).data off ((List.range (accepted (s.size i) off left)).map src) }) ∨
      filewriteLoop devsw s i src off left = .error (.fs .outOfBlocks) := by
  intro left
  induction left using Nat.strong_induction_on with
  | _ left ih =>
    intro s off src h hi hdev hwrap
    have hnothing : s.files = update s.files i { s.file i with data := overwrite (s.file i).data off ((List.range 0).map src) } := by
      rw [List.range_zero, List.map_nil, overwrite_nil, ← files_of_lt hi, Function.update_eq_self]
    unfold filewriteLoop
    by_cases hleft : left = 0
    · have hnone : accepted (s.size i) off left = 0 := Nat.le_zero.mp (hleft ▸ accepted_le (s.size i) off left)
      rw [if_pos hleft, hnone, hleft]
      exact .inl ⟨s, rfl, h, hnothing⟩
    rw [if_neg hleft]
    dsimp only
    have hpos : 0 < min left filewriteMax := lt_min (Nat.pos_of_ne_zero hleft) (by decide)
    have hle : min left filewriteMax ≤ left := min_le_left ..
    generalize hn1 : min left filewriteMax = n1 at hpos hle
    by_cases hbad : (s.inode i).size.toNat < off ∨ MAXFILE * BSIZE < off + n1
    · have hnone : accepted (s.size i) off left = 0 := accepted_none (hn1.symm ▸ hbad)
      rw [writei_refused devsw hdev hbad (by omega), hnone, mapError_ok, ok_bind]
      dsimp only
      rw [if_pos rfl, Function.update_eq_self]
      exact .inl ⟨s, rfl, h, hnothing⟩
    · rw [not_or, not_lt, not_lt] at hbad
      rcases writei_spec devsw h hi src hdev hbad.1 (by omega) hbad.2 with ⟨d', ip', hok, hsb, hgood, hfiles⟩ | ⟨⟨l, herror⟩, -⟩
      · rw [hok, mapError_ok, ok_bind]
        dsimp only
        rw [if_neg (Option.some_ne_none n1), if_pos rfl, Nat.mod_eq_of_lt (by omega)]
        have hpiece := accepted_piece (s.size i) hbad.1 (hn1.symm ▸ hbad.2)
        rw [hn1] at hpiece
        generalize hs₁ : (⟨d', update s.inode i ip'⟩ : Kernel) = s₁ at hgood hfiles ⊢
        have hsb₁ : s₁.disk.sb = s.disk.sb := by rw [← hs₁]; exact hsb
        have hi₁ : i < s₁.disk.sb.ninodes := hsb₁.symm ▸ hi
        obtain ⟨hfile, hsize⟩ := file_of_write hi₁ hbad.1 hfiles
        have hdev₁ : (s₁.inode i).type ≠ T_DEV := fun heq => hdev ((congrArg File.type hfile).symm.trans heq)
        have hwrap₁ : off + n1 + (left - n1) < 2 ^ 32 := by omega
        rcases ih (left - n1) (by omega) (fun k => src (n1 + k)) hgood hi₁ hdev₁ hwrap₁ with ⟨s', hok', hgood', hfiles'⟩ | herror
        · left
          rw [hsize] at hok' hfiles'
          refine ⟨s', ?_, hgood', ?_⟩
          · rw [hok', hpiece, Nat.add_assoc, Nat.sub_add_eq]
          · rw [hfiles', hfiles, Function.update_idem, hfile, hpiece]
            have hlen : ((List.range n1).map src).length = n1 := by rw [List.length_map, List.length_range]
            have hstart : off ≤ (s.file i).data.length := length_file.symm ▸ hbad.1
            have hwhole := overwrite_append (a := (List.range n1).map src) (b := (List.range (accepted (max (s.size i) (off + n1)) (off + n1)
              (left - n1))).map fun k => src (n1 + k)) hstart
            rw [hlen, map_range_append] at hwhole
            dsimp only
            rw [hwhole]
        · exact .inr herror
      · right
        rw [herror, mapError_error, error_bind]

theorem filewrite_good (h : Good s) (hi : i < s.disk.sb.ninodes) (hdev : (s.inode i).type ≠ T_DEV) (src : ℕ → Byte) {off n : ℕ}
    (hwrap : off + n < 2 ^ 32) :
    Sat (fun r => r.1.files = update s.files i
          { s.file i with data := overwrite (s.file i).data off ((List.range (accepted (s.size i) off n)).map src) } ∧
        r.2 = (off + accepted (s.size i) off n, if accepted (s.size i) off n = n then some n else none))
      (· = .fs .outOfBlocks) (filewrite devsw s i src off n) := by
  have hle := accepted_le (s.size i) off n
  unfold filewrite
  rcases filewriteLoop_spec devsw n src h hi hdev hwrap with ⟨s', hok, -, hfiles⟩ | herror
  · rw [hok, ok_bind]
    refine ⟨hfiles, Prod.ext rfl ?_⟩
    dsimp only
    by_cases hall : accepted (s.size i) off n = n
    · rw [if_pos (Nat.sub_eq_zero_of_le hall.ge), if_pos hall]
    · rw [if_neg (by omega), if_neg hall]
  · rw [herror, error_bind]
    rfl

/-- **What `filewrite` writes.** Wherever the calls have come to, a `filewrite` to a file puts the first bytes of the buffer, as many as
`accepted` says, where the offset is, moves the offset behind them, and gives `n` if these are all of them and else `-1`. There may be no block
left on the way, but no write is short. -/
theorem filewrite_overwrites (s : Kernel) (h : Good s) (cs : List Call) (hcs : ∀ c ∈ cs, c.inum < s.disk.sb.ninodes) :
    Sat (fun r => ∀ i < s.disk.sb.ninodes, (r.1.inode i).type ≠ T_DEV → ∀ src off n, off ≤ MAXFILE * BSIZE → n < 2 ^ 31 →
        Sat (fun r' => r'.1.files = update r.1.files i
              { r.1.file i with data := overwrite (r.1.file i).data off ((List.range (accepted (r.1.size i) off n)).map src) } ∧
            r'.2 = (off + accepted (r.1.size i) off n, if accepted (r.1.size i) off n = n then some n else none))
          (· = .fs .outOfBlocks) (filewrite devsw r.1 i src off n))
      (· = .outOfBlocks) (run (step devsw) (s, []) cs) := by
  refine (run_good devsw h hcs).mono (fun r hr i hi hdev src off n hoff hn => ?_) fun _ => id
  have hlargest : off ≤ 71680 := hoff
  exact filewrite_good devsw hr.1 (hr.2.symm ▸ hi) hdev src (by omega)

theorem filewrite_overwrites_mkfs :
    Sat (fun r => ∀ i < mkfsSb.ninodes, (r.1.inode i).type ≠ T_DEV → ∀ src off n, off ≤ MAXFILE * BSIZE → n < 2 ^ 31 →
        Sat (fun r' => r'.1.files = update r.1.files i
              { r.1.file i with data := overwrite (r.1.file i).data off ((List.range (accepted (r.1.size i) off n)).map src) } ∧
            r'.2 = (off + accepted (r.1.size i) off n, if accepted (r.1.size i) off n = n then some n else none))
          (· = .fs .outOfBlocks) (filewrite noDevices r.1 i src off n))
      (· = .outOfBlocks) (run (step noDevices) (Kernel.start emptyDisk, []) threeCalls) :=
  filewrite_overwrites noDevices (Kernel.start emptyDisk) emptyDisk_good threeCalls threeCalls_inum

end filewrite

end Fs
end Xv6
end OsLabs
