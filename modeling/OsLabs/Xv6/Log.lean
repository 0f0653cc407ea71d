/-
# The log

`log.c`: the blocks that file system calls have changed stay in their buffers until no call is under way, and go to the disk as
one transaction. `write_log` copies them to the log, `write_head` commits, `install_trans` brings them home, and a second
`write_head` erases the transaction. After a crash `recover_from_log` does the last two again.

The machine takes one step for each `bwrite`, and power may fail between any two. A process is in a file system call or not;
`calls` also has the blocks it has given to `log_write`, which nobody reads. `begin_op` makes one pass of its loop; that it has to
sleep shows in that nothing changes.

Key definitions: `State`, `step`, `recovered`.
-/
import OsLabs.Lib.Patch
import OsLabs.Lib.Run
import OsLabs.Lib.Threads
import OsLabs.Xv6.Block

namespace OsLabs
namespace Xv6
namespace Log

open Function (update)

/-- The number of blocks that a file system call may write. -/
abbrev MAXOPBLOCKS : ℕ := 10

abbrev LOGSIZE : ℕ := MAXOPBLOCKS * 3

/-- `log.start` and `log.size`, as the super block has them. -/
structure Area where
  start : ℕ
  size : ℕ

/-- The block that has the `tail`th block of the transaction. -/
def Area.slot (a : Area) (tail : ℕ) : ℕ := a.start + tail + 1

inductive Panic
  /-- `too big a transaction`. -/
  | tooBig
  /-- `log_write outside of trans`. -/
  | outside
  /-- `log.committing`. -/
  | committing
  /-- `read_head` leaves `log.lh.block`. -/
  | bounds
  deriving DecidableEq, Repr

/-- Where the process is that commits, or that recovers at boot. -/
inductive Pc
  | idle
  | writeLog (tail : ℕ)
  | writeHead
  | installTrans (recovering : Bool) (tail : ℕ)
  | eraseHead (recovering : Bool)
  | committed
  | readHead
  deriving DecidableEq, Repr

/-- Before the first file system call. -/
def Pc.recovering : Pc → Bool
  | .installTrans r _ => r
  | .eraseHead r => r
  | .readHead => true
  | _ => false

structure State (ι : Type) where
  store : Store
  outstanding : ℕ
  committing : Bool
  /-- `log.lh.block`, up to `log.lh.n`. -/
  lh : List ℕ
  pc : Pc
  calls : ι → Option (Finset ℕ)

/-- Power is back. -/
def State.boot {ι : Type} (disk : ℕ → Block) : State ι := ⟨.boot disk, 0, false, [], .readHead, fun _ => none⟩

inductive Event (ι : Type)
  | beginOp (i : ι)
  /-- The buffer of block `b` has the contents `v` now. -/
  | logWrite (i : ι) (b : ℕ) (v : Block)
  | endOp (i : ι)
  /-- The next step of `commit` or of `recover_from_log`. -/
  | disk
  | crash

/-! ### The header -/

/-- The loop of `write_head`. -/
def putBlocks : ℕ → List ℕ → Block → Block
  | _, [], h => h
  | i, b :: bs, h => putBlocks (i + 1) bs (setWord h (1 + i) (BitVec.ofNat 32 b))

/-- The header with the blocks `lh`, over what was there. -/
def putHead (lh : List ℕ) (h : Block) : Block := putBlocks 0 lh (setWord h 0 (BitVec.ofNat 32 lh.length))

/-- `read_head`; `n` is an `int`. -/
def getHead (h : Block) : Except Panic (List ℕ) :=
  let n := (getWord h 0).toInt
  if n ≤ LOGSIZE then .ok ((List.range n.toNat).map fun i => (getWord h (1 + i)).toNat) else .error .bounds

/-! ### The steps -/

variable {ι : Type} [DecidableEq ι]

/-- One pass of `begin_op`'s loop. -/
def beginOp (s : State ι) (i : ι) : State ι :=
  if s.committing then s
  else if s.lh.length + (s.outstanding + 1) * MAXOPBLOCKS > LOGSIZE then s
  else { s with outstanding := s.outstanding + 1, calls := update s.calls i (some ∅) }

def logWrite (a : Area) (s : State ι) (i : ι) (bs : Finset ℕ) (b : ℕ) (v : Block) : Except Panic (State ι) :=
  if s.lh.length ≥ LOGSIZE ∨ s.lh.length ≥ a.size - 1 then .error .tooBig
  else if s.outstanding < 1 then .error .outside
  else .ok { s with
    lh := if b ∈ s.lh then s.lh else s.lh ++ [b]
    store := s.store.pin b v
    calls := update s.calls i (some (insert b bs)) }

/-- `end_op`, up to the call of `commit`, and the test there. -/
def endOp (s : State ι) (i : ι) : Except Panic (State ι) :=
  if s.committing then .error .committing
  else
    let s := { s with outstanding := s.outstanding - 1, calls := update s.calls i none }
    if s.outstanding = 0 then
      .ok { s with committing := true, pc := if 0 < s.lh.length then .writeLog 0 else .committed }
    else .ok s

/-- `write_head`. -/
def writeHead (a : Area) (s : State ι) : Store := s.store.bwrite a.start (putHead s.lh (s.store.bread a.start))

/-- The body of the loop of `write_log`. -/
def writeLogBody (a : Area) (s : State ι) (tail : ℕ) : Store :=
  s.store.bwrite (a.slot tail) (s.store.bread (s.lh.getD tail 0))

/-- The body of the loop of `install_trans`. -/
def installTransBody (a : Area) (s : State ι) (tail : ℕ) : Store :=
  s.store.bwrite (s.lh.getD tail 0) (s.store.bread (a.slot tail))

/-- The next step of the process that commits or recovers. -/
def diskStep (a : Area) (s : State ι) : Except Panic (State ι) :=
  match s.pc with
  | .idle => .ok s
  | .writeLog tail =>
    if tail < s.lh.length then .ok { s with store := writeLogBody a s tail, pc := .writeLog (tail + 1) }
    else .ok { s with pc := .writeHead }
  | .writeHead => .ok { s with store := writeHead a s, pc := .installTrans false 0 }
  | .installTrans r tail =>
    if tail < s.lh.length then .ok { s with store := installTransBody a s tail, pc := .installTrans r (tail + 1) }
    else .ok { s with lh := [], pc := .eraseHead r }
  | .eraseHead r => .ok { s with store := writeHead a s, pc := if r then .idle else .committed }
  | .committed => .ok { s with committing := false, pc := .idle }
  | .readHead => (getHead (s.store.bread a.start)).map fun lh => { s with lh := lh, pc := .installTrans true 0 }

/-- A process that is not in a call cannot end it, and none runs before the recovery is over. -/
def step (a : Area) (s : State ι) : Event ι → Except Panic (State ι)
  | .beginOp i => .ok (if s.pc.recovering ∨ (s.calls i).isSome then s else beginOp s i)
  | .logWrite i b v =>
    match s.calls i with
    | none => .ok s
    | some bs => logWrite a s i bs b v
  | .endOp i => if (s.calls i).isSome then endOp s i else .ok s
  | .disk => diskStep a s
  | .crash => .ok (.boot s.store.disk)

theorem step_logWrite {a : Area} {s : State ι} {i : ι} {bs : Finset ℕ} {b : ℕ} {v : Block} (h : s.calls i = some bs) :
    step a s (.logWrite i b v) = logWrite a s i bs b v := by simp [step, h]

theorem step_logWrite_none {a : Area} {s : State ι} {i : ι} {b : ℕ} {v : Block} (h : s.calls i = none) :
    step a s (.logWrite i b v) = .ok s := by simp [step, h]

/-! ### What a recovery makes of a disk -/

/-- The transaction on the disk: the blocks of the header with what the log has for them. -/
def logged (a : Area) (disk : ℕ → Block) (lh : List ℕ) : List (ℕ × Block) :=
  lh.zipIdx.map fun p => (p.1, disk (a.slot p.2))

/-- The blocks after `recover_from_log`, if the header can be read. -/
def recovered (a : Area) (disk : ℕ → Block) : ℕ → Block :=
  match getHead (disk a.start) with
  | .ok lh => Patch.patch disk (logged a disk lh)
  | .error _ => disk

end Log
end Xv6
end OsLabs
