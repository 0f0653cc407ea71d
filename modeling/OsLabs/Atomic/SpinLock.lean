/-
# Atomic words and the spin lock

`atomic.h` and `spinlock.h`, which `rwlock` and `seqlock` share. An `int64_t` is a
word of 64 bits. Each atomic operation is one step of its thread; a loop
around one takes a step for each pass. The memory is sequentially consistent, so
that `__sync_synchronize` does nothing and has no step of its own.
-/
import OsLabs.Lib.Run
import OsLabs.Lib.Threads

namespace OsLabs
namespace Atomic

/-- An `int64_t`. -/
abbrev Word := BitVec 64

instance : NeZero (1 : Word) := ⟨by decide⟩

def atomicLoad (w : Word) : Word := w

def atomicAdd (w value : Word) : Word := w + value

def atomicSub (w value : Word) : Word := w - value

/-- `AtomicXchg`: the old word, which it returns, and the new one. -/
def atomicXchg (w value : Word) : Word × Word := (w, value)

structure SpinLock where
  atomicLocked : Word

def SpinLock.init : SpinLock := ⟨0⟩

/-- One pass of the loop of `SpinLock_Lock`: has it taken the lock? -/
def SpinLock.lock (l : SpinLock) : SpinLock × Bool :=
  let (old, new) := atomicXchg l.atomicLocked 1
  (⟨new⟩, old = 0)

def SpinLock.unlock (l : SpinLock) : SpinLock := ⟨(atomicXchg l.atomicLocked 0).2⟩

theorem SpinLock.lock_free {l : SpinLock} (h : l.atomicLocked = 0) : l.lock = (⟨1⟩, true) := by
  unfold SpinLock.lock
  rw [atomicXchg, h]
  rfl

theorem SpinLock.lock_taken {l : SpinLock} (h : l.atomicLocked ≠ 0) : l.lock = (⟨1⟩, false) := by
  unfold SpinLock.lock
  rw [atomicXchg]
  simpa using h

/-- What a counter word has counted, it gives back. -/
theorem atomicSub_ofNat (n : ℕ) : atomicSub (BitVec.ofNat 64 (n + 1)) 1 = BitVec.ofNat 64 n := by
  rw [atomicSub, BitVec.ofNat_add]
  exact BitVec.add_sub_cancel _ _

theorem atomicAdd_ofNat (n : ℕ) : atomicAdd (BitVec.ofNat 64 n) 1 = BitVec.ofNat 64 (n + 1) :=
  (BitVec.ofNat_add n 1).symm

end Atomic
end OsLabs
