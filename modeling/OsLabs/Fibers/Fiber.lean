/-
# The fiber records and the calls that edit their list

`fibers/fibers/fiber.c` and `fibers/pfibers/fiber.c` keep the fibers in a
circular list of `struct Fiber` records through `next`, entered at
`CurrentFiber`. The two files have the same `FiberSpawn`,
`FreeFinishedFibers` and `FiberTryJoin`; they differ in the registers a
stopped fiber's record keeps (`κ`) and in `InitMainFiber`, where `pfibers`
also clears `Main.f`.

A `while` loop over the list gets as many steps as there are records, and
`Fault.diverge` if it needs more: a walk that long goes in circles. No
reachable state diverges (`OsLabs/Fibers/Api.lean`).

Key definitions: `fiberSpawn`, `freeFinishedFibers`, `fiberTryJoin`.
-/
import Mathlib
import OsLabs.Lib.Except
import OsLabs.Lib.Ring

namespace OsLabs
namespace Fibers

/-- An address of the program's memory. -/
abbrev Addr := ℕ

abbrev NULL : Addr := 0

/-- The address of the static record `Main` in `InitMainFiber`. -/
def Main : Addr := 1

/-- Which of the two libraries. -/
inductive Lib
  | fibers
  | pfibers
  deriving DecidableEq, Repr

/-- `struct Fiber`. `κ` is what it keeps of a stopped fiber's registers. -/
structure Fiber (κ : Type) where
  context : κ
  next : Addr
  f : Addr
  args : Addr
  stack : Addr
  finished : Bool

/-- A record without its context. -/
def Fiber.bare {κ : Type} (r : Fiber κ) : Fiber Unit := ⟨(), r.next, r.f, r.args, r.stack, r.finished⟩

theorem Fiber.of_bare {κ : Type} {r t : Fiber κ} (h : r.bare = t.bare) :
    r.next = t.next ∧ r.stack = t.stack ∧ r.finished = t.finished := by
  obtain ⟨-, h1, -, -, h2, h3⟩ := Fiber.mk.inj h
  exact ⟨h1, h2, h3⟩

/-- What stops the process. `dangling` is an access to a record or a stack
that is not allocated, `badFree` a `free` of such an address. -/
inductive Fault
  | null
  | dangling (a : Addr)
  | badFree (a : Addr)
  | assertion
  | diverge
  deriving DecidableEq, Repr

/-- `CurrentFiber`, the records by their addresses, and the stacks that are
allocated. -/
structure Mem (κ : Type) where
  currentFiber : Addr
  heap : AList fun _ : Addr => Fiber κ
  stackBlocks : List Addr

variable {κ : Type}

namespace Mem

/-- Reads the record at `a`. -/
def get (m : Mem κ) (a : Addr) : Except Fault (Fiber κ) :=
  if a = NULL then .error .null
  else match m.heap.lookup a with
    | some r => .ok r
    | none => .error (.dangling a)

/-- Writes the record at `a`. -/
def put (m : Mem κ) (a : Addr) (r : Fiber κ) : Mem κ := { m with heap := m.heap.insert a r }

/-- `a->next = v`. -/
def setNext (m : Mem κ) (a v : Addr) : Except Fault (Mem κ) := do
  let r ← m.get a
  pure (m.put a { r with next := v })

/-- `free` of a record; `Main` is static. -/
def free (m : Mem κ) (a : Addr) : Except Fault (Mem κ) :=
  if a = Main ∨ a ∉ m.heap then .error (.badFree a) else .ok { m with heap := m.heap.erase a }

/-- `free` of a stack. -/
def freeStack (m : Mem κ) (st : Addr) : Except Fault (Mem κ) :=
  if st = NULL then .ok m
  else if st ∈ m.stackBlocks then .ok { m with stackBlocks := m.stackBlocks.erase st }
  else .error (.badFree st)

/-- The successor of `a` in the list. -/
def next (m : Mem κ) (a : Addr) : Option Addr := (m.heap.lookup a).map Fiber.next

/-- The record at `a`, its link apart. -/
def core (m : Mem κ) (a : Addr) : Option (Fiber κ) := (m.heap.lookup a).map ({ · with next := NULL })

/-- The stack of the fiber at `a`. -/
def stackOf (m : Mem κ) (a : Addr) : Option Addr := (m.heap.lookup a).map Fiber.stack

/-- The `finished` flag of `a`. -/
def finished (m : Mem κ) (a : Addr) : Bool := (m.heap.lookup a).any Fiber.finished

/-- The steps a walk along the list may take. -/
def fuel (m : Mem κ) : ℕ := m.heap.keys.length

end Mem

open Mem

/-! ### The calls -/

def initMainFiber (lib : Lib) (m : Mem κ) : Except Fault (Mem κ) :=
  if m.currentFiber ≠ NULL then .ok m
  else do
    let r ← m.get Main
    let r := { r with next := Main }
    let r := match lib with
      | .fibers => r
      | .pfibers => { r with f := NULL }
    pure { m.put Main r with currentFiber := Main }

/-- `while (tail->next != CurrentFiber) tail = tail->next;` -/
def findTail (m : Mem κ) : ℕ → Addr → Except Fault Addr
  | 0, _ => .error .diverge
  | n + 1, tail => do
    let r ← m.get tail
    if r.next ≠ m.currentFiber then findTail m n r.next else pure tail

/-- `FiberSpawn`. `fiber` and `stack` are what the two `malloc`s return, `junk`
what the new record holds where nothing is written, and `prepareStack` writes
the stack pointer to `FiberTrampoline` into it. -/
def fiberSpawn (lib : Lib) (prepareStack : κ → Addr → κ) (f args fiber stack : Addr) (junk : κ)
    (m : Mem κ) : Except Fault (Mem κ) :=
  if f = NULL then .ok m
  else do
    let m ← initMainFiber lib m
    -- `malloc` is not checked: the stores through a null result fault
    if fiber = NULL ∨ stack = NULL then .error .null
    else
      let r := { context := prepareStack junk stack, next := m.currentFiber, f := f, args := args,
                 stack := stack, finished := false }
      let m := { m.put fiber r with stackBlocks := stack :: m.stackBlocks }
      let tail ← findTail m m.fuel m.currentFiber
      m.setNext tail fiber

/-- What the loop of `FreeFinishedFibers` does with a finished `cur`, whose record
is `r`. -/
def release (prev cur : Addr) (r : Fiber κ) (m : Mem κ) : Except Fault (Mem κ) := do
  let m ← m.setNext prev r.next
  let m ← m.freeStack r.stack
  m.free cur

/-- The loop of `FreeFinishedFibers`. -/
def sweep : ℕ → Addr → Addr → Mem κ → Except Fault (Mem κ)
  | 0, _, _, _ => .error .diverge
  | n + 1, prev, cur, m =>
    if cur = m.currentFiber then .ok m
    else do
      let r ← m.get cur
      if r.finished then
        let m ← release prev cur r m
        let p ← m.get prev
        sweep n prev p.next m
      else sweep n cur r.next m

def freeFinishedFibers (m : Mem κ) : Except Fault (Mem κ) := do
  let r ← m.get m.currentFiber
  sweep m.fuel m.currentFiber r.next m

def fiberTryJoin (lib : Lib) (m : Mem κ) : Except Fault (Mem κ × Bool) := do
  let m ← initMainFiber lib m
  let m ← freeFinishedFibers m
  let r ← m.get m.currentFiber
  pure (m, r.next = m.currentFiber)

/-! ### Reading a memory after a write -/

namespace Mem

variable {m : Mem κ} {a b : Addr} {r : Fiber κ}

theorem get_ok (ha : a ≠ NULL) (h : m.heap.lookup a = some r) : m.get a = .ok r := by
  simp [get, ha, h]

/-- A read that leads to a result finds a record. -/
theorem get_bind_ok {β : Type} {k : Fiber κ → Except Fault β} {x : β} (h : (m.get a >>= k) = .ok x) :
    ∃ r, a ≠ NULL ∧ m.heap.lookup a = some r ∧ k r = .ok x := by
  unfold get at h
  split_ifs at h with ha
  · exact absurd h nofun
  · cases hr : m.heap.lookup a with
    | none =>
      rw [hr] at h
      exact absurd h nofun
    | some r =>
      rw [hr] at h
      exact ⟨r, ha, rfl, h⟩

theorem of_free_ok {m' : Mem κ} (h : m.free a = .ok m') :
    a ≠ Main ∧ a ∈ m.heap ∧ m' = { m with heap := m.heap.erase a } := by
  unfold free at h
  split_ifs at h with ha
  rw [not_or, not_not] at ha
  exact ⟨ha.1, ha.2, (Except.ok.inj h).symm⟩

theorem of_freeStack_ok {m' : Mem κ} {st : Addr} (h : m.freeStack st = .ok m') :
    m'.currentFiber = m.currentFiber ∧ m'.heap = m.heap := by
  unfold freeStack at h
  split_ifs at h
  · rw [← Except.ok.inj h]
    exact ⟨rfl, rfl⟩
  · rw [← Except.ok.inj h]
    exact ⟨rfl, rfl⟩

theorem setNext_ok (ha : a ≠ NULL) (h : m.heap.lookup a = some r) (v : Addr) :
    m.setNext a v = .ok (m.put a { r with next := v }) := by simp [setNext, get_ok ha h]

@[simp] theorem put_currentFiber : (m.put a r).currentFiber = m.currentFiber := rfl

@[simp] theorem put_stackBlocks : (m.put a r).stackBlocks = m.stackBlocks := rfl

theorem lookup_put : (m.put a r).heap.lookup b = if b = a then some r else m.heap.lookup b := by
  by_cases h : b = a
  · subst h; simp [put]
  · simp [put, h, AList.lookup_insert_ne h]

theorem next_put : (m.put a r).next b = if b = a then some r.next else m.next b := by
  simp only [next, lookup_put]; split_ifs <;> rfl

/-- A record's `core` is its own but for the link. -/
theorem core_eq_some {r' : Fiber κ} : m.core a = some r' ↔
    ∃ v, m.heap.lookup a = some { r' with next := v } ∧ r'.next = NULL := by
  unfold core
  constructor
  · intro h
    obtain ⟨r, hr, rfl⟩ := Option.map_eq_some_iff.mp h
    exact ⟨r.next, hr, rfl⟩
  · rintro ⟨v, h, hn⟩
    rw [h]
    cases r'
    simp_all

theorem finished_of_core {m' : Mem κ} (h : m'.core a = m.core a) : m'.finished a = m.finished a := by
  unfold core at h
  unfold finished
  cases h1 : m.heap.lookup a <;> cases h2 : m'.heap.lookup a <;> simp_all

theorem stackOf_of_core {m' : Mem κ} (h : m'.core a = m.core a) : m'.stackOf a = m.stackOf a := by
  unfold core at h
  unfold stackOf
  cases h1 : m.heap.lookup a <;> cases h2 : m'.heap.lookup a <;> simp_all

theorem finished_eq (h : m.heap.lookup a = some r) : m.finished a = r.finished := by
  simp [finished, h]

theorem mem_of_core {m' : Mem κ} (h : m'.core a = m.core a) : a ∈ m'.heap ↔ a ∈ m.heap := by
  rw [← AList.lookup_isSome, ← AList.lookup_isSome]
  unfold core at h
  cases h1 : m.heap.lookup a <;> cases h2 : m'.heap.lookup a <;> simp_all

theorem exists_of_mem (h : a ∈ m.heap) : ∃ r, m.heap.lookup a = some r :=
  Option.isSome_iff_exists.mp (AList.lookup_isSome.mpr h)

theorem mem_of_lookup (h : m.heap.lookup a = some r) : a ∈ m.heap :=
  AList.lookup_isSome.mp (by rw [h]; rfl)

end Mem

end Fibers
end OsLabs
