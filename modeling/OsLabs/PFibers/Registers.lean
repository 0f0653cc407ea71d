/-
# Registers and the two switches

`fiber_asm.S` and the handler `fiber_sched` at the level of words. A CPU has the general registers, `rip`, the flags, the vector
registers and the memory. `SwitchFiberContext` is the list of its instructions; `fiber_sched` works on the array `gregs` into
which the kernel has put the registers of the interrupted fiber and from which it takes them when the handler
returns. The kernel puts its frame below the red zone and keeps the vector registers in it.

Key definitions: `Cpu`, `SwitchFiberContext`, `fiberSched`, `transfer`.
-/
import OsLabs.Memory.Pages

namespace OsLabs
namespace PFibers
namespace Registers

open Memory
open Function (update)

inductive Reg
  | r8 | r9 | r10 | r11 | r12 | r13 | r14 | r15 | rdi | rsi | rbp | rbx | rdx | rax | rcx | rsp
  deriving DecidableEq, Repr

abbrev Mem := ℕ → Byte

structure Cpu (V : Type) where
  reg : Reg → Word
  rip : Word
  flags : Word
  vec : V
  mem : Mem

/-! ### The flags -/

/-- `pushfq` leaves out RF and VM. -/
abbrev PUSHF : Word := 0xFCFFFF

/-- What `popfq` changes in user mode: CF, PF, AF, ZF, SF, TF, DF, OF, NT, AC and ID. -/
abbrev POPF : Word := 0x244DD5

/-- What the kernel takes from the frame: CF, PF, AF, ZF, SF, TF, DF, OF, RF and AC. -/
abbrev SIGRETURN : Word := 0x50DD5

/-- The flags `w` are loaded as far as `mask` goes. -/
def mix (mask cur w : Word) : Word := (cur &&& ~~~mask) ||| (w &&& mask)

theorem mix_and {mask shown : Word} (h : shown &&& mask = shown) (cur w : Word) :
    mix mask cur w &&& shown = w &&& shown := by
  have hbit : ∀ i, shown.getLsbD i = true → mask.getLsbD i = true := fun i hi => by
    have := congrArg (BitVec.getLsbD · i) h
    simp only [BitVec.getLsbD_and, hi, Bool.true_and] at this
    exact this
  apply BitVec.eq_of_getLsbD_eq
  intro i hi
  have := hbit i
  simp only [mix, BitVec.getLsbD_and, BitVec.getLsbD_or, BitVec.getLsbD_not, hi, decide_true, Bool.true_and]
  cases h1 : BitVec.getLsbD shown i
  · simp
  · simp [this h1]

theorem and_and_of_subset {mask shown : Word} (h : shown &&& mask = shown) (w : Word) : w &&& mask &&& shown = w &&& shown := by
  rw [BitVec.and_assoc, BitVec.and_comm mask, h]

/-! ### Instructions -/

inductive Instr
  | pushfq
  | popfq
  | pushq (disp : ℕ) (base : Reg)
  | popq (disp : ℕ) (base : Reg)
  -- `movq %src, disp(%base)` and `movq disp(%base), %dst`
  | store (src : Reg) (disp : ℕ) (base : Reg)
  | load (disp : ℕ) (base dst : Reg)
  | ret

section

variable {V : Type}

namespace Cpu

variable (c : Cpu V)

def addr (disp : ℕ) (base : Reg) : ℕ := (c.reg base).toNat + disp

/-- The word on top of the stack. -/
def top : Word := load64 c.mem (c.reg .rsp).toNat

def set (r : Reg) (w : Word) : Cpu V := { c with reg := update c.reg r w }

def push (w : Word) : Cpu V :=
  { c.set .rsp (c.reg .rsp - 8) with mem := store64 c.mem (c.reg .rsp - 8).toNat w }

def drop : Cpu V := c.set .rsp (c.reg .rsp + 8)

def exec : Instr → Cpu V
  | .pushfq => c.push (c.flags &&& PUSHF)
  | .popfq => { c.drop with flags := mix POPF c.flags c.top }
  | .pushq disp base => c.push (load64 c.mem (c.addr disp base))
  | .popq disp base => { c.drop with mem := store64 c.mem (c.drop.addr disp base) c.top }
  | .store src disp base => { c with mem := store64 c.mem (c.addr disp base) (c.reg src) }
  | .load disp base dst => c.set dst (load64 c.mem (c.addr disp base))
  | .ret => { c.drop with rip := c.top }

def run : Cpu V → List Instr → Cpu V
  | c, [] => c
  | c, i :: is => run (c.exec i) is

end Cpu

/-- `struct Context`: where the registers are. -/
def offset : Reg → ℕ
  | .r8 => 0 | .r9 => 8 | .r10 => 16 | .r11 => 24 | .r12 => 32 | .r13 => 40 | .r14 => 48 | .r15 => 56
  | .rdi => 64 | .rsi => 72 | .rbp => 80 | .rbx => 88 | .rdx => 96 | .rax => 104 | .rcx => 112 | .rsp => 120

abbrev RIP : ℕ := 128
abbrev FLAGS : ℕ := 136

/-- `sizeof(struct Context)`. -/
abbrev SIZE : ℕ := 144

def SwitchFiberContext : List Instr := [
  .pushfq,
  .popq 136 .rdi,
  .store .r8 0 .rdi,
  .store .r9 8 .rdi,
  .store .r10 16 .rdi,
  .store .r11 24 .rdi,
  .store .r12 32 .rdi,
  .store .r13 40 .rdi,
  .store .r14 48 .rdi,
  .store .r15 56 .rdi,
  .store .rdi 64 .rdi,
  .store .rsi 72 .rdi,
  .store .rbp 80 .rdi,
  .store .rbx 88 .rdi,
  .store .rdx 96 .rdi,
  .store .rax 104 .rdi,
  .store .rcx 112 .rdi,
  .store .rsp 120 .rdi,
  .load 0 .rsi .r8,
  .load 8 .rsi .r9,
  .load 16 .rsi .r10,
  .load 24 .rsi .r11,
  .load 32 .rsi .r12,
  .load 40 .rsi .r13,
  .load 48 .rsi .r14,
  .load 56 .rsi .r15,
  .load 64 .rsi .rdi,
  .load 80 .rsi .rbp,
  .load 88 .rsi .rbx,
  .load 96 .rsi .rdx,
  .load 104 .rsi .rax,
  .load 112 .rsi .rcx,
  .load 120 .rsi .rsp,
  .pushq 136 .rsi,
  .popfq,
  .load 72 .rsi .rsi,
  .ret]

/-! ### The handler -/

/-- The index of a register in `gregs`, of `<sys/ucontext.h>`. -/
def greg : Reg → ℕ
  | .r8 => 0 | .r9 => 1 | .r10 => 2 | .r11 => 3 | .r12 => 4 | .r13 => 5 | .r14 => 6 | .r15 => 7
  | .rdi => 8 | .rsi => 9 | .rbp => 10 | .rbx => 11 | .rdx => 12 | .rax => 13 | .rcx => 14 | .rsp => 15

abbrev REG_RIP : ℕ := 16
abbrev REG_EFL : ℕ := 17

/-- What the kernel puts into `gregs`; the words behind the flags are of no use here. -/
def gregs (c : Cpu V) : ℕ → Word
  | 0 => c.reg .r8 | 1 => c.reg .r9 | 2 => c.reg .r10 | 3 => c.reg .r11
  | 4 => c.reg .r12 | 5 => c.reg .r13 | 6 => c.reg .r14 | 7 => c.reg .r15
  | 8 => c.reg .rdi | 9 => c.reg .rsi | 10 => c.reg .rbp | 11 => c.reg .rbx
  | 12 => c.reg .rdx | 13 => c.reg .rax | 14 => c.reg .rcx | 15 => c.reg .rsp
  | 16 => c.rip | 17 => c.flags | _ => 0

/-- Words are written to these places behind `base`, one after the other. -/
def writeWords {ι : Type} (base : ℕ) (off : ι → ℕ) (val : ι → Word) : List ι → Mem → Mem
  | [], m => m
  | i :: is, m => writeWords base off val is (store64 m (base + off i) (val i))

/-- `memcpy(&context, gregs, sizeof(struct Context))`. -/
def copyOut (m : Mem) (ctx : ℕ) (g : ℕ → Word) : Mem := writeWords ctx (8 * ·) g (List.range (SIZE / 8)) m

/-- `memcpy(gregs, &context, sizeof(struct Context))`. -/
def copyIn (m : Mem) (ctx : ℕ) (g : ℕ → Word) : ℕ → Word :=
  fun k => if k < SIZE / 8 then load64 m (ctx + 8 * k) else g k

/-- `fiber_sched`, for the records of the current fiber and the next one. -/
def fiberSched (ctx next : ℕ) (m : Mem) (g : ℕ → Word) : Mem × (ℕ → Word) :=
  let m := copyOut m ctx g
  let rsp := load64 m (ctx + offset .rsp) - 8
  let m := store64 m rsp.toNat (load64 m (ctx + RIP))
  let m := store64 m (ctx + offset .rsp) rsp
  let g := copyIn m next g
  let newRsp := load64 m (next + offset .rsp)
  let g := update g (RIP / 8) (load64 m newRsp.toNat)
  let g := update g (offset .rsp / 8) (newRsp + 8)
  (m, g)

/-! ### Fibers -/

/-- What belongs to a fiber: the record of its context, and its stack. -/
structure Area where
  ctx : ℕ
  lo : ℕ
  hi : ℕ
  apart : ctx + SIZE ≤ lo ∨ hi ≤ ctx
  fits : ctx + SIZE < 2 ^ 64 ∧ hi < 2 ^ 64

def Area.Owns (A : Area) (x : ℕ) : Prop := A.ctx ≤ x ∧ x < A.ctx + SIZE ∨ A.lo ≤ x ∧ x < A.hi

/-- Two fibers. -/
def Area.Apart (A B : Area) : Prop := ∀ x, A.Owns x → ¬ B.Owns x

/-- The kernel's frame and the handler's own: anything, below the red zone. -/
def scribble (lo hi : ℕ) (junk m : Mem) : Mem := fun x => if lo ≤ x ∧ x < hi then junk x else m x

/-- A signal comes, and `fiber_sched` goes from the fiber of `A` to that of `B`. -/
def tick (A B : Area) (junk : Mem) (c : Cpu V) : Cpu V :=
  let r := fiberSched A.ctx B.ctx (scribble A.lo ((c.reg .rsp).toNat - 128) junk c.mem) (gregs c)
  { reg := fun x => r.2 (greg x)
    rip := r.2 REG_RIP
    flags := mix SIGRETURN c.flags (r.2 REG_EFL)
    vec := c.vec
    mem := r.1 }

/-- How a fiber stops, and how it is resumed. -/
inductive Switch
  | yield
  | tick

/-- The flags that a fiber gets back: those that the resuming side loads, less RF, which no program sets. -/
def Switch.flags : Switch → Word
  | .yield => POPF
  | .tick => 0x40DD5

def transfer (how : Switch) (A B : Area) (junk : Mem) (c : Cpu V) : Cpu V :=
  match how with
  | .yield => c.run SwitchFiberContext
  | .tick => tick A B junk c

/-- The fiber of `A` is at the call of `SwitchFiberContext` in `FiberYield`, with the return address on its stack; or
anywhere, with a red zone on its stack. -/
def Leaves (how : Switch) (A B : Area) (c : Cpu V) : Prop :=
  match how with
  | .yield => (c.reg .rdi).toNat = A.ctx ∧ (c.reg .rsi).toNat = B.ctx ∧
      A.lo + 8 ≤ (c.reg .rsp).toNat ∧ (c.reg .rsp).toNat + 8 ≤ A.hi
  | .tick => A.lo + 128 ≤ (c.reg .rsp).toNat ∧ (c.reg .rsp).toNat ≤ A.hi

/-- The registers at the stop: behind the call, or as they are. -/
def atStop (how : Switch) (c : Cpu V) : Cpu V :=
  match how with
  | .yield => { c.drop with rip := c.top }
  | .tick => c

/-- The saved `rsp` of a fiber that does not run is that of its own stack. -/
def Area.Parked (A : Area) (m : Mem) : Prop :=
  A.lo + 8 ≤ (load64 m (A.ctx + offset .rsp)).toNat ∧ (load64 m (A.ctx + offset .rsp)).toNat + 8 ≤ A.hi

end

/-! ### A new fiber -/

abbrev FIBER_STACK_SIZE : ℕ := 64 * 2 ^ 10

/-- `sizeof(struct Fiber)`. -/
abbrev FIBER : ℕ := 184

/-- What the two calls of `malloc` return. -/
structure Allocated where
  fiber : Word
  stack : Word
  apart : fiber.toNat + FIBER ≤ stack.toNat ∨ stack.toNat + FIBER_STACK_SIZE ≤ fiber.toNat
  fits : fiber.toNat + FIBER < 2 ^ 64 ∧ stack.toNat + FIBER_STACK_SIZE < 2 ^ 64

def PrepareStack (FiberTrampoline : Word) (m : Mem) (stack_top : Word) : Mem × Word :=
  let rsp := stack_top &&& ~~~(15 : Word)
  (store64 m (rsp - 16).toNat FiberTrampoline, rsp - 16)

/-- An `int` zero. -/
def clear32 (m : Mem) (a : ℕ) : Mem := fun x => if a ≤ x ∧ x < a + 4 then 0 else m x

/-- `FiberSpawn` as far as it fills the record: `f`, `args`, `finished`, `stack`, the `rsp` of the context, and `next`. -/
def FiberSpawn (FiberTrampoline f args CurrentFiber : Word) (N : Allocated) (m : Mem) : Mem :=
  let fiber := N.fiber.toNat
  let m := store64 m (fiber + 152) f
  let m := store64 m (fiber + 160) args
  let m := clear32 m (fiber + 176)
  let m := store64 m (fiber + 168) N.stack
  let (m, rsp) := PrepareStack FiberTrampoline m (N.stack + BitVec.ofNat 64 FIBER_STACK_SIZE)
  let m := store64 m (fiber + offset .rsp) rsp
  store64 m (fiber + 144) CurrentFiber

def Allocated.area (N : Allocated) : Area where
  ctx := N.fiber.toNat
  lo := N.stack.toNat
  hi := N.stack.toNat + FIBER_STACK_SIZE
  apart := N.apart.imp_left fun h => le_trans (Nat.add_le_add_left (by decide) _) h
  fits := ⟨lt_of_le_of_lt (Nat.add_le_add_left (by decide) _) N.fits.1, N.fits.2⟩

end Registers
end PFibers
end OsLabs
