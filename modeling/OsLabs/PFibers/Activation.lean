/-
# A fiber that goes on, and one that begins

`PrepareStack` makes the stack of a new fiber look like that of one that has stopped, so both ways of resuming find
`FiberTrampoline` on it. Of the record `FiberSpawn` fills in only `rsp`: what the first activation loads into the flags is
what `malloc` returned.

Key theorems: `fiber_continues`, `control_flags`.
-/
import OsLabs.PFibers.Transfer

namespace OsLabs
namespace PFibers
namespace Registers

open Memory
open Function (update)

theorem toNat_align (w : Word) : (w &&& ~~~(15 : Word)).toNat = w.toNat / 16 * 16 := by
  have hshift : w &&& ~~~(15 : Word) = w >>> 4 <<< 4 := by
    have hmask : ∀ k : Fin 64, (~~~(15 : Word))[k] = decide (4 ≤ k.val) := by decide
    ext i hi
    rw [BitVec.getElem_and, show (~~~(15 : Word))[i] = decide (4 ≤ i) from hmask ⟨i, hi⟩]
    by_cases h4 : 4 ≤ i
    · simp [h4, show 4 + (i - 4) = i by omega, BitVec.getLsbD_eq_getElem hi]
    · simp [h4, show i < 4 by omega]
  have hlt := w.isLt
  rw [hshift, BitVec.toNat_shiftLeft, BitVec.toNat_ushiftRight, Nat.shiftLeft_eq, Nat.shiftRight_eq_div_pow,
    Nat.mod_eq_of_lt (by omega)]

namespace Allocated

variable (N : Allocated)

/-- What `FiberSpawn` may write to. -/
def Takes (x : ℕ) : Prop :=
  N.fiber.toNat ≤ x ∧ x < N.fiber.toNat + FIBER ∨ N.stack.toNat ≤ x ∧ x < N.stack.toNat + FIBER_STACK_SIZE

theorem takes_of_owns {x : ℕ} (h : N.area.Owns x) : N.Takes x :=
  h.imp_left fun h => ⟨h.1, lt_of_lt_of_le h.2 (Nat.add_le_add_left (by decide) _)⟩

/-- What `PrepareStack` returns. -/
def rsp : Word := ((N.stack + BitVec.ofNat 64 FIBER_STACK_SIZE) &&& ~~~(15 : Word)) - 16

theorem toNat_rsp : N.rsp.toNat = (N.stack.toNat + FIBER_STACK_SIZE) / 16 * 16 - 16 := by
  have hfits := N.fits.2
  have htop : (N.stack + BitVec.ofNat 64 FIBER_STACK_SIZE).toNat = N.stack.toNat + FIBER_STACK_SIZE := by
    rw [BitVec.toNat_add, BitVec.toNat_ofNat, Nat.mod_eq_of_lt (by decide : FIBER_STACK_SIZE < 2 ^ 64), Nat.mod_eq_of_lt hfits]
  have h16 : (16 : Word).toNat = 16 := rfl
  have hsize : FIBER_STACK_SIZE = 65536 := rfl
  have halign := toNat_align (N.stack + BitVec.ofNat 64 FIBER_STACK_SIZE)
  unfold rsp
  rw [BitVec.toNat_sub_of_le (by rw [BitVec.le_def, h16, halign, htop]; omega), h16, halign, htop]

end Allocated

section

variable {V : Type} {tramp f args cur : Word} {N : Allocated} {m : Mem}

/-- What a new fiber is found with. -/
structure Ready (tramp : Word) (N : Allocated) (m m' : Mem) : Prop where
  rsp : load64 m' (N.area.ctx + offset .rsp) = N.rsp
  rip : load64 m' N.rsp.toNat = tramp
  reg : ∀ r, r ≠ .rsp → load64 m' (N.area.ctx + offset r) = load64 m (N.area.ctx + offset r)
  flags : load64 m' (N.area.ctx + FLAGS) = load64 m (N.area.ctx + FLAGS)

theorem FiberSpawn_eq : FiberSpawn tramp f args cur N m = store64 (store64 (store64 (store64 (clear32 (store64 (store64 m
    (N.fiber.toNat + 152) f) (N.fiber.toNat + 160) args) (N.fiber.toNat + 176)) (N.fiber.toNat + 168) N.stack)
    N.rsp.toNat tramp) (N.fiber.toNat + offset .rsp) N.rsp) (N.fiber.toNat + 144) cur := rfl

theorem FiberSpawn_frame {x : ℕ} (hx : ¬ N.Takes x) : FiberSpawn tramp f args cur N m x = m x := by
  have hrsp := N.toNat_rsp
  have hlayout := layout
  have hsize : FIBER_STACK_SIZE = 65536 ∧ FIBER = 184 := ⟨rfl, rfl⟩
  obtain ⟨hfiber, hstack⟩ := not_or.mp hx
  rw [FiberSpawn_eq, store64_frame _ (by omega), store64_frame _ (by omega), store64_frame _ (by omega),
    store64_frame _ (by omega), clear32, if_neg (by omega), store64_frame _ (by omega), store64_frame _ (by omega)]

theorem FiberSpawn_ready : Ready tramp N m (FiberSpawn tramp f args cur N m) := by
  have hrsp := N.toNat_rsp
  have hapart := N.apart
  have hlayout := layout
  have hsize : FIBER_STACK_SIZE = 65536 ∧ FIBER = 184 := ⟨rfl, rfl⟩
  have hctx : N.area.ctx = N.fiber.toNat := rfl
  -- the record up to the flags, but for `rsp`
  have hframe : ∀ {a}, N.fiber.toNat ≤ a → a + 8 ≤ N.fiber.toNat + SIZE →
      a + 8 ≤ N.fiber.toNat + offset .rsp ∨ N.fiber.toNat + offset .rsp + 8 ≤ a →
      load64 (FiberSpawn tramp f args cur N m) a = load64 m a := fun hlo hhi hne => by
    rw [FiberSpawn_eq, load64_store64_ne _ (by omega), load64_store64_ne _ (by omega), load64_store64_ne _ (by omega),
      load64_store64_ne _ (by omega)]
    refine (load64_congr fun k hk => if_neg (by omega)).trans ?_
    rw [load64_store64_ne _ (by omega), load64_store64_ne _ (by omega)]
  refine ⟨?_, ?_, fun r hr => ?_, ?_⟩
  · rw [hctx, FiberSpawn_eq, load64_store64_ne _ (by omega), load64_store64]
  · rw [FiberSpawn_eq, load64_store64_ne _ (by omega), load64_store64_ne _ (by omega), load64_store64]
  · have hle := offset_le r
    have hne := (offset_apart r .rsp).resolve_left fun h => hr (offset_injective h)
    rw [hctx]
    exact hframe (by omega) (by omega) (by omega)
  · rw [hctx]
    exact hframe (by omega) (by omega) (by omega)

theorem Ready.congr {m' m'' : Mem} (h : Ready tramp N m m') (hm : ∀ x, N.area.Owns x → m'' x = m' x) :
    Ready tramp N m m'' := by
  have hrsp := N.toNat_rsp
  have hlayout := layout
  have hsize : FIBER_STACK_SIZE = 65536 := rfl
  have hload : ∀ {a}, (∀ k < 8, N.area.Owns (a + k)) → load64 m'' a = load64 m' a := fun ha =>
    load64_congr fun k hk => hm _ (ha k hk)
  have hlo : N.area.lo = N.stack.toNat := rfl
  have hhi : N.area.hi = N.stack.toNat + FIBER_STACK_SIZE := rfl
  refine ⟨by rw [hload fun k hk => N.area.word_reg .rsp hk, h.rsp], ?_, fun r hr => ?_, ?_⟩
  · rw [hload fun k hk => Area.word_stack (by omega) (by omega) hk, h.rip]
  · rw [hload fun k hk => N.area.word_reg r hk, h.reg r hr]
  · rw [hload fun k hk => N.area.word_ctx (by omega) hk, h.flags]

theorem Ready.parked {m' : Mem} (h : Ready tramp N m m') : N.area.Parked m' := by
  have hrsp := N.toNat_rsp
  have hsize : FIBER_STACK_SIZE = 65536 := rfl
  have hlo : N.area.lo = N.stack.toNat := rfl
  have hhi : N.area.hi = N.stack.toNat + FIBER_STACK_SIZE := rfl
  unfold Area.Parked
  rw [h.rsp]
  omega

/-- The first activation of a fiber. -/
theorem Ready.begins {how : Switch} {C : Area} {junk : Mem} {d : Cpu V} (h : Ready tramp N m d.mem)
    (hNC : N.area.Apart C) (hd : Leaves how C N.area d) :
    (transfer how C N.area junk d).rip = tramp ∧ (transfer how C N.area junk d).reg .rsp = N.rsp + 8 ∧
      (transfer how C N.area junk d).flags &&& how.flags = load64 m (N.area.ctx + FLAGS) &&& how.flags := by
  have hres : Resumes how N.area d.mem (transfer how C N.area junk d) := transfer_resumes hNC hd h.parked
  refine ⟨?_, ?_, ?_⟩
  · rw [hres.rip, h.rsp, h.rip]
  · rw [hres.rsp, h.rsp]
  · rw [hres.flags, h.flags]

end

end Registers
end PFibers
end OsLabs
