/-
# The red zone

Code may keep data up to 128 bytes below `rsp`, and a tick comes between any two of its instructions. The kernel goes
below the red zone. `fiber_sched` does not: the address to go on at becomes the word below `rsp`, and when the fiber goes
on by `SwitchFiberContext` its flags become the word below that. The vector registers are nobody's.

Key definitions: `Marked`, `found`.
-/
import OsLabs.PFibers.Transfer

namespace OsLabs
namespace PFibers
namespace Registers

open Memory

section

variable {V : Type} {c d : Cpu V} {A B C : Area} {how : Switch} {junk m : Mem}

/-- What the handler has put where a fiber was interrupted. -/
structure Marked (A : Area) (m : Mem) (c : Cpu V) : Prop where
  flags : load64 m (A.ctx + FLAGS) = c.flags
  stack : ∀ x, (c.reg .rsp).toNat - 128 ≤ x → x < A.hi → m x = store64 c.mem ((c.reg .rsp).toNat - 8) c.rip x
  room : A.lo + 128 ≤ (c.reg .rsp).toNat ∧ (c.reg .rsp).toNat ≤ A.hi

theorem Marked.congr (h : Marked A m c) {m' : Mem} (hm : ∀ x, A.Owns x → m' x = m x) : Marked A m' c := by
  have hroom := h.room
  have hlayout := layout
  refine ⟨?_, fun x hlo hhi => ?_, h.room⟩
  · rw [← h.flags]
    exact load64_congr fun k hk => hm _ (A.word_ctx (by omega) hk)
  · rw [hm x (Or.inr ⟨by omega, hhi⟩), h.stack x hlo hhi]

theorem tickMem_marked (h : Leaves .tick A B c) : Marked A (tickMem A junk c) c := by
  obtain ⟨hlo, hhi⟩ := h
  have hlayout := layout
  have hapart := A.apart
  have hsub := toNat_sub8 (w := c.reg .rsp) (by omega)
  refine ⟨?_, fun x hx hxhi => ?_, hlo, hhi⟩
  · unfold tickMem
    rw [load64_store64_ne _ (by omega), load64_store64_ne _ (by omega)]
    exact load_copyOut _ _ _ (k := 17) (by omega)
  · have hrecord : copyOut (scribble A.lo ((c.reg .rsp).toNat - 128) junk c.mem) A.ctx (gregs c) x = c.mem x := by
      rw [copyOut, writeWords_frame (n := SIZE) (by omega) (fun k hk => by have := List.mem_range.mp hk; omega), scribble,
        if_neg (by omega)]
    unfold tickMem
    rw [store64_frame _ (by omega), hsub]
    unfold store64
    rw [hrecord]

theorem transfer_marked (h : Leaves .tick A B c) : Marked A (transfer .tick A B junk c).mem c := by
  show Marked A (tick A B junk c).mem c
  rw [tick_eq]
  exact tickMem_marked h

/-! ### What the fiber finds -/

/-- The memory of the interrupted fiber when it goes on. -/
def found (how : Switch) (c : Cpu V) : Mem :=
  let m := store64 c.mem ((c.reg .rsp).toNat - 8) c.rip
  match how with
  | .yield => store64 m ((c.reg .rsp).toNat - 16) c.flags
  | .tick => m

theorem transfer_vec : (transfer how A B junk c).vec = c.vec := by
  cases how with
  | yield =>
    show (c.run SwitchFiberContext).vec = _
    rw [run_switch]
  | tick => rfl

theorem Marked.finds (hm : Marked A d.mem c) (hs : Saved A d.mem c) (hAC : A.Apart C) (hd : Leaves how C A d) {x : ℕ}
    (hlo : (c.reg .rsp).toNat - 128 ≤ x) (hhi : x < A.hi) : (transfer how C A junk d).mem x = found how c x := by
  have hroom := hm.room
  have hlayout := layout
  have hx : A.Owns x := Or.inr ⟨by omega, hhi⟩
  cases how with
  | yield =>
    have hsub := toNat_sub8 (w := c.reg .rsp) (by omega)
    have hsub' := toNat_sub8 (w := c.reg .rsp - 8) (by omega)
    show (d.run SwitchFiberContext).mem x = _
    rw [run_switch]
    show loadedMem d x = store64 (store64 c.mem ((c.reg .rsp).toNat - 8) c.rip) ((c.reg .rsp).toNat - 16) c.flags x
    unfold loadedMem
    rw [hd.2.1, load_savedMem hd hAC fun k hk => A.word_reg .rsp hk, load_savedMem hd hAC fun k hk => A.word_ctx (by omega) hk,
      hs.rsp, hm.flags, show (c.reg .rsp - 8 - 8).toNat = (c.reg .rsp).toNat - 16 by omega]
    unfold store64
    rw [savedMem_frame hd (hAC x hx), hm.stack x hlo hhi]
    rfl
  | tick =>
    show (tick C A junk d).mem x = _
    rw [tick_eq]
    exact (tickMem_frame hd (hAC x hx)).trans (hm.stack x hlo hhi)

/-- Two words are overwritten, with what the fiber itself has put there at best. -/
theorem found_iff (hlo : 128 ≤ (c.reg .rsp).toNat) (hhi : (c.reg .rsp).toNat ≤ A.hi) :
    (∀ x, (c.reg .rsp).toNat - 128 ≤ x → x < A.hi → found how c x = c.mem x) ↔
      load64 c.mem ((c.reg .rsp).toNat - 8) = c.rip ∧
        (how = .yield → load64 c.mem ((c.reg .rsp).toNat - 16) = c.flags) := by
  constructor
  · intro h
    have hload : ∀ {a}, (c.reg .rsp).toNat - 128 ≤ a → a + 8 ≤ A.hi → load64 (found how c) a = load64 c.mem a :=
      fun ha ha' => load64_congr fun k hk => h _ (by omega) (by omega)
    cases how with
    | yield =>
      refine ⟨?_, fun _ => ?_⟩
      · rw [← hload (by omega) (by omega), found, load64_store64_ne _ (by omega), load64_store64]
      · rw [← hload (by omega) (by omega), found, load64_store64]
    | tick =>
      refine ⟨?_, fun h => by cases h⟩
      rw [← hload (by omega) (by omega), found, load64_store64]
  · rintro ⟨hrip, hflags⟩ x _ _
    have hword : store64 c.mem ((c.reg .rsp).toNat - 8) c.rip = c.mem := store64_load64 hrip
    cases how with
    | yield => rw [found, hword, store64_load64 (hflags rfl)]
    | tick => rw [found, hword]

end

end Registers
end PFibers
end OsLabs
