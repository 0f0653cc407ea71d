/-
# A fiber goes on as it was stopped

Both switches leave in the record of a fiber what the other one expects there: the registers, with `rsp` one word below
where it is to be, and on the stack at that place the address to go on at. So each way of stopping fits each way of
resuming, and a new fiber, whose stack `PrepareStack` has made look like this, fits too.

Key definitions: `Saved`, `Resumed`.
-/
import OsLabs.PFibers.Registers

namespace OsLabs
namespace PFibers
namespace Registers

open Memory
open Function (update)

/-! ### Words in the memory -/

section

variable {w : Word}

theorem toNat_sub8 (h : 8 ≤ w.toNat) : (w - 8).toNat = w.toNat - 8 := by
  have h8 : (8 : Word).toNat = 8 := rfl
  rw [BitVec.toNat_sub_of_le (by rw [BitVec.le_def, h8]; exact h), h8]

theorem toNat_add8 (h : w.toNat + 8 < 2 ^ 64) : (w + 8).toNat = w.toNat + 8 := by
  have h8 : (8 : Word).toNat = 8 := rfl
  rw [BitVec.toNat_add, h8, Nat.mod_eq_of_lt h]

theorem sub_add8 (w : Word) : w - 8 + 8 = w := BitVec.sub_add_cancel w 8

theorem add_sub8 (w : Word) : w + 8 - 8 = w := BitVec.add_sub_cancel w 8

variable {ι : Type} {base n : ℕ} {off : ι → ℕ} {val : ι → Word}

theorem writeWords_frame {x : ℕ} (hx : x < base ∨ base + n ≤ x) : ∀ {is : List ι} {m : Mem}, (∀ i ∈ is, off i + 8 ≤ n) →
    writeWords base off val is m x = m x
  | [], _, _ => rfl
  | i :: is, m, h => by
    have hi := h i (List.mem_cons_self ..)
    rw [writeWords, writeWords_frame hx fun j hj => h j (List.mem_cons_of_mem _ hj)]
    exact store64_frame _ (by omega)

/-- Words of which two are the same or apart: what is written is read back. -/
theorem load_writeWords (hoff : ∀ i j, off i = off j ∨ off i + 8 ≤ off j ∨ off j + 8 ≤ off i)
    (hval : ∀ i j, off i = off j → val i = val j) {i : ι} : ∀ {is : List ι} {m : Mem},
      i ∈ is ∨ load64 m (base + off i) = val i → load64 (writeWords base off val is m) (base + off i) = val i
  | [], _, h => h.resolve_left List.not_mem_nil
  | j :: is, m, h => by
    rw [writeWords]
    refine load_writeWords hoff hval ?_
    rcases hoff i j with hij | hij
    · exact Or.inr (by rw [hij, load64_store64, hval i j hij])
    · rcases h with h | h
      · rcases List.mem_cons.mp h with rfl | h
        · omega
        · exact Or.inl h
      · exact Or.inr (by rw [load64_store64_ne _ (by omega), h])

end

theorem offset_apart (i j : Reg) : offset i = offset j ∨ offset i + 8 ≤ offset j ∨ offset j + 8 ≤ offset i := by
  cases i <;> cases j <;> decide

theorem offset_injective {i j : Reg} : offset i = offset j → i = j := by cases i <;> cases j <;> decide

theorem offset_le (i : Reg) : offset i + 8 ≤ RIP := by cases i <;> decide

/-- The kernel's order is that of the record. -/
theorem offset_eq (i : Reg) : offset i = 8 * greg i := by cases i <;> rfl

theorem greg_lt (i : Reg) : greg i < REG_RIP := by cases i <;> decide

theorem layout : RIP = 128 ∧ FLAGS = 136 ∧ SIZE = 144 ∧ offset .rsp = 120 ∧ offset .rsi = 72 := by decide

/-! ### The instructions -/

section

variable {V : Type} (c : Cpu V)

/-- The registers in the order in which they are saved, and loaded. -/
def saved : List Reg := [.r8, .r9, .r10, .r11, .r12, .r13, .r14, .r15, .rdi, .rsi, .rbp, .rbx, .rdx, .rax, .rcx, .rsp]

def loaded : List Reg := [.r8, .r9, .r10, .r11, .r12, .r13, .r14, .r15, .rdi, .rbp, .rbx, .rdx, .rax, .rcx, .rsp]

theorem switch_eq : SwitchFiberContext = [Instr.pushfq, .popq 136 .rdi] ++ saved.map (fun r => Instr.store r (offset r) .rdi) ++
    loaded.map (fun r => Instr.load (offset r) .rsi r) ++ [Instr.pushq 136 .rsi, .popfq, .load 72 .rsi .rsi, .ret] := rfl

theorem run_append : ∀ (is js : List Instr) (c : Cpu V), c.run (is ++ js) = (c.run is).run js
  | [], _, _ => rfl
  | i :: is, js, c => run_append is js (c.exec i)

theorem run_stores : ∀ (rs : List Reg) (c : Cpu V), c.run (rs.map fun r => .store r (offset r) .rdi) =
    { c with mem := writeWords (c.reg .rdi).toNat offset c.reg rs c.mem }
  | [], _ => rfl
  | r :: rs, c => run_stores rs (c.exec (.store r (offset r) .rdi))

theorem run_loads : ∀ (rs : List Reg) (c : Cpu V), .rsi ∉ rs → c.run (rs.map fun r => .load (offset r) .rsi r) =
    { c with reg := fun r => if r ∈ rs then load64 c.mem ((c.reg .rsi).toNat + offset r) else c.reg r }
  | [], c, _ => by simp [Cpu.run]
  | r :: rs, c, h => by
    obtain ⟨hr, hrs⟩ := not_or.mp (List.mem_cons.not.mp h)
    have ih := run_loads rs (c.exec (.load (offset r) .rsi r)) hrs
    have hrsi : (c.exec (.load (offset r) .rsi r)).reg .rsi = c.reg .rsi := Function.update_of_ne hr _ _
    show (c.exec (.load (offset r) .rsi r)).run _ = _
    rw [ih, hrsi]
    show ({ c with reg := _ } : Cpu V) = { c with reg := _ }
    congr 1
    funext x
    by_cases hx : x ∈ rs
    · rw [if_pos hx, if_pos (List.mem_cons_of_mem _ hx)]
      rfl
    · rw [if_neg hx]
      by_cases hxr : x = r
      · subst hxr
        rw [if_pos (List.mem_cons_self ..)]
        exact Function.update_self _ _ _
      · rw [if_neg (by simp [hxr, hx])]
        exact Function.update_of_ne hxr _ _

/-- The memory when the registers have been saved. -/
def savedMem (c : Cpu V) : Mem :=
  let m := store64 c.mem (c.reg .rsp - 8).toNat (c.flags &&& PUSHF)
  writeWords (c.reg .rdi).toNat offset c.reg saved (store64 m ((c.reg .rdi).toNat + FLAGS) (c.flags &&& PUSHF))

/-- The word that the flags are loaded with goes over the stack that is switched to. -/
def loadedMem (c : Cpu V) : Mem :=
  store64 (savedMem c) (load64 (savedMem c) ((c.reg .rsi).toNat + offset .rsp) - 8).toNat
    (load64 (savedMem c) ((c.reg .rsi).toNat + FLAGS))

theorem run_save : c.run ([.pushfq, .popq 136 .rdi] ++ saved.map fun r => .store r (offset r) .rdi) =
    { c with mem := savedMem c } := by
  have hstart : c.run [.pushfq, .popq 136 .rdi] = { c with
      mem := store64 (store64 c.mem (c.reg .rsp - 8).toNat (c.flags &&& PUSHF)) ((c.reg .rdi).toNat + FLAGS)
        (c.flags &&& PUSHF) } := by
    have hrsp : update (update c.reg .rsp (c.reg .rsp - 8)) .rsp (c.reg .rsp - 8 + 8) = c.reg := by
      rw [sub_add8, Function.update_idem, Function.update_eq_self]
    simp only [Cpu.run, Cpu.exec, Cpu.push, Cpu.drop, Cpu.set, Cpu.addr, Cpu.top, Function.update_self, load64_store64, hrsp]
  rw [run_append, hstart, run_stores]
  rfl

/-- The flags go through the stack that `rsp` already points to, and `rsi` is loaded last. -/
theorem run_finish (c : Cpu V) : c.run [.pushq 136 .rsi, .popfq, .load 72 .rsi .rsi, .ret] =
    let m := store64 c.mem (c.reg .rsp - 8).toNat (load64 c.mem ((c.reg .rsi).toNat + FLAGS))
    { c with
      reg := fun r =>
        if r = .rsp then c.reg .rsp + 8 else if r = .rsi then load64 m ((c.reg .rsi).toNat + offset .rsi) else c.reg r
      rip := load64 m (c.reg .rsp).toNat
      flags := mix POPF c.flags (load64 c.mem ((c.reg .rsi).toNat + FLAGS))
      mem := m } := by
  have hrsp : ∀ (f : Reg → Word) w, update f .rsi w .rsp = f .rsp := fun f w => Function.update_of_ne (by decide) _ _
  simp only [Cpu.run, Cpu.exec, Cpu.push, Cpu.drop, Cpu.set, Cpu.addr, Cpu.top, Function.update_self, load64_store64,
    Function.update_idem, sub_add8, Function.update_eq_self, hrsp]
  refine congrArg (fun f : Reg → Word => ({ c with
    reg := f, rip := _, flags := _, mem := _ } : Cpu V)) (funext fun r => ?_)
  by_cases h1 : r = .rsp
  · rw [if_pos h1, h1, Function.update_self]
  · rw [if_neg h1, Function.update_of_ne h1]
    by_cases h2 : r = .rsi
    · rw [if_pos h2, h2, Function.update_self]
      rfl
    · rw [if_neg h2, Function.update_of_ne h2]

theorem run_switch : c.run SwitchFiberContext =
    { c with
      reg := fun r =>
        if r = .rsp then load64 (savedMem c) ((c.reg .rsi).toNat + offset .rsp) + 8
        else if r = .rsi then load64 (loadedMem c) ((c.reg .rsi).toNat + offset .rsi)
        else load64 (savedMem c) ((c.reg .rsi).toNat + offset r)
      rip := load64 (loadedMem c) (load64 (savedMem c) ((c.reg .rsi).toNat + offset .rsp)).toNat
      flags := mix POPF c.flags (load64 (savedMem c) ((c.reg .rsi).toNat + FLAGS))
      mem := loadedMem c } := by
  have hmem : ∀ r, r ≠ .rsi → r ∈ loaded := fun r => by cases r <;> decide
  have hrsi : .rsi ∉ loaded := by decide
  rw [switch_eq, run_append, run_append, run_save, run_loads loaded _ hrsi, run_finish]
  simp only [if_pos (hmem .rsp (by decide)), if_neg hrsi]
  refine congrArg (fun f : Reg → Word => ({ c with
    reg := f, rip := _, flags := _, mem := _ } : Cpu V)) (funext fun r => ?_)
  by_cases h1 : r = .rsp
  · rw [if_pos h1, if_pos h1]
  · rw [if_neg h1, if_neg h1]
    by_cases h2 : r = .rsi
    · rw [if_pos h2, if_pos h2]
      rfl
    · rw [if_neg h2, if_neg h2, if_pos (hmem r h2)]

/-! ### The handler -/

/-- The memory when the handler returns. -/
def tickMem (A : Area) (junk : Mem) (c : Cpu V) : Mem :=
  let m := copyOut (scribble A.lo ((c.reg .rsp).toNat - 128) junk c.mem) A.ctx (gregs c)
  store64 (store64 m (c.reg .rsp - 8).toNat c.rip) (A.ctx + offset .rsp) (c.reg .rsp - 8)

theorem load_copyOut (m : Mem) (ctx : ℕ) (g : ℕ → Word) {k : ℕ} (hk : k < 18) : load64 (copyOut m ctx g) (ctx + 8 * k) = g k :=
  load_writeWords (fun i j => by omega) (fun i j h => by rw [show i = j by omega]) (Or.inl (List.mem_range.mpr hk))

theorem gregs_greg (r : Reg) : gregs c (greg r) = c.reg r := by cases r <;> rfl

theorem tick_eq (A B : Area) (junk : Mem) : tick A B junk c =
    { reg := fun r =>
        if r = .rsp then load64 (tickMem A junk c) (B.ctx + offset .rsp) + 8
        else load64 (tickMem A junk c) (B.ctx + offset r)
      rip := load64 (tickMem A junk c) (load64 (tickMem A junk c) (B.ctx + offset .rsp)).toNat
      flags := mix SIGRETURN c.flags (load64 (tickMem A junk c) (B.ctx + FLAGS))
      vec := c.vec
      mem := tickMem A junk c } := by
  have hrsp : ∀ m, load64 (copyOut m A.ctx (gregs c)) (A.ctx + offset .rsp) = c.reg .rsp := fun m =>
    load_copyOut m A.ctx (gregs c) (k := 15) (by omega)
  have hrip : ∀ m, load64 (copyOut m A.ctx (gregs c)) (A.ctx + RIP) = c.rip := fun m =>
    load_copyOut m A.ctx (gregs c) (k := 16) (by omega)
  have hsched : fiberSched A.ctx B.ctx (scribble A.lo ((c.reg .rsp).toNat - 128) junk c.mem) (gregs c) =
      (tickMem A junk c, update (update (copyIn (tickMem A junk c) B.ctx (gregs c)) 16
        (load64 (tickMem A junk c) (load64 (tickMem A junk c) (B.ctx + offset .rsp)).toNat)) 15
        (load64 (tickMem A junk c) (B.ctx + offset .rsp) + 8)) := by
    simp only [fiberSched, hrsp, hrip]
    rfl
  unfold tick
  rw [hsched]
  refine congrArg (fun f : Reg → Word => ({ reg := f, rip := _, flags := _, vec := _, mem := _ } : Cpu V)) (funext fun r => ?_)
  show update (update (copyIn (tickMem A junk c) B.ctx (gregs c)) 16 _) 15 _ (greg r) = _
  by_cases hr : r = .rsp
  · rw [if_pos hr, hr]
    show update (update (copyIn (tickMem A junk c) B.ctx (gregs c)) 16 _) 15 _ 15 = _
    rw [Function.update_self]
  · have h15 : greg r ≠ 15 := fun hn => hr (by revert hn; cases r <;> decide)
    have hlt : greg r < 16 := greg_lt r
    rw [if_neg hr, Function.update_of_ne h15, Function.update_of_ne hlt.ne, copyIn, if_pos (by show _ < 18; omega), offset_eq]

/-! ### What the switches leave alone -/

variable {c} {A B : Area} {how : Switch} {junk m : Mem}

theorem Area.word_ctx (A : Area) {o k : ℕ} (ho : o + 8 ≤ SIZE) (hk : k < 8) : A.Owns (A.ctx + o + k) :=
  Or.inl ⟨by omega, by omega⟩

theorem Area.word_reg (A : Area) (r : Reg) {k : ℕ} (hk : k < 8) : A.Owns (A.ctx + offset r + k) := by
  have hle := offset_le r
  have hlayout := layout
  exact A.word_ctx (by omega) hk

theorem Area.word_stack {a k : ℕ} (hlo : A.lo ≤ a) (hhi : a + 8 ≤ A.hi) (hk : k < 8) : A.Owns (a + k) :=
  Or.inr ⟨by omega, by omega⟩

theorem savedMem_frame (h : Leaves .yield A B c) {x : ℕ} (hx : ¬ A.Owns x) : savedMem c x = c.mem x := by
  obtain ⟨hctx, -, hlo, hhi⟩ := h
  obtain ⟨hrecord, hstack⟩ := not_or.mp hx
  have hsub := toNat_sub8 (w := c.reg .rsp) (by omega)
  have hlayout := layout
  unfold savedMem
  rw [writeWords_frame (n := RIP) (by omega) fun r _ => offset_le r, store64_frame _ (by omega), store64_frame _ (by omega)]

theorem tickMem_frame (h : Leaves .tick A B c) {x : ℕ} (hx : ¬ A.Owns x) : tickMem A junk c x = c.mem x := by
  obtain ⟨hlo, hhi⟩ := h
  obtain ⟨hrecord, hstack⟩ := not_or.mp hx
  have hsub := toNat_sub8 (w := c.reg .rsp) (by omega)
  have hlayout := layout
  unfold tickMem
  rw [store64_frame _ (by omega), store64_frame _ (by omega), copyOut,
    writeWords_frame (n := SIZE) (by omega) (fun k hk => by have := List.mem_range.mp hk; omega), scribble, if_neg (by omega)]

/-- Words of the fiber that is switched to, while the registers are saved. -/
theorem load_savedMem (h : Leaves .yield A B c) (hBA : B.Apart A) {a : ℕ} (ha : ∀ k < 8, B.Owns (a + k)) :
    load64 (savedMem c) a = load64 c.mem a :=
  load64_congr fun k hk => savedMem_frame h (hBA _ (ha k hk))

theorem load_tickMem (h : Leaves .tick A B c) (hBA : B.Apart A) {a : ℕ} (ha : ∀ k < 8, B.Owns (a + k)) :
    load64 (tickMem A junk c) a = load64 c.mem a :=
  load64_congr fun k hk => tickMem_frame h (hBA _ (ha k hk))

/-! ### Going on -/

/-- The registers are those of the record of `A`, with the address to go on at from the stack. -/
structure Resumes (how : Switch) (A : Area) (m : Mem) (c : Cpu V) : Prop where
  reg : ∀ r, r ≠ .rsp → c.reg r = load64 m (A.ctx + offset r)
  rsp : c.reg .rsp = load64 m (A.ctx + offset .rsp) + 8
  rip : c.rip = load64 m (load64 m (A.ctx + offset .rsp)).toNat
  flags : c.flags &&& how.flags = load64 m (A.ctx + FLAGS) &&& how.flags

theorem transfer_resumes (hBA : B.Apart A) (h : Leaves how A B c) (hp : B.Parked c.mem) :
    Resumes how B c.mem (transfer how A B junk c) := by
  obtain ⟨hlo, hhi⟩ := hp
  have hlayout := layout
  have hctx : ∀ r, ∀ k < 8, B.Owns (B.ctx + offset r + k) := fun r k hk => B.word_reg r hk
  have hflags : ∀ k < 8, B.Owns (B.ctx + FLAGS + k) := fun k hk => B.word_ctx (by omega) hk
  have hstack : ∀ k < 8, B.Owns ((load64 c.mem (B.ctx + offset .rsp)).toNat + k) := fun k hk =>
    Area.word_stack (by omega) hhi hk
  cases how with
  | yield =>
    have hrsi := h.2.1
    have hsub := toNat_sub8 (w := load64 c.mem (B.ctx + offset .rsp)) (by omega)
    -- the flags go below the saved `rsp`
    have hloaded : ∀ {a}, (∀ k < 8, B.Owns (a + k)) → a + 8 ≤ (load64 c.mem (B.ctx + offset .rsp)).toNat - 8 ∨
        (load64 c.mem (B.ctx + offset .rsp)).toNat ≤ a → load64 (loadedMem c) a = load64 c.mem a := fun ha hne => by
      unfold loadedMem
      rw [hrsi, load_savedMem h hBA (hctx .rsp), load64_store64_ne _ (by omega), load_savedMem h hBA ha]
    have hrecord : load64 (loadedMem c) (B.ctx + offset .rsi) = load64 c.mem (B.ctx + offset .rsi) := by
      refine hloaded (hctx .rsi) ?_
      have happart := B.apart
      omega
    show Resumes .yield B c.mem (c.run SwitchFiberContext)
    rw [run_switch]
    refine ⟨fun r hr => ?_, ?_, ?_, ?_⟩
    · simp only [if_neg hr, hrsi]
      split_ifs with h2
      · rw [h2, hrecord]
      · exact load_savedMem h hBA (hctx r)
    · simp only [if_true, hrsi, load_savedMem h hBA (hctx .rsp)]
    · simp only [hrsi, load_savedMem h hBA (hctx .rsp)]
      exact hloaded hstack (Or.inr le_rfl)
    · simp only [hrsi, load_savedMem h hBA hflags]
      exact mix_and (by decide) _ _
  | tick =>
    show Resumes .tick B c.mem (tick A B junk c)
    rw [tick_eq]
    refine ⟨fun r hr => ?_, ?_, ?_, ?_⟩
    · simp only [if_neg hr]
      exact load_tickMem h hBA (hctx r)
    · simp only [if_true, load_tickMem h hBA (hctx .rsp)]
    · simp only [load_tickMem h hBA (hctx .rsp)]
      exact load_tickMem h hBA hstack
    · simp only [load_tickMem h hBA hflags]
      exact mix_and (by decide) _ _

/-! ### Stopping -/

/-- The registers of `c` are in the record of `A`, with the address to go on at on the stack. -/
structure Saved (A : Area) (m : Mem) (c : Cpu V) : Prop where
  reg : ∀ r, r ≠ .rsp → load64 m (A.ctx + offset r) = c.reg r
  rsp : load64 m (A.ctx + offset .rsp) = c.reg .rsp - 8
  rip : load64 m (c.reg .rsp - 8).toNat = c.rip
  flags : load64 m (A.ctx + FLAGS) &&& POPF = c.flags &&& POPF
  room : A.lo + 16 ≤ (c.reg .rsp).toNat ∧ (c.reg .rsp).toNat ≤ A.hi

theorem Saved.parked (h : Saved A m c) : A.Parked m := by
  have hsub := toNat_sub8 (w := c.reg .rsp) (by have := h.room.1; omega)
  have hroom := h.room
  unfold Area.Parked
  rw [h.rsp]
  omega

/-- Only the record and the stack of the fiber count. -/
theorem Saved.congr (h : Saved A m c) {m' : Mem} (hm : ∀ x, A.Owns x → m' x = m x) : Saved A m' c := by
  have hload : ∀ {a}, (∀ k < 8, A.Owns (a + k)) → load64 m' a = load64 m a := fun ha => load64_congr fun k hk => hm _ (ha k hk)
  have hlayout := layout
  have hctx : ∀ r, ∀ k < 8, A.Owns (A.ctx + offset r + k) := fun r k hk => A.word_reg r hk
  have hsub := toNat_sub8 (w := c.reg .rsp) (by have := h.room.1; omega)
  have hroom := h.room
  refine ⟨fun r hr => by rw [hload (hctx r), h.reg r hr], by rw [hload (hctx .rsp), h.rsp], ?_, ?_, h.room⟩
  · rw [hload fun k hk => Area.word_stack (by omega) (by omega) hk, h.rip]
  · rw [hload fun k hk => A.word_ctx (by omega) hk, h.flags]

/-- What `SwitchFiberContext` puts into the record. -/
theorem savedMem_saved (h : Leaves .yield A B c) : Saved A (savedMem c) (atStop .yield c) := by
  obtain ⟨hctx, -, hlo, hhi⟩ := h
  have hlayout := layout
  have hapart := A.apart
  have hfits := A.fits
  have hsub := toNat_sub8 (w := c.reg .rsp) (by omega)
  have hadd := toNat_add8 (w := c.reg .rsp) (by omega)
  have hrsp : (atStop .yield c).reg .rsp = c.reg .rsp + 8 := by
    show update c.reg .rsp (c.reg .rsp + 8) .rsp = _
    rw [Function.update_self]
  have hrecord : ∀ r, load64 (savedMem c) (A.ctx + offset r) = c.reg r := fun r => by
    unfold savedMem
    rw [hctx]
    refine load_writeWords offset_apart (fun i j hij => by rw [offset_injective hij]) (Or.inl ?_)
    cases r <;> decide
  have hbehind : ∀ {a}, (∀ k < 8, a + k < A.ctx ∨ A.ctx + RIP ≤ a + k) → load64 (savedMem c) a =
      load64 (store64 (store64 c.mem (c.reg .rsp - 8).toNat (c.flags &&& PUSHF)) (A.ctx + FLAGS) (c.flags &&& PUSHF)) a := by
    intro a ha
    unfold savedMem
    rw [hctx]
    exact load64_congr fun k hk => writeWords_frame (n := RIP) (ha k hk) fun r _ => offset_le r
  refine ⟨fun r hr => ?_, ?_, ?_, ?_, ?_⟩
  · rw [hrecord]
    show _ = update c.reg .rsp (c.reg .rsp + 8) r
    rw [Function.update_of_ne hr]
  · rw [hrecord, hrsp, add_sub8]
  · rw [hrsp, add_sub8, hbehind fun k hk => by omega, load64_store64_ne _ (by omega), load64_store64_ne _ (by omega)]
    rfl
  · rw [hbehind fun k hk => by omega, load64_store64]
    exact and_and_of_subset (by decide) _
  · rw [hrsp, hadd]
    omega

/-- What the handler puts into the record, and under `rsp`. -/
theorem tickMem_saved (h : Leaves .tick A B c) : Saved A (tickMem A junk c) (atStop .tick c) := by
  obtain ⟨hlo, hhi⟩ := h
  have hlayout := layout
  have hapart := A.apart
  have hsub := toNat_sub8 (w := c.reg .rsp) (by omega)
  have hrecord : ∀ {k}, k < 18 → k ≠ 15 → load64 (tickMem A junk c) (A.ctx + 8 * k) = gregs c k := fun {k} hk hk' => by
    unfold tickMem
    rw [load64_store64_ne _ (by omega), load64_store64_ne _ (by omega)]
    exact load_copyOut _ _ _ hk
  refine ⟨fun r hr => ?_, load64_store64 _ _ _, ?_, ?_, ?_⟩
  · have hlt : greg r < 16 := greg_lt r
    rw [offset_eq, hrecord (by omega) fun hn => hr (by revert hn; cases r <;> decide), gregs_greg]
    rfl
  · show load64 (tickMem A junk c) (c.reg .rsp - 8).toNat = c.rip
    unfold tickMem
    rw [load64_store64_ne _ (by omega), load64_store64]
  · rw [show A.ctx + FLAGS = A.ctx + 8 * 17 from rfl, hrecord (by omega) (by omega)]
    rfl
  · show A.lo + 16 ≤ (c.reg .rsp).toNat ∧ (c.reg .rsp).toNat ≤ A.hi
    omega

/-- The flags of the fiber that is switched to go over its own stack. -/
theorem loadedMem_frame (hBA : B.Apart A) (h : Leaves .yield A B c) (hp : B.Parked c.mem) {x : ℕ} (hx : ¬ B.Owns x) :
    loadedMem c x = savedMem c x := by
  obtain ⟨hlo, hhi⟩ := hp
  have hsub := toNat_sub8 (w := load64 c.mem (B.ctx + offset .rsp)) (by omega)
  have hstack := (not_or.mp hx).2
  unfold loadedMem
  rw [h.2.1, load_savedMem h hBA fun k hk => B.word_reg .rsp hk]
  exact store64_frame _ (by omega)

theorem transfer_saved (hBA : B.Apart A) (h : Leaves how A B c) (hp : B.Parked c.mem) :
    Saved A (transfer how A B junk c).mem (atStop how c) := by
  cases how with
  | yield =>
    show Saved A (c.run SwitchFiberContext).mem _
    rw [run_switch]
    exact (savedMem_saved h).congr fun x hx => loadedMem_frame hBA h hp fun hB => hBA x hB hx
  | tick =>
    show Saved A (tick A B junk c).mem _
    rw [tick_eq]
    exact tickMem_saved h

/-- A switch is between two fibers. -/
theorem transfer_frame (hBA : B.Apart A) (h : Leaves how A B c) (hp : B.Parked c.mem) {x : ℕ} (hA : ¬ A.Owns x)
    (hB : ¬ B.Owns x) : (transfer how A B junk c).mem x = c.mem x := by
  cases how with
  | yield =>
    show (c.run SwitchFiberContext).mem x = _
    rw [run_switch]
    exact (loadedMem_frame hBA h hp hB).trans (savedMem_frame h hA)
  | tick =>
    show (tick A B junk c).mem x = _
    rw [tick_eq]
    exact tickMem_frame h hA

/-- The fiber goes on with the registers of the stop. -/
structure Resumed (how : Switch) (c c' : Cpu V) : Prop where
  reg : ∀ r, c'.reg r = c.reg r
  rip : c'.rip = c.rip
  flags : c'.flags &&& how.flags = c.flags &&& how.flags

theorem Saved.resumed {c' : Cpu V} (h : Saved A m c) (h' : Resumes how A m c') : Resumed how c c' := by
  have hsub : how.flags &&& POPF = how.flags := by cases how <;> rfl
  refine ⟨fun r => ?_, ?_, ?_⟩
  · by_cases hr : r = .rsp
    · rw [hr, h'.rsp, h.rsp, sub_add8]
    · rw [h'.reg r hr, h.reg r hr]
  · rw [h'.rip, h.rsp, h.rip]
  · rw [h'.flags, ← and_and_of_subset hsub, h.flags, and_and_of_subset hsub]

end

end Registers
end PFibers
end OsLabs
