/-
# The descriptors of the lookups

`AddrToName` opens the program's image, maps it, and does not close it again. So every lookup takes a descriptor: `Backtrace`
makes one lookup for each address that it stores, and `PrintBt` one more for each. When the process has no descriptor left,
`open` returns -1, `mmap` returns `MAP_FAILED`, and `e_shoff` is read there.

The array of `Backtrace` is one with room for what it stores.

Key definitions: `addrToName`, `step`, `Call.Looks`.
Key theorem: `calls_keep_iff`.
-/
import OsLabs.Lib.Fds
import OsLabs.Lib.Run
import OsLabs.Elf.Backtrace

namespace OsLabs
namespace Elf
namespace Descriptors

open Fds Run

/-- What ends the process. -/
inductive Stop
  -- a fault in the image that is mapped
  | image (x : Fault)
  -- a read at `MAP_FAILED`
  | mapFailed
  deriving DecidableEq, Repr

/-- A descriptor refers to the bytes of a file. -/
abbrev Files := Fds.Table Image

/-- What a lookup finds. -/
abbrev Name := Option (List Byte)

/-- The calls of a program. A call of `Backtrace` finds its own stack. -/
inductive Call
  | backtrace (stack : Stack) (rbp : Addr) (limit : ℤ)
  | addrToName (addr : Addr)
  | printBt (stack : Stack) (rbp : Addr)

/-- `PrintBt` has an array of so many places. -/
def MAX_BT : ℤ := 10

section

variable (image : Image) (limit : ℕ)

/-- `open("/proc/self/exe", O_RDONLY)`, where descriptors are below `limit`; `none` is -1. -/
def openSelf (t : Files) : Option ℕ × Files :=
  if lowest t < limit then (some (lowest t), (alloc t image).1) else (none, t)

/-- `mmap`; `none` is `MAP_FAILED`. -/
def mmap (t : Files) (fd : Option ℕ) : Option Image := fd.bind (get t)

/-- There is no `close`. -/
def addrToName (t : Files) (addr : Addr) : Except Stop (Name × Files) :=
  let (fd, t) := openSelf image limit t
  match mmap t fd with
  | none => .error .mapFailed
  | some self =>
    match Elf.addrToName self addr with
    | .ok name => .ok (name, t)
    | .error x => .error (.image x)

/-- The loop of `Backtrace`, of which `left` rounds are left before `last` is the limit. -/
def backtraceLoop (stack : Stack) : ℕ → ℤ → Addr → List (ℤ × Addr) → Files →
    Except Stop ((List (ℤ × Addr) × ℤ) × Files)
  | 0, last, _, stores, t => .ok ((stores, last + 1), t)
  | left + 1, last, rbp, stores, t => do
    let stores := stores ++ [(last + 1, stack (rbp + 8))]
    let (name, t) ← addrToName image limit t (stack (rbp + 8))
    if name = some main' then .ok ((stores, last + 1 + 1), t)
    else backtraceLoop stack left (last + 1) (stack rbp) stores t

def backtrace (stack : Stack) (rbp : Addr) (n : ℤ) (t : Files) : Except Stop ((List (ℤ × Addr) × ℤ) × Files) :=
  backtraceLoop image limit stack (n + 1).toNat (-1) rbp [] t

/-- The lines that are printed. -/
def printLoop : List Addr → Files → Except Stop (List (Addr × Name) × Files)
  | [], t => .ok ([], t)
  | addr :: rest, t => do
    let (name, t) ← addrToName image limit t addr
    let (lines, t) ← printLoop rest t
    .ok ((addr, name) :: lines, t)

def printBt (stack : Stack) (rbp : Addr) (t : Files) : Except Stop (List (Addr × Name) × Files) := do
  let ((stores, _), t) ← backtrace image limit stack rbp MAX_BT t
  printLoop image limit (stores.map Prod.snd) t

def step (t : Files) : Call → Except Stop Files
  | .backtrace stack rbp n => do
    let (_, t) ← backtrace image limit stack rbp n t
    .ok t
  | .addrToName addr => do
    let (_, t) ← addrToName image limit t addr
    .ok t
  | .printBt stack rbp => do
    let (_, t) ← printBt image limit stack rbp t
    .ok t

/-- What `AddrToName` says, if it returns. -/
def answer (t : Files) (addr : Addr) : Except Stop Name := (addrToName image limit t addr).map Prod.fst

end

/-- Whether the call looks up a name. -/
def Call.Looks : Call → Prop
  | .backtrace _ _ n => 0 ≤ n
  | _ => True

instance : DecidablePred Call.Looks
  | .backtrace _ _ n => inferInstanceAs (Decidable (0 ≤ n))
  | .addrToName _ => .isTrue trivial
  | .printBt _ _ => .isTrue trivial

/-! ### What a lookup leaves behind -/

section

variable {image : Image} {limit : ℕ} {t t' t'' : Files} {addr : Addr} {name : Name} {stack : Stack} {k k' : ℕ}

/-- `k` more descriptors are open. -/
structure Grown (limit k : ℕ) (t t' : Files) : Prop where
  kept : opened t ⊆ opened t'
  taken : free limit t' + k = free limit t

theorem Grown.refl (t : Files) : Grown limit 0 t t := ⟨subset_rfl, rfl⟩

theorem Grown.trans (h : Grown limit k t t') (h' : Grown limit k' t' t'') : Grown limit (k + k') t t'' where
  kept := h.kept.trans h'.kept
  taken := by
    have h1 := h.taken
    have h2 := h'.taken
    omega

/-- A process that has the same descriptors has made no lookup. -/
theorem Grown.eq_zero (h : Grown limit k t t') (ho : opened t' = opened t) : k = 0 := by
  have htaken := h.taken
  rw [free_congr ho] at htaken
  omega

theorem addrToName_full (h : ¬ lowest t < limit) (addr : Addr) : addrToName image limit t addr = .error .mapFailed := by
  unfold addrToName openSelf
  rw [if_neg h]
  rfl

theorem addrToName_free (h : lowest t < limit) (addr : Addr) : addrToName image limit t addr =
    match Elf.addrToName image addr with
    | .ok name => .ok (name, (alloc t image).1)
    | .error x => .error (.image x) := by
  have hself : mmap (alloc t image).1 (some (lowest t)) = some image := get_alloc_self t image
  unfold addrToName openSelf
  rw [if_pos h]
  dsimp only
  rw [hself]

/-- A lookup that comes back has given the name, and has taken a descriptor. -/
theorem addrToName_grown (h : addrToName image limit t addr = .ok (name, t')) :
    Elf.addrToName image addr = .ok name ∧ Grown limit 1 t t' := by
  by_cases hfree : lowest t < limit
  · rw [addrToName_free hfree] at h
    cases hname : Elf.addrToName image addr with
    | ok found =>
      rw [hname] at h
      obtain ⟨rfl, rfl⟩ := Prod.mk.inj (Except.ok.inj h)
      exact ⟨rfl, opened_alloc t image, free_alloc image hfree⟩
    | error x =>
      rw [hname] at h
      exact absurd h nofun
  · rw [addrToName_full hfree] at h
    exact absurd h nofun

/-- What `AddrToName` says depends on whether a descriptor is free, and on nothing else. -/
theorem answer_eq (t : Files) (addr : Addr) : answer image limit t addr =
    if 0 < free limit t then (Elf.addrToName image addr).mapError .image else .error .mapFailed := by
  unfold answer
  split_ifs with hfree
  · rw [addrToName_free ((free_pos limit t).mp hfree)]
    cases Elf.addrToName image addr <;> rfl
  · rw [addrToName_full fun hn => hfree ((free_pos limit t).mpr hn)]
    rfl

/-- One descriptor for each address that `Backtrace` stores. -/
theorem backtraceLoop_grown : ∀ {left : ℕ} {last : ℤ} {rbp : Addr} {stores : List (ℤ × Addr)} {t : Files}
    {r : List (ℤ × Addr) × ℤ}, backtraceLoop image limit stack left last rbp stores t = .ok (r, t') →
    ∃ k, Grown limit k t t' ∧ r.1.length = stores.length + k ∧ (0 < left → 0 < k)
  | 0, last, rbp, stores, t, r, h => by
    obtain ⟨rfl, rfl⟩ := Prod.mk.inj (Except.ok.inj h)
    exact ⟨0, Grown.refl t, rfl, id⟩
  | left + 1, last, rbp, stores, t, r, h => by
    obtain ⟨⟨name, t₁⟩, hlookup, h⟩ := of_bind_ok h
    have hone := (addrToName_grown hlookup).2
    dsimp only at h
    split_ifs at h with hmain
    · obtain ⟨rfl, rfl⟩ := Prod.mk.inj (Except.ok.inj h)
      exact ⟨1, hone, List.length_append, fun _ => Nat.one_pos⟩
    · obtain ⟨k, hgrown, hlen, -⟩ := backtraceLoop_grown h
      refine ⟨1 + k, hone.trans hgrown, ?_, fun _ => by omega⟩
      rw [hlen, List.length_append, List.length_singleton, Nat.add_assoc]

theorem printLoop_grown : ∀ {addrs : List Addr} {t t' : Files} {lines : List (Addr × Name)},
    printLoop image limit addrs t = .ok (lines, t') → Grown limit addrs.length t t'
  | [], t, t', lines, h => by
    obtain ⟨-, rfl⟩ := Prod.mk.inj (Except.ok.inj h)
    exact Grown.refl t
  | addr :: rest, t, t', lines, h => by
    obtain ⟨⟨name, t₁⟩, hlookup, h⟩ := of_bind_ok h
    obtain ⟨⟨more, t₂⟩, hrest, h⟩ := of_bind_ok h
    obtain ⟨-, rfl⟩ := Prod.mk.inj (Except.ok.inj h)
    have hgrown := (addrToName_grown hlookup).2.trans (printLoop_grown hrest)
    rwa [Nat.add_comm] at hgrown

/-- Two descriptors for each frame. -/
theorem printBt_grown {rbp : Addr} {lines : List (Addr × Name)} (h : printBt image limit stack rbp t = .ok (lines, t')) :
    ∃ k, Grown limit (k + k) t t' ∧ 0 < k := by
  obtain ⟨⟨⟨stores, last⟩, t₁⟩, hwalk, h⟩ := of_bind_ok h
  obtain ⟨k, hgrown, hlen, hpos⟩ := backtraceLoop_grown hwalk
  have hprint := printLoop_grown h
  have hk : (stores.map Prod.snd).length = k := by
    rw [List.length_map]
    exact hlen.trans (Nat.zero_add k)
  rw [hk] at hprint
  exact ⟨k, hgrown.trans hprint, hpos (by decide)⟩

/-- A call that looks up a name and comes back has taken a descriptor. -/
theorem step_grown {c : Call} (h : step image limit t c = .ok t') : ∃ k, Grown limit k t t' ∧ (c.Looks → 0 < k) := by
  cases c with
  | backtrace stack rbp n =>
    obtain ⟨⟨r, t₁⟩, hwalk, h⟩ := of_bind_ok h
    obtain rfl := Except.ok.inj h
    obtain ⟨k, hgrown, -, hpos⟩ := backtraceLoop_grown hwalk
    exact ⟨k, hgrown, fun hn => hpos (by have : 0 ≤ n := hn; omega)⟩
  | addrToName addr =>
    obtain ⟨⟨name, t₁⟩, hlookup, h⟩ := of_bind_ok h
    obtain rfl := Except.ok.inj h
    exact ⟨1, (addrToName_grown hlookup).2, fun _ => Nat.one_pos⟩
  | printBt stack rbp =>
    obtain ⟨⟨lines, t₁⟩, hprint, h⟩ := of_bind_ok h
    obtain rfl := Except.ok.inj h
    obtain ⟨k, hgrown, hpos⟩ := printBt_grown hprint
    exact ⟨k + k, hgrown, fun _ => by omega⟩

/-- A call that looks up nothing does nothing. -/
theorem step_idle {c : Call} (hc : ¬ c.Looks) (t : Files) : step image limit t c = .ok t := by
  cases c with
  | backtrace stack rbp n =>
    have hneg : (n + 1).toNat = 0 := by
      have : ¬ 0 ≤ n := hc
      omega
    simp only [step, backtrace, hneg]
    rfl
  | addrToName addr => exact absurd trivial hc
  | printBt stack rbp => exact absurd trivial hc

/-- The name that a lookup gives, without what it leaves behind. -/
def nameOf (image : Image) (addr : Addr) : Name := (Elf.addrToName image addr).toOption.join

/-- `Backtrace` stores what it stores when every lookup has a descriptor. -/
theorem backtraceLoop_stores {n : ℤ} : ∀ {left fuel : ℕ} {last : ℤ} {rbp : Addr} {stores : List (ℤ × Addr)} {t t' : Files}
    {r : List (ℤ × Addr) × ℤ}, backtraceLoop image limit stack left last rbp stores t = .ok (r, t') → left < fuel →
    left = (n - last).toNat → Elf.backtraceLoop stack (nameOf image) n fuel last rbp stores = some r
  | 0, fuel + 1, last, rbp, stores, t, t', r, h, _, hleft => by
    obtain ⟨rfl, -⟩ := Prod.mk.inj (Except.ok.inj h)
    exact if_neg (by omega)
  | left + 1, fuel + 1, last, rbp, stores, t, t', r, h, hfuel, hleft => by
    obtain ⟨⟨name, t₁⟩, hlookup, h⟩ := of_bind_ok h
    have hname : nameOf image (stack (rbp + 8)) = name := by
      rw [nameOf, (addrToName_grown hlookup).1]
      rfl
    rw [Elf.backtraceLoop, if_pos (by omega)]
    dsimp only at h ⊢
    rw [hname]
    split_ifs at h ⊢ with hmain
    · obtain ⟨rfl, -⟩ := Prod.mk.inj (Except.ok.inj h)
      rfl
    · exact backtraceLoop_stores h (by omega) (by omega)

theorem backtrace_stores {rbp : Addr} {n : ℕ} {r : List (ℤ × Addr) × ℤ} (h : backtrace image limit stack rbp n t = .ok (r, t')) :
    Elf.backtrace stack (nameOf image) rbp n = some r :=
  backtraceLoop_stores h (by omega) (by omega)

/-- A run makes no more calls that look up a name than there were free descriptors. -/
theorem run_bounded : ∀ {cs : List Call} {t : Files}, run (step image limit) t cs = .ok t' →
    cs.countP (·.Looks) + free limit t' ≤ free limit t
  | [], t, h => by
    obtain rfl := Except.ok.inj h
    exact (Nat.zero_add _).le
  | c :: cs, t, h => by
    cases hs : step image limit t c with
    | ok t₁ =>
      rw [run_cons_ok cs hs] at h
      have hrest := run_bounded h
      obtain ⟨k, hgrown, hpos⟩ := step_grown hs
      have htaken := hgrown.taken
      rw [List.countP_cons]
      split_ifs with hc
      · have hk := hpos (of_decide_eq_true hc)
        omega
      · omega
    | error x =>
      rw [run_cons_error cs hs] at h
      exact absurd h nofun

end

/-- The call comes back, with the descriptors that were open, and with `AddrToName` as it was at `t₀`. -/
def Keeps (image : Image) (limit : ℕ) (t₀ t : Files) (c : Call) : Prop :=
  Sat (fun t' => opened t' = opened t ∧ ∀ addr, answer image limit t' addr = answer image limit t₀ addr) (fun _ => False)
    (step image limit t c)

/-- **Descriptors.** Whatever the image, the limit and the descriptors that are open: in a run every call leaves the same
descriptors open as there were before it, and the same answers, if and only if none of the calls looks up a name. -/
theorem calls_keep_iff (image : Image) (limit : ℕ) (t : Files) (cs : List Call) :
    Along (step image limit) (Keeps image limit t) t cs ↔ ∀ c ∈ cs, ¬ c.Looks := by
  have hiff : ∀ t' c, (∀ addr, answer image limit t' addr = answer image limit t addr) →
      (Keeps image limit t t' c ↔ ¬ c.Looks) := by
    intro t' c hsame
    unfold Keeps
    constructor
    · intro hkeeps hlooks
      cases hs : step image limit t' c with
      | ok t₁ =>
        rw [hs] at hkeeps
        obtain ⟨k, hgrown, hpos⟩ := step_grown hs
        exact (hpos hlooks).ne' (hgrown.eq_zero hkeeps.1)
      | error x =>
        rw [hs] at hkeeps
        exact hkeeps
    · intro hidle
      rw [step_idle hidle]
      exact ⟨rfl, hsame⟩
  have hkeep : ∀ t' c t₁, (∀ addr, answer image limit t' addr = answer image limit t addr) → True → Keeps image limit t t' c →
      step image limit t' c = .ok t₁ → ∀ addr, answer image limit t₁ addr = answer image limit t addr := by
    intro t' c t₁ _ _ hkeeps hs
    rw [Keeps, hs] at hkeeps
    exact hkeeps.2
  rw [along_iff hkeep (fun t' c hsame _ => hiff t' c hsame) cs (fun _ => rfl) (along_true cs t)]
  exact along_events_iff fun t' c hc => ⟨t', step_idle hc t'⟩

/-- Standard input, output and error. -/
def stdio : Files := [some [], some [], some []]

/-- One lookup and its descriptor; where four is the limit the second one reads at `MAP_FAILED`. -/
theorem addrToName_twice : ∃ t, step (oneFunction main') 4 stdio (.addrToName 0x1010) = .ok t ∧
    opened t ≠ opened stdio ∧
    answer (oneFunction main') 4 stdio 0x1010 = .ok (some main') ∧
    answer (oneFunction main') 4 t 0x1010 = .error .mapFailed := by
  have hname : Elf.addrToName (oneFunction main') 0x1010 = .ok (some main') := by decide +kernel
  have hfree : lowest stdio < 4 := by decide
  have hone : free 4 stdio = 1 := by decide
  have hlost := free_alloc (oneFunction main') hfree
  refine ⟨(alloc stdio (oneFunction main')).1, ?_, fun ho => ?_, ?_, ?_⟩
  · simp only [step, addrToName_free hfree, hname]
    rfl
  · rw [free_congr ho 4] at hlost
    omega
  · rw [answer_eq, if_pos (by omega), hname]
    rfl
  · rw [answer_eq, if_neg (by omega)]

end Descriptors
end Elf
end OsLabs
