/-
# Refused system calls

What `malloc` and `realloc` do when the kernel refuses the `mmap` or the `mremap`. The stubs of
`syscall.S` pass on what the kernel has put into `rax`, which is `-errno` and can be each of
the last 4095 addresses. `malloc` does not look at it, and `realloc` compares it with `-1`, which
is one of them.

`mallocOn` and `reallocOn` are the two functions with the system call as a parameter: the kernel
grants it in `malloc` and `realloc` and refuses it here.

Key definitions: `Call.refused`, `answer`, `Harmless`.
-/
import OsLabs.Lib.Except
import OsLabs.Memory.Malloc

namespace OsLabs
namespace Memory

open Run
open Function (update)

/-- The error numbers that the kernel has. -/
abbrev Errno := { e : ℕ // 0 < e ∧ e ≤ 4095 }

/-- An address space whose pages are the user's: those of the upper half are not the program's. -/
abbrev UserVm := { v : Vm // ∀ q, v.mapped q = true → q < PAGES }

section

variable (v : Vm)

/-- The kernel refuses: it leaves the address space as it is. -/
def refuse (e : Errno) : Except Fault (Vm × ℕ) := .ok (v, failed e.1)

/-- `malloc` on what `mmap` has done with the length. -/
def mallocOn (mmap : ℕ → Except Fault (Vm × ℕ)) (size : Word) : Except Fault (Vm × ℕ) := do
  let (v, ptr) ← mmap (size + 8).toNat
  let v ← v.store ptr (size + 8)
  return (v, ptr + 8)

/-- `realloc` on what `mremap` has done with the old address and the two lengths. -/
def reallocOn (mremap : ℕ → ℕ → ℕ → Except Fault (Vm × ℕ)) (ptr : ℕ) (size : Word) : Except Fault (Vm × ℕ) := do
  let allocatedSize ← v.load (ptr - 8)
  let (v, newPtr) ← mremap (ptr - 8) allocatedSize.toNat (size + 8).toNat
  if newPtr = MAP_FAILED then return (v, 0)
  let v ← v.store newPtr (size + 8)
  return (v, newPtr + 8)

theorem malloc_on (size : Word) (grant : Option ℕ) :
    malloc v size grant = mallocOn (fun length => mmap v length grant) size := rfl

theorem realloc_on (ptr : ℕ) (size : Word) (grant : Option ℕ) :
    realloc v ptr size grant = reallocOn v (fun a m n => mremap v a m n grant) ptr size := rfl

/-- The two functions that can be refused. -/
inductive Call
  | malloc
  | realloc (ptr : ℕ)

/-- The call with this size when the kernel refuses its system call. -/
def Call.refused (c : Call) (size : Word) (e : Errno) : Except Fault (Vm × ℕ) :=
  match c with
  | .malloc => mallocOn (fun _ => refuse v e) size
  | .realloc ptr => reallocOn v (fun _ _ _ => refuse v e) ptr size

/-- The header that the call reads first can be read. -/
def Call.Readable : Call → Prop
  | .malloc => True
  | .realloc ptr => ∃ header, v.load (ptr - 8) = .ok header

end

/-- The call has returned `NULL`, and every page and every byte is what it was. -/
def Harmless (v : Vm) (r : Except Fault (Vm × ℕ)) : Prop := r = .ok (v, 0)

/-- The one refusal that is recognised: `-EPERM` is `MAP_FAILED`. -/
def Call.Spared (e : Errno) : Call → Prop
  | .malloc => False
  | .realloc _ => e.1 = 1

/-! ### The two functions -/

section

variable {v : Vm}

/-- What the kernel returns for an error is an address of the last page, which nobody has. -/
theorem store_failed (hv : ∀ q, v.mapped q = true → q < PAGES) (e : Errno) (w : Word) :
    v.store (failed e.1) w = .error .segv := by
  obtain ⟨e, hpos, hle⟩ := e
  have hlast : PAGES ≤ failed e / PAGE := by
    unfold failed PAGE PAGES
    omega
  have hunmapped : v.mapped (failed e / PAGE) = false := by
    by_contra hn
    exact absurd (hv _ (Bool.not_eq_false _ ▸ hn)) (by omega)
  simp [Vm.store, hunmapped]

theorem failed_eq_iff (e : Errno) : failed e.1 = MAP_FAILED ↔ e.1 = 1 := by
  obtain ⟨e, hpos, hle⟩ := e
  unfold failed MAP_FAILED
  omega

theorem mallocOn_refuse (hv : ∀ q, v.mapped q = true → q < PAGES) (size : Word) (e : Errno) :
    mallocOn (fun _ => refuse v e) size = .error .segv := by
  show (v.store (failed e.1) (size + 8) >>= fun v => Except.ok (v, failed e.1 + 8)) = _
  rw [store_failed hv, error_bind]

theorem reallocOn_refuse (hv : ∀ q, v.mapped q = true → q < PAGES) {ptr : ℕ} {header : Word}
    (hload : v.load (ptr - 8) = .ok header) (size : Word) (e : Errno) :
    reallocOn v (fun _ _ _ => refuse v e) ptr size = if e.1 = 1 then .ok (v, 0) else .error .segv := by
  unfold reallocOn
  rw [hload, ok_bind]
  show (if failed e.1 = MAP_FAILED then Except.ok (v, 0)
    else v.store (failed e.1) (size + 8) >>= fun v => .ok (v, failed e.1 + 8)) = _
  rw [store_failed hv, error_bind]
  simp only [failed_eq_iff]

/-- Every refusal but the one that is recognised ends in an access to the address `-errno`. -/
theorem Call.refused_eq (hv : ∀ q, v.mapped q = true → q < PAGES) (size : Word) (e : Errno) :
    ∀ {c : Call}, c.Readable v →
      (c.Spared e → c.refused v size e = .ok (v, 0)) ∧ (¬ c.Spared e → c.refused v size e = .error .segv)
  | .malloc, _ => ⟨False.elim, fun _ => mallocOn_refuse hv size e⟩
  | .realloc ptr, ⟨header, hload⟩ => by
    have hcall := reallocOn_refuse hv hload size e
    exact ⟨fun h => hcall.trans (if_pos h), fun h => hcall.trans (if_neg h)⟩

theorem Call.harmless_iff (hv : ∀ q, v.mapped q = true → q < PAGES) (size : Word) (e : Errno) {c : Call}
    (hc : c.Readable v) : Harmless v (c.refused v size e) ↔ c.Spared e := by
  obtain ⟨hspared, hsegv⟩ := Call.refused_eq hv size e hc
  refine ⟨fun h => ?_, hspared⟩
  by_contra hn
  unfold Harmless at h
  rw [hsegv hn] at h
  cases h

end

/-! ### The client -/

/-- A call that is granted or another event of the client, or a call that is refused. -/
inductive Request
  | granted (e : Event)
  | refused (c : Call) (size : Word) (e : Errno)

/-- The client may reallocate a live block. -/
def Call.Allowed (s : State) : Call → Prop
  | .malloc => True
  | .realloc ptr => (s.live ptr).isSome = true

instance (s : State) : DecidablePred (Call.Allowed s)
  | .malloc => inferInstanceAs (Decidable True)
  | .realloc _ => inferInstanceAs (Decidable (_ = _))

/-- A refused call that comes back leaves the blocks that there are. -/
def answer (s : State) : Request → Except Fault State
  | .granted e => step s e
  | .refused c size e =>
    if c.Allowed s then do
      let (vm, p) ← c.refused s.vm size e
      return { s with vm := vm, ret := p }
    else .error .client

/-- The request does what the client may rely on: a granted one has its effect, and a refused one returns `NULL` and
leaves the memory and the live blocks as they are. -/
def Answered (s : State) : Request → Prop
  | .granted e => Sat (Effect s e) (· ≠ .segv) (step s e)
  | .refused c size e =>
    Sat (fun s' => s'.ret = 0 ∧ s'.vm = s.vm ∧ s'.live = s.live ∧ s'.other = s.other) (· ≠ .segv)
      (answer s (.refused c size e))

/-- If the request is refused, the refusal is recognised. -/
def Request.Spared (s : State) : Request → Prop
  | .granted _ => True
  | .refused c _ e => c.Allowed s → c.Spared e

/-- What every request preserves. -/
structure Heap (s : State) : Prop extends Inv s where
  user : ∀ q, s.other q = true → q < PAGES

section

variable {s : State}

theorem Heap.init (vm : UserVm) : Heap (init vm.1) := ⟨init_inv vm.1, vm.2⟩

theorem Heap.vm_user (h : Heap s) (q : ℕ) (hq : s.vm.mapped q = true) : q < PAGES := by
  rcases (h.mapped q).mp hq with hother | ⟨a, size, hl, hb⟩
  · exact h.user q hother
  · obtain ⟨p, rfl, hfits⟩ := h.shape a size hl
    rw [block_ptr] at hb
    unfold Within at hb
    omega

theorem Heap.readable (h : Heap s) : ∀ {c : Call}, c.Allowed s → c.Readable s.vm
  | .malloc, _ => trivial
  | .realloc ptr, hc => by
    obtain ⟨size, hl⟩ := Option.isSome_iff_exists.mp hc
    exact ⟨size.1 + 8, h.load_header hl⟩

/-- Only what other code maps changes its pages, and the kernel puts that into the user's half. -/
theorem step_user {e : Event} {s' : State} (h : ∀ q, s.other q = true → q < PAGES) (hs : step s e = .ok s') :
    ∀ q, s'.other q = true → q < PAGES := by
  cases e with
  | malloc size page =>
    obtain ⟨_, _, hs⟩ := of_bind_ok hs
    cases hs
    exact h
  | realloc ptr size page | free ptr =>
    simp only [step] at hs
    split at hs
    · cases hs
    · obtain ⟨_, _, hs⟩ := of_bind_ok hs
      cases hs
      exact h
  | write ptr off value =>
    simp only [step] at hs
    split at hs
    · cases hs
    · split_ifs at hs
      cases hs
      exact h
  | mapOther page =>
    simp only [step] at hs
    split_ifs at hs with hfree
    cases hs
    intro q hq
    by_cases hqp : q = page
    · have := hfree.1
      omega
    · exact h q (by rwa [← Function.update_of_ne hqp true s.other])
  | unmapOther page =>
    simp only [step] at hs
    split_ifs at hs with hpage
    cases hs
    intro q hq
    by_cases hqp : q = page
    · exact h q (hqp ▸ hpage)
    · exact h q (by rwa [← Function.update_of_ne hqp false s.other])

/-- What the client sees of a request that is granted, or refused in the way that is recognised. -/
theorem Heap.answered (h : Heap s) : ∀ {r : Request}, r.Spared s →
    Answered s r ∧ Sat Heap (· ≠ .segv) (answer s r)
  | .granted e, _ => by
    have hstep : Sat (fun s' => Inv s' ∧ Effect s e s') (· ≠ .segv) (step s e) := Inv.step h.toInv e
    refine ⟨hstep.mono (fun _ h => h.2) fun _ => id, ?_⟩
    cases hs : step s e with
    | ok s' =>
      rw [hs] at hstep
      rw [answer, hs]
      exact ⟨hstep.1, step_user h.user hs⟩
    | error x =>
      rw [hs] at hstep
      rw [answer, hs]
      exact hstep
  | .refused c size e, hspared => by
    by_cases hc : c.Allowed s
    · have hok := (Call.refused_eq h.vm_user size e (h.readable hc)).1 (hspared hc)
      simp only [Answered, answer, if_pos hc, hok]
      exact ⟨⟨rfl, rfl, rfl, rfl⟩, ⟨⟨h.shape, h.header, h.apart, h.mapped, h.foreign⟩, h.user⟩⟩
    · simp only [Answered, answer, if_neg hc]
      exact ⟨nofun, nofun⟩

end

/-- **Refused calls.** Whatever the address space holds, a call whose system call is refused returns `NULL` and
touches nothing if and only if it is a `realloc` that is refused with `EPERM`, and in every run of a client in
which each refusal is one of these, every request is answered as the client may rely on and the heap stays sound. -/
theorem refused_calls (v : UserVm) :
    (∀ (c : Call) (size : Word) (e : Errno), c.Readable v.1 → (Harmless v.1 (c.refused v.1 size e) ↔ c.Spared e)) ∧
      ∀ rs : List Request, Along answer (fun s r => r.Spared s) (init v.1) rs →
        Along answer Answered (init v.1) rs ∧ Sat Sound (· ≠ .segv) (run answer (init v.1) rs) := by
  refine ⟨fun c size e hc => Call.harmless_iff v.2 size e hc, fun rs hrs => ⟨?_, ?_⟩⟩
  · refine along_inv (fun s r h hr => ?_) rs (Heap.init v) hrs
    obtain ⟨hans, hnext⟩ := h.answered hr
    exact ⟨hans, hnext.mono (fun _ => id) fun _ _ => trivial⟩
  · have hrun := run_sat (fun s r (h : Heap s) hr => (h.answered hr).2) rs (Heap.init v) hrs
    exact hrun.mono (fun _ h => h.toInv.sound) fun _ => id

/-- An address space without a page. -/
def noPages : UserVm := ⟨⟨fun _ => false, fun _ => 0⟩, fun _ => nofun⟩

/-- A block is allocated and cannot grow, for the reason `e`. -/
def grow (e : Errno) : List Request := [.granted (.malloc ⟨16, by decide⟩ 1), .refused (.realloc 4104) (2 ^ 46) e]

theorem refused_calls_eperm :
    Sat Sound (· ≠ .segv) (run answer (init noPages.1) (grow ⟨1, by decide⟩)) ∧
      ¬ Harmless noPages.1 (Call.malloc.refused noPages.1 (2 ^ 46) ⟨1, by decide⟩) := by
  have hspared : Along answer (fun s r => r.Spared s) (init noPages.1) (grow ⟨1, by decide⟩) := by
    refine ⟨trivial, ?_⟩
    cases answer (init noPages.1) (.granted (.malloc ⟨16, by decide⟩ 1)) with
    | error x => trivial
    | ok s =>
      refine ⟨fun _ => rfl, ?_⟩
      cases answer s (.refused (.realloc 4104) (2 ^ 46) ⟨1, by decide⟩) <;> trivial
  exact ⟨((refused_calls noPages).2 _ hspared).2, ((refused_calls noPages).1 .malloc _ _ trivial).mp⟩

/-- Out of memory, both functions write to the address `-ENOMEM`. -/
theorem refused_segv :
    ¬ Answered (init noPages.1) (.refused .malloc (2 ^ 46) ⟨ENOMEM, by decide⟩) ∧
      failure (run answer (init noPages.1) (grow ⟨ENOMEM, by decide⟩)) = some .segv := by
  constructor
  · intro h
    exact h rfl
  · decide +kernel

end Memory
end OsLabs
