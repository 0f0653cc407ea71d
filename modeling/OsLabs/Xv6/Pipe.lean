/-
# Pipes

`pipe.c`: a pipe is a ring of `PIPESIZE` bytes. `pipewrite` sleeps while it is full and `piperead` while it is empty, and each wakes those
that wait for the other. A call holds `p->lock` from one sleep to the next, so that an event is what one process does in between;
`kill` does not take the lock: it comes at any time, also when a process has looked at `killed` and does not sleep yet.

Bytes are neither lost, doubled nor reordered, also when the counters wrap (`pipe_fifo`). Nobody sleeps who need not, with one exception
(`pipe_asleep`): a writer that is killed when it finds the pipe full returns without a wakeup, and the readers that sleep then go on
sleeping, up to the next wakeup, though there are bytes.

`sent`, `got` and `done` are histories; nobody reads them.

Key definitions: `Pipe`, `State`, `step`, `Missed`.
Key theorems: `pipe_fifo`, `pipe_asleep`.
-/
import OsLabs.Lib.Counters
import OsLabs.Xv6.Vm

namespace OsLabs
namespace Xv6
namespace Pipes

open Function (update)
open Counters

abbrev PIPESIZE : ℕ := 512

theorem fits : Fits 32 PIPESIZE := ⟨by decide, by decide, by decide⟩

structure Pipe where
  data : ℕ → Byte
  nread : Word
  nwrite : Word
  readopen : Bool
  writeopen : Bool

namespace Pipe

/-- What `pipealloc` sets; the data are what was in the page. -/
def alloc (data : ℕ → Byte) : Pipe := ⟨data, 0, 0, true, true⟩

def full (p : Pipe) : Prop := p.nwrite = p.nread + BitVec.ofNat 32 PIPESIZE

def empty (p : Pipe) : Prop := p.nread = p.nwrite

instance (p : Pipe) : Decidable p.full := inferInstanceAs (Decidable (_ = _))

instance (p : Pipe) : Decidable p.empty := inferInstanceAs (Decidable (_ = _))

/-- `p->data[p->nwrite++ % PIPESIZE] = c`. -/
def put (p : Pipe) (c : Byte) : Pipe := { p with data := update p.data (cell PIPESIZE p.nwrite) c, nwrite := p.nwrite + 1 }

/-- `p->data[p->nread++ % PIPESIZE]`. -/
def front (p : Pipe) : Byte := p.data (cell PIPESIZE p.nread)

def drop (p : Pipe) : Pipe := { p with nread := p.nread + 1 }

/-- The bytes in the pipe. -/
def contents (p : Pipe) : List Byte := Counters.contents PIPESIZE p.data p.nread p.nwrite

end Pipe

/-- The loop of `pipewrite` up to where the pipe is full, and what is left then. -/
def fill : List Byte → Pipe → List Byte × Pipe
  | [], p => ([], p)
  | c :: cs, p => if p.full then (c :: cs, p) else fill cs (p.put c)

/-- The loop of `piperead` that copies. -/
def copy : ℕ → Pipe → List Byte × Pipe
  | 0, p => ([], p)
  | n + 1, p =>
    if p.empty then ([], p)
    else (p.front :: (copy n p.drop).1, (copy n p.drop).2)

/-- Where a process is: in front of the lock or asleep, with its arguments and the `i` of `pipewrite`. -/
inductive Pc
  | idle
  | write (addr : List Byte) (i : ℕ)
  | sleepWrite (addr : List Byte) (i : ℕ)
  | read (n : ℕ)
  | sleepRead (n : ℕ)
  deriving DecidableEq

/-- A call that has returned. -/
inductive Done (ι : Type)
  /-- The first `i` bytes of `addr` are in the pipe. -/
  | write (p : ι) (addr : List Byte) (i : ℕ) (ret : ℤ)
  | read (p : ι) (n : ℕ) (bytes : List Byte) (ret : ℤ)

structure State (ι : Type) where
  pipe : Pipe
  pc : ι → Pc
  killed : ι → Bool
  sent : List (ι × Byte)
  got : List (ι × Byte)
  done : List (Done ι)

inductive Event (ι : Type)
  | pipewrite (p : ι) (addr : List Byte)
  | piperead (p : ι) (n : ℕ)
  /-- The process runs, up to where it sleeps or returns; with `late` it is killed after its look at `killed`. -/
  | run (p : ι) (late : Bool)
  | kill (p : ι)
  | pipeclose (writable : Bool)

section

variable {ι : Type} [DecidableEq ι]

/-- `wakeup(&p->nread)`. -/
def wakeReaders (pc : ι → Pc) : ι → Pc := fun j =>
  match pc j with
  | .sleepRead n => .read n
  | x => x

/-- `wakeup(&p->nwrite)`. -/
def wakeWriters (pc : ι → Pc) : ι → Pc := fun j =>
  match pc j with
  | .sleepWrite addr i => .write addr i
  | x => x

/-- `kill` makes a process that sleeps runnable. -/
def Pc.wake : Pc → Pc
  | .sleepWrite addr i => .write addr i
  | .sleepRead n => .read n
  | x => x

/-- What `sleep` finds in `killed` when it has the lock of the table. -/
def asleep (killed : ι → Bool) (p : ι) (late : Bool) : ι → Bool := if late then update killed p true else killed

def runWrite (s : State ι) (p : ι) (late : Bool) (addr : List Byte) (i : ℕ) : State ι :=
  let (rest, pipe) := fill (addr.drop i) s.pipe
  let i' := addr.length - rest.length
  let s := { s with pipe := pipe, sent := s.sent ++ ((addr.drop i).take (i' - i)).map fun c => (p, c) }
  if rest = [] then
    { s with pc := update (wakeReaders s.pc) p .idle, done := s.done ++ [.write p addr i' addr.length] }
  else if pipe.readopen = false ∨ s.killed p = true then
    { s with pc := update s.pc p .idle, done := s.done ++ [.write p addr i' (-1)] }
  else { s with pc := update (wakeReaders s.pc) p (.sleepWrite addr i'), killed := asleep s.killed p late }

def runRead (s : State ι) (p : ι) (late : Bool) (n : ℕ) : State ι :=
  if s.pipe.empty ∧ s.pipe.writeopen = true then
    if s.killed p then { s with pc := update s.pc p .idle, done := s.done ++ [.read p n [] (-1)] }
    else { s with pc := update s.pc p (.sleepRead n), killed := asleep s.killed p late }
  else
    let (bytes, pipe) := copy n s.pipe
    { s with
      pipe := pipe
      got := s.got ++ bytes.map fun c => (p, c)
      pc := update (wakeWriters s.pc) p .idle
      done := s.done ++ [.read p n bytes bytes.length] }

def step (s : State ι) : Event ι → State ι
  | .pipewrite p addr => if s.pc p = .idle then { s with pc := update s.pc p (.write addr 0) } else s
  | .piperead p n => if s.pc p = .idle then { s with pc := update s.pc p (.read n) } else s
  | .run p late =>
    match s.pc p with
    | .write addr i => runWrite s p late addr i
    | .read n => runRead s p late n
    | _ => s
  | .kill p => { s with killed := update s.killed p true, pc := update s.pc p (s.pc p).wake }
  | .pipeclose true => { s with pipe := { s.pipe with writeopen := false }, pc := wakeReaders s.pc }
  | .pipeclose false => { s with pipe := { s.pipe with readopen := false }, pc := wakeWriters s.pc }

def start (data : ℕ → Byte) : State ι := ⟨.alloc data, fun _ => .idle, fun _ => false, [], [], []⟩

def run (data : ℕ → Byte) (es : List (Event ι)) : State ι := es.foldl step (start data)

end

/-! ### The ring -/

variable {p : Pipe} {c : Byte}

/-- The pipe has not been written over. -/
def Pipe.Sound (p : Pipe) : Prop := (p.nwrite - p.nread).toNat ≤ PIPESIZE

theorem full_iff : p.full ↔ (p.nwrite - p.nread).toNat = PIPESIZE := sub_eq_size fits

theorem contents_length (p : Pipe) : p.contents.length = (p.nwrite - p.nread).toNat := Counters.contents_length

theorem empty_iff : p.empty ↔ p.contents = [] := contents_eq_nil.symm

theorem put_sound (h : p.Sound) (hf : ¬ p.full) : (p.put c).Sound ∧ (p.put c).contents = p.contents ++ [c] := by
  have hlt : (p.nwrite - p.nread).toNat < PIPESIZE := Nat.lt_of_le_of_ne h (mt full_iff.mpr hf)
  have hcontents : (p.put c).contents = p.contents ++ [c] := contents_push fits hlt c
  refine ⟨?_, hcontents⟩
  unfold Pipe.Sound
  rw [← contents_length, hcontents, List.length_append, contents_length]
  exact hlt

theorem drop_sound (h : p.Sound) (he : ¬ p.empty) : p.drop.Sound ∧ p.contents = p.front :: p.drop.contents := by
  have hcontents : p.contents = p.front :: p.drop.contents := contents_pop he
  refine ⟨?_, hcontents⟩
  have hlen := congrArg List.length hcontents
  rw [contents_length, List.length_cons, contents_length] at hlen
  unfold Pipe.Sound at h ⊢
  omega

/-- `fill` puts the first bytes behind what is there; what is left found the pipe full. -/
theorem fill_spec : ∀ (cs : List Byte) {p : Pipe}, p.Sound → (fill cs p).2.Sound ∧
    (∃ ds, cs = ds ++ (fill cs p).1 ∧ (fill cs p).2.contents = p.contents ++ ds) ∧
    ((fill cs p).1 ≠ [] → (fill cs p).2.full) ∧ (fill cs p).2.readopen = p.readopen ∧ (fill cs p).2.writeopen = p.writeopen
  | [], p, h => ⟨h, ⟨[], rfl, (List.append_nil _).symm⟩, fun h => absurd rfl h, rfl, rfl⟩
  | c :: cs, p, h => by
    unfold fill
    split_ifs with hf
    · exact ⟨h, ⟨[], rfl, (List.append_nil _).symm⟩, fun _ => hf, rfl, rfl⟩
    · obtain ⟨hs, hput⟩ := put_sound (c := c) h hf
      obtain ⟨hs', ⟨ds, hds, hcontents⟩, hfull, hr, hw⟩ := fill_spec cs hs
      refine ⟨hs', ⟨c :: ds, congrArg (c :: ·) hds, ?_⟩, hfull, hr, hw⟩
      rw [hcontents, hput, List.append_assoc, List.singleton_append]

/-- `copy` takes the first bytes, `n` of them or all. -/
theorem copy_spec : ∀ (n : ℕ) {p : Pipe}, p.Sound → (copy n p).2.Sound ∧ p.contents = (copy n p).1 ++ (copy n p).2.contents ∧
    ((copy n p).1.length = min n p.contents.length) ∧
    (copy n p).2.readopen = p.readopen ∧ (copy n p).2.writeopen = p.writeopen
  | 0, p, h => ⟨h, rfl, by simp [copy], rfl, rfl⟩
  | n + 1, p, h => by
    unfold copy
    split_ifs with he
    · have hnil := empty_iff.mp he
      exact ⟨h, rfl, by simp [hnil], rfl, rfl⟩
    · obtain ⟨hs, hcontents⟩ := drop_sound h he
      obtain ⟨hs', hrest, hlen, hr, hw⟩ := copy_spec n hs
      refine ⟨hs', ?_, ?_, hr, hw⟩
      · rw [hcontents, List.cons_append, ← hrest]
      · rw [hcontents, List.length_cons, List.length_cons, hlen]
        omega

/-! ### Histories -/

section

variable {ι : Type} [DecidableEq ι]

/-- The bytes of one process. -/
def bytesOf (p : ι) (l : List (ι × Byte)) : List Byte := (l.filter fun x => x.1 = p).map Prod.snd

@[simp] theorem bytesOf_nil (p : ι) : bytesOf p [] = [] := rfl

@[simp] theorem bytesOf_append (p : ι) (l m : List (ι × Byte)) : bytesOf p (l ++ m) = bytesOf p l ++ bytesOf p m := by
  simp [bytesOf]

theorem bytesOf_own (p : ι) (bs : List Byte) : bytesOf p (bs.map fun c => (p, c)) = bs := by
  simp [bytesOf, List.filter_map, Function.comp_def]

theorem bytesOf_other {p q : ι} (h : q ≠ p) (bs : List Byte) : bytesOf p (bs.map fun c => (q, c)) = [] := by
  simp [bytesOf, h]

omit [DecidableEq ι] in
theorem map_snd_own (p : ι) (bs : List Byte) : (bs.map fun c => (p, c)).map Prod.snd = bs := by simp

/-- What a call of `p` that has returned put into the pipe. -/
def Done.put (p : ι) : Done ι → List Byte
  | .write q addr i _ => if q = p then addr.take i else []
  | .read .. => []

/-- What it took out. -/
def Done.taken (p : ι) : Done ι → List Byte
  | .write .. => []
  | .read q _ bytes _ => if q = p then bytes else []

/-- What the call that is going on has put so far. -/
def Pc.put : Pc → List Byte
  | .write addr i => addr.take i
  | .sleepWrite addr i => addr.take i
  | _ => []

/-- How far a write has come. -/
def Pc.Within : Pc → Prop
  | .write addr i => i ≤ addr.length
  | .sleepWrite addr i => i ≤ addr.length
  | _ => True

/-- What the values returned mean. -/
def Done.Proper (writeopen : Bool) : Done ι → Prop
  | .write _ addr i ret => (i = addr.length ∧ ret = addr.length) ∨ (i < addr.length ∧ ret = -1)
  | .read _ n bytes ret => (bytes = [] ∧ ret = -1) ∨
      (bytes.length ≤ n ∧ ret = bytes.length ∧ (bytes = [] → 0 < n → writeopen = false))

/-- The pipe between its histories. -/
structure Ledger (s : State ι) : Prop where
  sound : s.pipe.Sound
  fifo : s.sent.map Prod.snd = s.got.map Prod.snd ++ s.pipe.contents
  put : ∀ p, bytesOf p s.sent = s.done.flatMap (Done.put p) ++ (s.pc p).put
  taken : ∀ p, bytesOf p s.got = s.done.flatMap (Done.taken p)
  proper : ∀ d ∈ s.done, d.Proper s.pipe.writeopen
  within : ∀ p, (s.pc p).Within

omit [DecidableEq ι] in
@[simp] theorem wakeReaders_put (pc : ι → Pc) (p : ι) : (wakeReaders pc p).put = (pc p).put := by
  unfold wakeReaders
  cases pc p <;> rfl

omit [DecidableEq ι] in
@[simp] theorem wakeWriters_put (pc : ι → Pc) (p : ι) : (wakeWriters pc p).put = (pc p).put := by
  unfold wakeWriters
  cases pc p <;> rfl

theorem wake_put (x : Pc) : x.wake.put = x.put := by cases x <;> rfl

theorem wake_within {x : Pc} (h : x.Within) : x.wake.Within := by
  cases x <;> exact h

omit [DecidableEq ι] in
theorem wakeReaders_within {pc : ι → Pc} (h : ∀ p, (pc p).Within) (p : ι) : (wakeReaders pc p).Within := by
  have hp := h p
  unfold wakeReaders
  cases hpc : pc p <;> simp_all [Pc.Within]

omit [DecidableEq ι] in
theorem wakeWriters_within {pc : ι → Pc} (h : ∀ p, (pc p).Within) (p : ι) : (wakeWriters pc p).Within := by
  have hp := h p
  unfold wakeWriters
  cases hpc : pc p <;> simp_all [Pc.Within]

/-- One write, up to where it sleeps or returns: `ds` goes into the pipe. -/
theorem runWrite_cases {s : State ι} {p : ι} (late : Bool) {addr : List Byte} {i : ℕ} (hs : s.pipe.Sound) (hi : i ≤ addr.length) :
    ∃ pipe ds, pipe.Sound ∧ pipe.contents = s.pipe.contents ++ ds ∧ pipe.readopen = s.pipe.readopen ∧
      pipe.writeopen = s.pipe.writeopen ∧ i + ds.length ≤ addr.length ∧ addr.take (i + ds.length) = addr.take i ++ ds ∧
      ((i + ds.length = addr.length ∧ runWrite s p late addr i = { s with
          pipe := pipe, sent := s.sent ++ ds.map fun c => (p, c), pc := update (wakeReaders s.pc) p .idle
          done := s.done ++ [.write p addr (i + ds.length) addr.length] }) ∨
        (i + ds.length < addr.length ∧ pipe.full ∧ (pipe.readopen = false ∨ s.killed p = true) ∧ runWrite s p late addr i = { s with
          pipe := pipe, sent := s.sent ++ ds.map fun c => (p, c), pc := update s.pc p .idle
          done := s.done ++ [.write p addr (i + ds.length) (-1)] }) ∨
        (i + ds.length < addr.length ∧ pipe.full ∧ pipe.readopen = true ∧ runWrite s p late addr i = { s with
          pipe := pipe, sent := s.sent ++ ds.map fun c => (p, c)
          pc := update (wakeReaders s.pc) p (.sleepWrite addr (i + ds.length)), killed := asleep s.killed p late })) := by
  obtain ⟨hsound, ⟨ds, hds, hcontents⟩, hfull, hr, hw⟩ := fill_spec (addr.drop i) hs
  have hlen := congrArg List.length hds
  rw [List.length_drop, List.length_append] at hlen
  have hi' : addr.length - (fill (addr.drop i) s.pipe).1.length = i + ds.length := by omega
  have htake : (addr.drop i).take ds.length = ds := by rw [hds, List.take_left']; rfl
  have hstart : addr.take (i + ds.length) = addr.take i ++ ds := by rw [List.take_add, htake]
  refine ⟨_, ds, hsound, hcontents, hr, hw, by omega, hstart, ?_⟩
  unfold runWrite
  dsimp only
  rw [hi', Nat.add_sub_cancel_left, htake]
  by_cases hrest : (fill (addr.drop i) s.pipe).1 = []
  · rw [if_pos hrest]
    rw [hrest, List.length_nil] at hlen
    exact .inl ⟨by omega, rfl⟩
  · rw [if_neg hrest]
    have hpos := List.length_pos_iff.mpr hrest
    by_cases hfail : (fill (addr.drop i) s.pipe).2.readopen = false ∨ s.killed p = true
    · rw [if_pos hfail]
      exact .inr (.inl ⟨by omega, hfull hrest, hfail, rfl⟩)
    · rw [if_neg hfail]
      rw [not_or, Bool.not_eq_false] at hfail
      exact .inr (.inr ⟨by omega, hfull hrest, hfail.1, rfl⟩)

/-- One read, up to where it sleeps or returns: `bs` comes out of the pipe. -/
theorem runRead_cases {s : State ι} {p : ι} (late : Bool) {n : ℕ} (hs : s.pipe.Sound) :
    (s.pipe.contents = [] ∧ s.killed p = true ∧
      runRead s p late n = { s with pc := update s.pc p .idle, done := s.done ++ [.read p n [] (-1)] }) ∨
    (s.pipe.contents = [] ∧ s.pipe.writeopen = true ∧
      runRead s p late n = { s with pc := update s.pc p (.sleepRead n), killed := asleep s.killed p late }) ∨
    ∃ pipe bs, pipe.Sound ∧ s.pipe.contents = bs ++ pipe.contents ∧ pipe.readopen = s.pipe.readopen ∧
      pipe.writeopen = s.pipe.writeopen ∧ bs.length ≤ n ∧ (bs = [] → 0 < n → s.pipe.writeopen = false) ∧
      runRead s p late n = { s with
        pipe := pipe, got := s.got ++ bs.map fun c => (p, c), pc := update (wakeWriters s.pc) p .idle
        done := s.done ++ [.read p n bs bs.length] } := by
  unfold runRead
  by_cases he : s.pipe.empty ∧ s.pipe.writeopen = true
  · have hnil := empty_iff.mp he.1
    rw [if_pos he]
    cases hk : s.killed p with
    | true => exact .inl ⟨hnil, rfl, if_pos rfl⟩
    | false => exact .inr (.inl ⟨hnil, he.2, if_neg (by simp)⟩)
  · rw [if_neg he]
    obtain ⟨hsound, hcontents, hlen, hr, hw⟩ := copy_spec n hs
    refine .inr (.inr ⟨_, _, hsound, hcontents, hr, hw, by omega, fun hnil hn => ?_, rfl⟩)
    rw [hnil, List.length_nil] at hlen
    have hempty : s.pipe.contents = [] := List.eq_nil_of_length_eq_zero (by omega)
    exact Bool.not_eq_true _ ▸ fun hopen => he ⟨empty_iff.mpr hempty, hopen⟩

theorem within_update {pc : ι → Pc} {p : ι} {x : Pc} (h : ∀ q, (pc q).Within) (hx : x.Within) (q : ι) :
    (update pc p x q).Within := by
  by_cases hq : q = p
  · rwa [hq, Function.update_self]
  · rw [Function.update_of_ne hq]
    exact h q

theorem put_update {pc : ι → Pc} {p q : ι} {x : Pc} (h : x.put = (pc p).put) : (update pc p x q).put = (pc q).put := by
  by_cases hq : q = p
  · rw [hq, Function.update_self, h]
  · rw [Function.update_of_ne hq]

/-- What happens to places only, with the same bytes. -/
theorem Ledger.move {s : State ι} (h : Ledger s) {pc : ι → Pc} {killed : ι → Bool} (hput : ∀ q, (pc q).put = (s.pc q).put)
    (hwithin : ∀ q, (pc q).Within) : Ledger { s with pc := pc, killed := killed } := by
  refine ⟨h.sound, h.fifo, fun q => ?_, h.taken, h.proper, hwithin⟩
  rw [hput]
  exact h.put q

/-- A write: its bytes go to the histories and to the pipe, whether it goes on, returns or fails. -/
theorem Ledger.write {s : State ι} (h : Ledger s) {p : ι} {pipe : Pipe} {ds : List Byte} {pc : ι → Pc} {killed : ι → Bool}
    {done : List (Done ι)}
    (hsound : pipe.Sound) (hcontents : pipe.contents = s.pipe.contents ++ ds) (hopen : pipe.writeopen = s.pipe.writeopen)
    (hown : done.flatMap (Done.put p) ++ (pc p).put = s.done.flatMap (Done.put p) ++ ((s.pc p).put ++ ds))
    (hother : ∀ q, q ≠ p → done.flatMap (Done.put q) ++ (pc q).put = s.done.flatMap (Done.put q) ++ (s.pc q).put)
    (htaken : ∀ q, done.flatMap (Done.taken q) = s.done.flatMap (Done.taken q))
    (hproper : ∀ d ∈ done, d.Proper s.pipe.writeopen) (hwithin : ∀ q, (pc q).Within) :
    Ledger { s with
      pipe := pipe, sent := s.sent ++ ds.map fun c => (p, c), pc := pc, killed := killed, done := done } := by
  refine ⟨hsound, ?_, fun q => ?_, fun q => ?_, ?_, hwithin⟩
  · rw [List.map_append, map_snd_own, h.fifo, hcontents, List.append_assoc]
  · rw [bytesOf_append, h.put]
    by_cases hq : q = p
    · rw [hq, bytesOf_own, hown, List.append_assoc]
    · rw [bytesOf_other (Ne.symm hq), List.append_nil, hother q hq]
  · rw [htaken]
    exact h.taken q
  · rw [hopen]
    exact hproper

theorem Ledger.runWrite {s : State ι} (h : Ledger s) {p : ι} {late : Bool} {addr : List Byte} {i : ℕ} (hpc : s.pc p = .write addr i) :
    Ledger (runWrite s p late addr i) := by
  have hi : i ≤ addr.length := by
    have hw := h.within p
    rwa [hpc] at hw
  have hput : (s.pc p).put = addr.take i := by rw [hpc]; rfl
  have hidle : ∀ q, (update s.pc p Pc.idle q).Within := within_update h.within trivial
  obtain ⟨pipe, ds, hsound, hcontents, -, hopen, hle, htake, hcase⟩ := runWrite_cases (p := p) late h.sound hi
  have hdone : ∀ (pc : ι → Pc) (ret : ℤ), pc p = .idle → (∀ q, q ≠ p → (pc q).put = (s.pc q).put) → (∀ q, (pc q).Within) →
      (Done.write p addr (i + ds.length) ret).Proper s.pipe.writeopen →
      Ledger { s with
        pipe := pipe, sent := s.sent ++ ds.map fun c => (p, c), pc := pc
        done := s.done ++ [.write p addr (i + ds.length) ret] } := by
    intro pc ret hp hother hwithin hproper
    apply h.write hsound hcontents hopen
    · rw [hp, hput, ← htake]
      simp [Done.put, Pc.put]
    · intro q hq
      rw [hother q hq]
      simp [Done.put, Ne.symm hq]
    · intro q
      simp [Done.taken]
    · intro d hd
      rcases List.mem_append.mp hd with hd | hd
      · exact h.proper d hd
      · rw [List.mem_singleton.mp hd]
        exact hproper
    · exact hwithin
  rcases hcase with ⟨heq, hrun⟩ | ⟨hlt, -, -, hrun⟩ | ⟨hlt, -, -, hrun⟩
  · rw [hrun]
    apply hdone
    · exact Function.update_self ..
    · intro q hq
      rw [Function.update_of_ne hq, wakeReaders_put]
    · exact within_update (wakeReaders_within h.within) trivial
    · exact .inl ⟨heq, rfl⟩
  · rw [hrun]
    apply hdone
    · exact Function.update_self ..
    · intro q hq
      rw [Function.update_of_ne hq]
    · exact hidle
    · exact .inr ⟨hlt, rfl⟩
  · rw [hrun]
    apply h.write hsound hcontents hopen
    · rw [Function.update_self, hput, ← htake]
      rfl
    · intro q hq
      rw [Function.update_of_ne hq, wakeReaders_put]
    · exact fun q => rfl
    · exact h.proper
    · exact within_update (wakeReaders_within h.within) hle

theorem Ledger.runRead {s : State ι} (h : Ledger s) {p : ι} {late : Bool} {n : ℕ} (hpc : s.pc p = .read n) :
    Ledger (runRead s p late n) := by
  have hput : (s.pc p).put = [] := by rw [hpc]; rfl
  have hdone : ∀ (pipe : Pipe) (bs : List Byte) (pc : ι → Pc) (ret : ℤ), pipe.Sound → s.pipe.contents = bs ++ pipe.contents →
      pipe.writeopen = s.pipe.writeopen → (∀ q, (pc q).put = (s.pc q).put) → (∀ q, (pc q).Within) →
      (Done.read p n bs ret).Proper s.pipe.writeopen →
      Ledger { s with
        pipe := pipe, got := s.got ++ bs.map fun c => (p, c), pc := pc, done := s.done ++ [.read p n bs ret] } := by
    intro pipe bs pc ret hsound hcontents hopen hsame hwithin hproper
    refine ⟨hsound, ?_, fun q => ?_, fun q => ?_, fun d hd => ?_, hwithin⟩
    · rw [List.map_append, map_snd_own, h.fifo, hcontents, List.append_assoc]
    · rw [hsame, h.put]
      simp [Done.put]
    · rw [bytesOf_append, h.taken]
      by_cases hq : q = p
      · rw [hq, bytesOf_own]
        simp [Done.taken]
      · rw [bytesOf_other (Ne.symm hq)]
        simp [Done.taken, Ne.symm hq]
    · rw [hopen]
      rcases List.mem_append.mp hd with hd | hd
      · exact h.proper d hd
      · rw [List.mem_singleton.mp hd]
        exact hproper
  rcases runRead_cases (p := p) late (n := n) h.sound with ⟨-, -, hrun⟩ | ⟨-, -, hrun⟩ |
    ⟨pipe, bs, hsound, hcontents, -, hopen, hlen, hend, hrun⟩
  · have hkilled := hdone s.pipe [] (update s.pc p .idle) (-1) h.sound rfl rfl (fun q => put_update hput.symm)
      (within_update h.within trivial) (.inl ⟨rfl, rfl⟩)
    rw [List.map_nil, List.append_nil] at hkilled
    rwa [hrun]
  · rw [hrun]
    exact h.move (fun q => put_update hput.symm) (within_update h.within trivial)
  · rw [hrun]
    apply hdone pipe bs _ _ hsound hcontents hopen
    · intro q
      rw [put_update (by rw [wakeWriters_put, hput]; rfl), wakeWriters_put]
    · exact within_update (wakeWriters_within h.within) trivial
    · exact .inr ⟨hlen, rfl, hend⟩

omit [DecidableEq ι] in
theorem Done.Proper.close {b : Bool} {d : Done ι} (h : d.Proper b) : d.Proper false := by
  cases d with
  | write q addr i ret => exact h
  | read q n bytes ret => exact h.imp_right fun ⟨hlen, hret, _⟩ => ⟨hlen, hret, fun _ _ => rfl⟩

theorem ledger_step {s : State ι} (h : Ledger s) (e : Event ι) : Ledger (step s e) := by
  cases e with
  | pipewrite p addr =>
    dsimp only [step]
    split_ifs with hp
    · exact h.move (fun q => put_update (by rw [hp]; rfl)) (within_update h.within (Nat.zero_le _))
    · exact h
  | piperead p n =>
    dsimp only [step]
    split_ifs with hp
    · exact h.move (fun q => put_update (by rw [hp]; rfl)) (within_update h.within trivial)
    · exact h
  | run p late =>
    dsimp only [step]
    cases hp : s.pc p with
    | write addr i => exact h.runWrite hp
    | read n => exact h.runRead hp
    | _ => exact h
  | kill p =>
    exact h.move (fun q => put_update (wake_put _)) (within_update h.within (wake_within (h.within p)))
  | pipeclose writable =>
    cases writable with
    | true =>
      have hm : Ledger { s with pc := wakeReaders s.pc } := h.move (wakeReaders_put s.pc) (wakeReaders_within h.within)
      exact ⟨hm.sound, hm.fifo, hm.put, hm.taken, fun d hd => (hm.proper d hd).close, hm.within⟩
    | false =>
      have hm : Ledger { s with pc := wakeWriters s.pc } := h.move (wakeWriters_put s.pc) (wakeWriters_within h.within)
      exact ⟨hm.sound, hm.fifo, hm.put, hm.taken, hm.proper, hm.within⟩

theorem ledger_start (data : ℕ → Byte) : Ledger (start data : State ι) := by
  have hnil : (Pipe.alloc data).contents = [] := empty_iff.mp rfl
  refine ⟨?_, hnil.symm, fun p => rfl, fun p => rfl, fun d hd => absurd hd List.not_mem_nil, fun p => trivial⟩
  unfold Pipe.Sound
  rw [← contents_length]
  exact hnil ▸ Nat.zero_le _

theorem ledger_run (data : ℕ → Byte) (es : List (Event ι)) : Ledger (run data es) := by
  refine List.foldlRecOn es step (ledger_start data) fun s h e _ => ledger_step h e

/-- **What is read is what was written.** In every run the bytes that were put are those that were taken and then those in the pipe, at most
`PIPESIZE`; a process has put the bytes of its writes, and one that returns their number has put them all. A read that returns
0 has met the end of the writers. -/
theorem pipe_fifo (data : ℕ → Byte) (es : List (Event ι)) :
    (run data es).sent.map Prod.snd = (run data es).got.map Prod.snd ++ (run data es).pipe.contents ∧
      (run data es).pipe.contents.length ≤ PIPESIZE ∧
      (∀ p, bytesOf p (run data es).sent = (run data es).done.flatMap (Done.put p) ++ ((run data es).pc p).put) ∧
      (∀ p, bytesOf p (run data es).got = (run data es).done.flatMap (Done.taken p)) ∧
      ∀ d ∈ (run data es).done, d.Proper (run data es).pipe.writeopen := by
  have h := ledger_run data es
  exact ⟨h.fifo, contents_length _ ▸ h.sound, h.put, h.taken, h.proper⟩

/-! ### Sleeping -/

/-- In `sleep(&p->nread, &p->lock)`. -/
def Pc.AsleepRead : Pc → Prop
  | .sleepRead _ => True
  | _ => False

/-- A process that has been killed finds the pipe full, and its write returns -1. -/
def CutShort (s : State ι) (e : Event ι) : Prop :=
  ∃ q late addr i j, e = .run q late ∧ s.pc q = .write addr i ∧ s.killed q = true ∧ (step s e).done = s.done ++ [.write q addr j (-1)]

/-- Since process `p` went to sleep a kill has cut a write short. -/
def Missed (data : ℕ → Byte) (es : List (Event ι)) (p : ι) : Prop :=
  ∃ es₁ e es₂, es = es₁ ++ e :: es₂ ∧ CutShort (run data es₁) e ∧ ∀ l, es₁ <+: l → l <+: es → ((run data l).pc p).AsleepRead

/-- Whoever sleeps has to, but for the readers of `M`. -/
structure Rest (M : ι → Prop) (s : State ι) : Prop where
  sound : s.pipe.Sound
  writers : ∀ p addr i, s.pc p = .sleepWrite addr i → s.pipe.full ∧ s.pipe.readopen = true
  readers : ∀ p n, s.pc p = .sleepRead n → s.pipe.writeopen = true ∧ (s.pipe.readopen = true → s.pipe.contents = [] ∨ M p)

omit [DecidableEq ι] in
theorem wakeReaders_sleepRead (pc : ι → Pc) (p : ι) (n : ℕ) : wakeReaders pc p ≠ .sleepRead n := by
  unfold wakeReaders
  cases pc p <;> simp

omit [DecidableEq ι] in
theorem wakeReaders_sleepWrite {pc : ι → Pc} {p : ι} {addr : List Byte} {i : ℕ} :
    wakeReaders pc p = .sleepWrite addr i ↔ pc p = .sleepWrite addr i := by
  unfold wakeReaders
  cases pc p <;> simp

omit [DecidableEq ι] in
theorem wakeWriters_sleepWrite (pc : ι → Pc) (p : ι) (addr : List Byte) (i : ℕ) : wakeWriters pc p ≠ .sleepWrite addr i := by
  unfold wakeWriters
  cases pc p <;> simp

omit [DecidableEq ι] in
theorem wakeWriters_sleepRead {pc : ι → Pc} {p : ι} {n : ℕ} : wakeWriters pc p = .sleepRead n ↔ pc p = .sleepRead n := by
  unfold wakeWriters
  cases pc p <;> simp

theorem of_update {pc : ι → Pc} {p q : ι} {x y : Pc} (hne : x ≠ y) (h : update pc p x q = y) : pc q = y := by
  by_cases hq : q = p
  · rw [hq, Function.update_self] at h
    exact absurd h hne
  · rwa [Function.update_of_ne hq] at h

theorem full_length : p.full ↔ p.contents.length = PIPESIZE := by rw [full_iff, contents_length]

/-- A pipe that was full and got more got nothing. -/
theorem full_append {p p' : Pipe} {ds : List Byte} (h : p.full) (hs : p'.Sound) (hc : p'.contents = p.contents ++ ds) : p'.full := by
  have hlen := congrArg List.length hc
  rw [List.length_append, full_length.mp h] at hlen
  have hle : p'.contents.length ≤ PIPESIZE := contents_length p' ▸ hs
  apply full_length.mpr
  omega

section

variable {M M' : ι → Prop} {s : State ι}

theorem Rest.runWrite (h : Rest M s) {p : ι} {late : Bool} {addr : List Byte} {i : ℕ} (hp : s.pc p = .write addr i) (hi : i ≤ addr.length)
    (hkeep : ∀ q, (s.pc q).AsleepRead → M q ∨ CutShort s (.run p late) → M' q) : Rest M' (runWrite s p late addr i) := by
  obtain ⟨pipe, ds, hsound, hcontents, hropen, hwopen, -, -, hcase⟩ := runWrite_cases (p := p) late h.sound hi
  rcases hcase with ⟨-, hrun⟩ | ⟨-, hfull, hfail, hrun⟩ | ⟨-, hfull, hopen, hrun⟩
  · rw [hrun]
    refine ⟨hsound, fun q addr' j hq => ?_, fun q n hq => ?_⟩
    · obtain ⟨hf, hr⟩ := h.writers q addr' j (wakeReaders_sleepWrite.mp (of_update (by simp) hq))
      exact ⟨full_append hf hsound hcontents, hropen.trans hr⟩
    · exact absurd (of_update (by simp) hq) (wakeReaders_sleepRead _ _ _)
  · have hstep : step s (.run p late) = Pipes.runWrite s p late addr i := by simp only [step, hp]
    rw [hrun] at hstep ⊢
    refine ⟨hsound, fun q addr' j hq => ?_, fun q n hq => ?_⟩
    · obtain ⟨-, hr⟩ := h.writers q addr' j (of_update (by simp) hq)
      exact ⟨hfull, hropen.trans hr⟩
    · have hasleep : s.pc q = .sleepRead n := of_update (by simp) hq
      obtain ⟨hw, -⟩ := h.readers q n hasleep
      refine ⟨hwopen.trans hw, fun hr => .inr (hkeep q (by rw [hasleep]; trivial) (.inr ?_))⟩
      -- No wakeup here: what the reader slept on has come, and the write has failed.
      have hkilled : s.killed p = true := hfail.resolve_left (by rw [hr]; exact Bool.noConfusion)
      exact ⟨p, late, addr, i, i + ds.length, rfl, hp, hkilled, by rw [hstep]⟩
  · rw [hrun]
    exact ⟨hsound, fun _ _ _ _ => ⟨hfull, hopen⟩, fun q n hq => absurd (of_update (by simp) hq) (wakeReaders_sleepRead _ _ _)⟩

theorem Rest.runRead (h : Rest M s) {p : ι} {late : Bool} {n : ℕ} (hkeep : ∀ q, (s.pc q).AsleepRead → M q → M' q) :
    Rest M' (runRead s p late n) := by
  have hreaders : ∀ q m, s.pc q = .sleepRead m →
      s.pipe.writeopen = true ∧ (s.pipe.readopen = true → s.pipe.contents = [] ∨ M' q) := fun q m hq =>
    (h.readers q m hq).imp_right fun hempty hr => (hempty hr).imp_right (hkeep q (by rw [hq]; trivial))
  rcases runRead_cases (p := p) late (n := n) h.sound with ⟨-, -, hrun⟩ | ⟨hnil, hopen, hrun⟩ |
    ⟨pipe, bs, hsound, hcontents, hropen, hwopen, -, -, hrun⟩
  · rw [hrun]
    exact ⟨h.sound, fun q addr i hq => h.writers q addr i (of_update (by simp) hq), fun q m hq => hreaders q m (of_update (by simp) hq)⟩
  · rw [hrun]
    exact ⟨h.sound, fun q addr i hq => h.writers q addr i (of_update (by simp) hq), fun q m _ => ⟨hopen, fun _ => .inl hnil⟩⟩
  · rw [hrun]
    refine ⟨hsound, fun q addr i hq => ?_, fun q m hq => ?_⟩
    · exact absurd (of_update (by simp) hq) (wakeWriters_sleepWrite _ _ _ _)
    · obtain ⟨hw, hempty⟩ := hreaders q m (wakeWriters_sleepRead.mp (of_update (by simp) hq))
      refine ⟨hwopen.trans hw, fun hr => (hempty (hropen.symm.trans hr)).imp_left fun hnil => ?_⟩
      exact (List.append_eq_nil_iff.mp (hcontents.symm.trans hnil)).2

end

theorem wake_sleepWrite (x : Pc) (addr : List Byte) (i : ℕ) : x.wake ≠ .sleepWrite addr i := by cases x <;> simp [Pc.wake]

theorem wake_sleepRead (x : Pc) (n : ℕ) : x.wake ≠ .sleepRead n := by cases x <;> simp [Pc.wake]

/-- A step leaves asleep who sleeps, or wakes it. -/
theorem rest_step {M M' : ι → Prop} {s : State ι} (h : Rest M s) (hw : ∀ p, (s.pc p).Within) (e : Event ι)
    (hkeep : ∀ p, (s.pc p).AsleepRead → M p ∨ CutShort s e → M' p) : Rest M' (step s e) := by
  have hreaders : ∀ q n, s.pc q = .sleepRead n →
      s.pipe.writeopen = true ∧ (s.pipe.readopen = true → s.pipe.contents = [] ∨ M' q) := fun q n hq =>
    (h.readers q n hq).imp_right fun hempty hr => (hempty hr).imp_right fun hM => hkeep q (by rw [hq]; trivial) (.inl hM)
  have hsame : Rest M' s := ⟨h.sound, h.writers, hreaders⟩
  have hmove : ∀ (p : ι) (x : Pc) (killed : ι → Bool), (∀ addr i, x ≠ .sleepWrite addr i) → (∀ n, x ≠ .sleepRead n) →
      Rest M' { s with pc := update s.pc p x, killed := killed } := fun p x _ h1 h2 =>
    ⟨h.sound, fun q addr i hq => h.writers q addr i (of_update (h1 _ _) hq),
      fun q n hq => hreaders q n (of_update (h2 _) hq)⟩
  cases e with
  | pipewrite p addr =>
    dsimp only [step]
    split_ifs
    · exact hmove p _ _ (by simp) (by simp)
    · exact hsame
  | piperead p n =>
    dsimp only [step]
    split_ifs
    · exact hmove p _ _ (by simp) (by simp)
    · exact hsame
  | run p late =>
    dsimp only [step]
    cases hp : s.pc p with
    | write addr i =>
      have hi := hw p
      rw [hp] at hi
      exact h.runWrite hp hi hkeep
    | read n => exact h.runRead fun q hq hM => hkeep q hq (.inl hM)
    | _ => exact hsame
  | kill p =>
    exact hmove p _ _ (wake_sleepWrite _) (wake_sleepRead _)
  | pipeclose writable =>
    cases writable with
    | true =>
      exact ⟨h.sound, fun q addr i hq => h.writers q addr i (wakeReaders_sleepWrite.mp hq),
        fun q n hq => absurd hq (wakeReaders_sleepRead _ _ _)⟩
    | false =>
      exact ⟨h.sound, fun q addr i hq => absurd hq (wakeWriters_sleepWrite _ _ _ _),
        fun q n hq => (hreaders q n (wakeWriters_sleepRead.mp hq)).imp_right fun _ hr => Bool.noConfusion hr⟩

theorem run_concat (data : ℕ → Byte) (es : List (Event ι)) (e : Event ι) : run data (es ++ [e]) = step (run data es) e :=
  List.foldl_concat ..

/-- Who has missed a wakeup and still sleeps, or misses one now, has missed one. -/
theorem Missed.concat {data : ℕ → Byte} {es : List (Event ι)} {e : Event ι} {p : ι} (hp : ((run data es).pc p).AsleepRead)
    (hp' : ((run data (es ++ [e])).pc p).AsleepRead) (h : Missed data es p ∨ CutShort (run data es) e) : Missed data (es ++ [e]) p := by
  rcases h with ⟨es₁, e₁, es₂, hes, hcut, hsleep⟩ | hcut
  · refine ⟨es₁, e₁, es₂ ++ [e], by rw [hes, List.append_assoc, List.cons_append], hcut, fun l hl hle => ?_⟩
    rcases List.prefix_concat_iff.mp hle with rfl | hle
    · exact hp'
    · exact hsleep l hl hle
  · refine ⟨es, e, [], rfl, hcut, fun l hl hle => ?_⟩
    rcases List.prefix_concat_iff.mp hle with rfl | hle
    · exact hp'
    · rwa [hle.eq_of_length_le hl.length_le]

theorem rest_run (data : ℕ → Byte) (es : List (Event ι)) :
    Rest (fun p => ((run data es).pc p).AsleepRead → Missed data es p) (run data es) := by
  induction es using List.reverseRecOn with
  | nil => exact ⟨(ledger_start data).sound, fun p addr i hp => by simp [run, start] at hp, fun p n hp => by simp [run, start] at hp⟩
  | append_singleton es e ih =>
    have hstep : Rest (fun p => ((run data (es ++ [e])).pc p).AsleepRead → Missed data (es ++ [e]) p) (step (run data es) e) :=
      rest_step ih (ledger_run data es).within e fun p hp hM hp' =>
        Missed.concat hp hp' (hM.imp_left fun hmissed => hmissed hp)
    rwa [← run_concat] at hstep

/-- **Nobody sleeps who need not**, in every run: a writer sleeps on a full pipe that has readers, a reader on one that has writers and no bytes.
The exception is a reader that has slept on since a write was cut short by a kill, which does not wake the readers. (While somebody
reads the read end is open.) -/
theorem pipe_asleep (data : ℕ → Byte) (es : List (Event ι)) (p : ι) :
    (∀ addr i, (run data es).pc p = .sleepWrite addr i →
      (run data es).pipe.full ∧ (run data es).pipe.readopen = true) ∧
    ∀ n, (run data es).pc p = .sleepRead n → (run data es).pipe.writeopen = true ∧
      ((run data es).pipe.readopen = true → (run data es).pipe.contents = [] ∨ Missed data es p) := by
  have h := rest_run data es
  refine ⟨h.writers p, fun n hp => (h.readers p n hp).imp_right fun hempty hr => (hempty hr).imp_right fun hM => hM ?_⟩
  rw [hp]
  trivial

/-- The exception: the writer was killed, the bytes are there, and the reader sleeps. -/
example :
    let s := run (fun _ => 0) [.piperead false 1, .run false false, .kill true, .pipewrite true (List.replicate 513 7), .run true false]
    s.pc false = .sleepRead 1 ∧ s.pipe.nwrite = 512 := by
  decide +kernel

end

end Pipes
end Xv6
end OsLabs
