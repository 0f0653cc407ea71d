/-
# The date

`date(r)` of `syscall/date`: the pointer is the first argument of the system call and is read from the user's stack, and
what `cmostime` has read from the clock is stored through it. Both addresses are the user's choice, and all that is asked of
them is `fetchint`'s and `argptr`'s comparisons with `sz`, in words that wrap.

What the clock answers is the environment's, read by read. The clock is read until two readings agree, `fuel` times
at most.

Key definitions: `sysDate`, `cmostime`, `Touched`.
Key theorem: `sys_date_safe`.
-/
import OsLabs.Xv6.Vm

namespace OsLabs
namespace Date

open Xv6

/-- The process's memory, with the addresses at which the kernel has read and written it. -/
structure Touched where
  mem : Memory
  reads : List Word
  writes : List Word

namespace Touched

def load (s : Touched) (a : Word) : Word × Touched := (Xv6.load s.mem a, { s with reads := s.reads ++ bytes a })

def store (s : Touched) (a w : Word) : Touched :=
  { s with mem := Xv6.store s.mem a w, writes := s.writes ++ bytes a }

/-- One word behind the other from `a` on. -/
def storeWords (s : Touched) (a : Word) : List Word → Touched
  | [] => s
  | w :: ws => (s.store a w).storeWords (a + 4) ws

end Touched

def loadWords (m : Memory) (a : Word) : ℕ → List Word
  | 0 => []
  | n + 1 => load m a :: loadWords m (a + 4) n

/-! ### The arguments -/

def fetchint (sz addr : Word) (s : Touched) : Option Word × Touched :=
  if sz ≤ addr ∨ sz < addr + 4 then (none, s) else (some (s.load addr).1, (s.load addr).2)

def argint (sz esp : Word) (n : ℕ) (s : Touched) : Option Word × Touched :=
  fetchint sz (esp + 4 + 4 * BitVec.ofNat 32 n) s

def argptr (sz esp : Word) (n : ℕ) (size : Word) (s : Touched) : Option Word × Touched :=
  match argint sz esp n s with
  | (none, s) => (none, s)
  | (some i, s) => if size.toInt < 0 ∨ sz ≤ i ∨ sz < i + size then (none, s) else (some i, s)

/-- What is touched is all that these add to those of `OsLabs/Xv6/Vm.lean`. -/
theorem fetchint_eq (sz : Size) (addr : Word) (s : Touched) : (fetchint sz.1 addr s).1 = Xv6.fetchint sz s.mem addr := by
  unfold fetchint Xv6.fetchint
  split_ifs <;> rfl

theorem argint_eq (sz : Size) (esp : Word) (n : ℕ) (s : Touched) : (argint sz.1 esp n s).1 = Xv6.argint sz s.mem esp n :=
  fetchint_eq sz _ s

theorem argptr_eq (sz : Size) (esp : Word) (n : ℕ) {size : Word} (h : 0 ≤ size.toInt) (s : Touched) :
    (argptr sz.1 esp n size s).1 = Xv6.argptr sz s.mem esp n size.toNat := by
  have harg := argint_eq sz esp n s
  unfold argptr Xv6.argptr
  rw [← harg, BitVec.ofNat_toNat, BitVec.setWidth_eq]
  rcases argint sz.1 esp n s with ⟨_ | i, s'⟩
  · rfl
  · simp only [not_lt.mpr h, false_or]
    show (if _ then _ else _ : Option Word × Touched).1 = if _ then _ else _
    split_ifs <;> rfl

/-! ### The clock -/

/-- `struct rtcdate`. -/
structure RtcDate where
  second : Word
  minute : Word
  hour : Word
  day : Word
  month : Word
  year : Word
  deriving DecidableEq, Repr

def RtcDate.words (t : RtcDate) : List Word := [t.second, t.minute, t.hour, t.day, t.month, t.year]

/-- What the `n`-th read of the clock gives for a register. -/
abbrev Cmos := ℕ → Byte → Byte

def CMOS_STATA : Byte := 0x0a
def CMOS_STATB : Byte := 0x0b
def CMOS_UIP : Word := 1 <<< 7

variable (cmos : Cmos)

def cmosRead (reg : Byte) (n : ℕ) : Word × ℕ := ((cmos n reg).setWidth 32, n + 1)

def fillRtcdate (n : ℕ) : RtcDate × ℕ :=
  let (second, n) := cmosRead cmos 0x00 n
  let (minute, n) := cmosRead cmos 0x02 n
  let (hour, n) := cmosRead cmos 0x04 n
  let (day, n) := cmosRead cmos 0x07 n
  let (month, n) := cmosRead cmos 0x08 n
  let (year, n) := cmosRead cmos 0x09 n
  (⟨second, minute, hour, day, month, year⟩, n)

/-- The loop of `cmostime`. -/
def poll : ℕ → ℕ → Option RtcDate
  | 0, _ => none
  | fuel + 1, n =>
    let (t1, n) := fillRtcdate cmos n
    let (a, n) := cmosRead cmos CMOS_STATA n
    if a &&& CMOS_UIP ≠ 0 then poll fuel n
    else
      let (t2, n) := fillRtcdate cmos n
      if t1 = t2 then some t1 else poll fuel n

def conv (x : Word) : Word := (x >>> 4) * 10 + (x &&& 0xf)

def RtcDate.conv (t : RtcDate) : RtcDate where
  second := Date.conv t.second
  minute := Date.conv t.minute
  hour := Date.conv t.hour
  day := Date.conv t.day
  month := Date.conv t.month
  year := Date.conv t.year

/-- What the clock's numbers say. -/
def decoded (t : RtcDate) : RtcDate :=
  let (sb, _) := cmosRead cmos CMOS_STATB 0
  if sb &&& (1 <<< 2) = 0 then t.conv else t

def cmostime (fuel : ℕ) (r : Word) (s : Touched) : Option Touched :=
  let (_, n) := cmosRead cmos CMOS_STATB 0
  (poll cmos fuel n).map fun t1 =>
    let s := s.storeWords r (decoded cmos t1).words
    let (year, s) := s.load (r + 20)
    s.store (r + 20) (year + 2000)

/-- `sizeof(struct rtcdate)` is 24. -/
def sysDate (fuel : ℕ) (sz esp : Word) (s : Touched) : Option (ℤ × Touched) :=
  match argptr sz esp 0 24 s with
  | (none, s) => some (-1, s)
  | (some r, s) => (cmostime cmos fuel r s).map (0, ·)

/-! ### Ranges -/

section

variable {a b w : Word} {m : Memory} {n : ℕ}

/-- `b` is one of the `n` bytes from `a` on. -/
def Within (a : Word) (n : ℕ) (b : Word) : Prop := a.toNat ≤ b.toNat ∧ b.toNat < a.toNat + n

theorem mem_bytes_iff (h : a.toNat + 4 < 2 ^ 32) : b ∈ bytes a ↔ Within a 4 b := by
  simp only [bytes, List.mem_cons, List.not_mem_nil, or_false, Within]
  constructor
  · rintro (rfl | rfl | rfl | rfl) <;> bv_omega
  · intro hb
    bv_omega

theorem toNat_next (h : a.toNat + 4 < 2 ^ 32) : (a + 4).toNat = a.toNat + 4 := by bv_omega

theorem load_congr {m' : Memory} (h : ∀ b ∈ bytes a, m' b = m b) : load m' a = load m a := by
  simp only [bytes, List.forall_mem_cons] at h
  obtain ⟨h0, h1, h2, h3, -⟩ := h
  simp only [load, h0, h1, h2, h3]

theorem store_store (m : Memory) (a w w' : Word) : store (store m a w) a w' = store m a w' := by
  funext b
  unfold store
  split_ifs <;> rfl

end

namespace Touched

variable {s : Touched} {a b : Word}

theorem storeWords_append (ws ws' : List Word) : ∀ (s : Touched) (a : Word),
    s.storeWords a (ws ++ ws') = (s.storeWords a ws).storeWords (a + 4 * BitVec.ofNat 32 ws.length) ws' := by
  induction ws with
  | nil =>
    intro s a
    rw [List.nil_append, List.length_nil, BitVec.ofNat_eq_ofNat, BitVec.mul_zero, BitVec.add_zero]
    rfl
  | cons w ws ih =>
    intro s a
    have hnext : a + 4 + 4 * BitVec.ofNat 32 ws.length = a + 4 * BitVec.ofNat 32 (w :: ws).length := by
      rw [List.length_cons]
      bv_omega
    rw [List.cons_append, storeWords, ih, hnext]
    rfl

theorem storeWords_reads (ws : List Word) : ∀ (s : Touched) (a : Word), (s.storeWords a ws).reads = s.reads := by
  induction ws with
  | nil => exact fun _ _ => rfl
  | cons w ws ih => exact fun s a => ih (s.store a w) (a + 4)

theorem mem_storeWords_writes (ws : List Word) : ∀ (s : Touched) (a : Word), a.toNat + 4 * ws.length < 2 ^ 32 →
    (b ∈ (s.storeWords a ws).writes ↔ b ∈ s.writes ∨ Within a (4 * ws.length) b) := by
  induction ws with
  | nil =>
    intro s a _
    have hempty : ¬ Within a 0 b := fun h => absurd (h.1.trans_lt h.2) (lt_irrefl _)
    exact ⟨Or.inl, fun h => h.resolve_right hempty⟩
  | cons w ws ih =>
    intro s a h
    rw [List.length_cons] at h
    have hfit : a.toNat + 4 < 2 ^ 32 := by omega
    have hnext := toNat_next hfit
    have hrest := ih (s.store a w) (a + 4) (by rw [hnext]; omega)
    have happ : b ∈ (s.store a w).writes ↔ b ∈ s.writes ∨ Within a 4 b := by
      rw [← mem_bytes_iff hfit]
      exact List.mem_append
    have hsplit : Within a (4 * (ws.length + 1)) b ↔ Within a 4 b ∨ Within (a + 4) (4 * ws.length) b := by
      unfold Within
      omega
    rw [storeWords, hrest, happ, List.length_cons, hsplit, or_assoc]

theorem storeWords_frame (ws : List Word) : ∀ (s : Touched) (a : Word), a.toNat + 4 * ws.length < 2 ^ 32 →
    ¬ Within a (4 * ws.length) b → (s.storeWords a ws).mem b = s.mem b := by
  induction ws with
  | nil => exact fun _ _ _ _ => rfl
  | cons w ws ih =>
    intro s a h hb
    rw [List.length_cons] at h hb
    have hfit : a.toNat + 4 < 2 ^ 32 := by omega
    have hnext := toNat_next hfit
    have hrest := ih (s.store a w) (a + 4) (by rw [hnext]; omega) fun hn => hb (by unfold Within at hn ⊢; omega)
    have hstore : (s.store a w).mem b = s.mem b := store_frame fun hn => hb (by
      rw [mem_bytes_iff hfit] at hn
      unfold Within at hn ⊢
      omega)
    exact hrest.trans hstore

theorem loadWords_storeWords (ws : List Word) : ∀ (s : Touched) (a : Word), a.toNat + 4 * ws.length < 2 ^ 32 →
    loadWords (s.storeWords a ws).mem a ws.length = ws := by
  induction ws with
  | nil => exact fun _ _ _ => rfl
  | cons w ws ih =>
    intro s a h
    rw [List.length_cons] at h
    have hfit : a.toNat + 4 < 2 ^ 32 := by omega
    have hnext := toNat_next hfit
    have hle : (a + 4).toNat + 4 * ws.length < 2 ^ 32 := by
      rw [hnext]
      omega
    have hfirst : Xv6.load ((s.store a w).storeWords (a + 4) ws).mem a = Xv6.load (s.store a w).mem a :=
      load_congr fun b hb => storeWords_frame ws _ _ hle fun hn => by
        rw [mem_bytes_iff hfit] at hb
        unfold Within at hb hn
        omega
    calc loadWords (s.storeWords a (w :: ws)).mem a (ws.length + 1)
        = Xv6.load ((s.store a w).storeWords (a + 4) ws).mem a ::
            loadWords ((s.store a w).storeWords (a + 4) ws).mem (a + 4) ws.length := rfl
      _ = w :: ws := by rw [hfirst, ih (s.store a w) (a + 4) hle]; exact congrArg (· :: ws) (load_store s.mem a w)

end Touched

/-! ### The system call -/

section

variable {sz esp r : Word} {s s' : Touched} {mem : Memory} {t : RtcDate} {fuel : ℕ}

/-- All that the kernel has touched lies below `sz`. -/
def Touched.Below (s : Touched) (sz : Word) : Prop := ∀ a ∈ s.reads ++ s.writes, a.toNat < sz.toNat

/-- The comparisons leave no room to wrap. -/
theorem within_of_checks {n : ℕ} (hsz : sz.toNat ≤ KERNBASE) (hn : n ≤ KERNBASE)
    (h : ¬ (sz ≤ r ∨ sz < r + BitVec.ofNat 32 n)) : r.toNat + n ≤ sz.toNat := by
  unfold KERNBASE at hsz hn
  bv_omega

theorem fetchint_spec (hsz : sz.toNat ≤ KERNBASE) (addr : Word) (s : Touched) :
    fetchint sz addr s = (none, s) ∨
      addr.toNat + 4 ≤ sz.toNat ∧ fetchint sz addr s = (some (load s.mem addr), { s with reads := s.reads ++ bytes addr }) := by
  unfold fetchint
  split_ifs with h
  · exact Or.inl rfl
  · exact Or.inr ⟨within_of_checks hsz (by decide) h, rfl⟩

/-- The pointer has been read from the process, and all that it points to is in it. -/
theorem argptr_spec (hsz : sz.toNat ≤ KERNBASE) (esp : Word) (mem : Memory) :
    (∃ s', argptr sz esp 0 24 ⟨mem, [], []⟩ = (none, s') ∧ s'.mem = mem ∧ s'.writes = [] ∧ s'.Below sz) ∨
    ∃ s', argptr sz esp 0 24 ⟨mem, [], []⟩ = (some (load mem (esp + 4)), s') ∧ s'.mem = mem ∧ s'.writes = [] ∧
      s'.Below sz ∧ (load mem (esp + 4)).toNat + 24 ≤ sz.toNat := by
  have harg : argint sz esp 0 ⟨mem, [], []⟩ = fetchint sz (esp + 4) ⟨mem, [], []⟩ := by
    unfold argint
    rw [BitVec.ofNat_eq_ofNat, BitVec.mul_zero, BitVec.add_zero]
  unfold argptr
  rw [harg]
  rcases fetchint_spec hsz (esp + 4) ⟨mem, [], []⟩ with hnone | ⟨hin, hsome⟩
  · rw [hnone]
    exact Or.inl ⟨_, rfl, rfl, rfl, fun a ha => absurd ha List.not_mem_nil⟩
  · have hfit : (esp + 4).toNat + 4 < 2 ^ 32 := by
      unfold KERNBASE at hsz
      omega
    have hbelow : Touched.Below ⟨mem, [] ++ bytes (esp + 4), []⟩ sz := fun a ha => by
      rw [List.append_nil, List.nil_append, mem_bytes_iff hfit] at ha
      unfold Within at ha
      omega
    rw [hsome]
    dsimp only
    split_ifs with hchecks
    · exact Or.inl ⟨_, rfl, rfl, rfl, hbelow⟩
    · exact Or.inr ⟨_, rfl, rfl, rfl, hbelow, within_of_checks hsz (by decide) fun hn => hchecks (Or.inr hn)⟩

/-- The date that is stored: the year is counted from the birth of Christ. -/
def stored (t : RtcDate) : RtcDate := { decoded cmos t with year := (decoded cmos t).year + 2000 }

theorem storeWords_words (s : Touched) (r : Word) (t : RtcDate) : s.storeWords r t.words =
    (s.storeWords r [t.second, t.minute, t.hour, t.day, t.month]).store (r + 20) t.year := by
  have h20 : (4 : Word) * BitVec.ofNat 32 [t.second, t.minute, t.hour, t.day, t.month].length = 20 := by
    simp only [List.length_cons, List.length_nil]
    decide
  have happ := Touched.storeWords_append [t.second, t.minute, t.hour, t.day, t.month] [t.year] s r
  rw [h20] at happ
  exact happ

/-- The addition to the year is made in the process's memory, over the year that was stored there. -/
theorem cmostime_eq (hpoll : poll cmos fuel 1 = some t) (r : Word) (s : Touched) :
    ∃ s', cmostime cmos fuel r s = some s' ∧ s'.mem = (s.storeWords r (stored cmos t).words).mem ∧
      s'.reads = s.reads ++ bytes (r + 20) ∧
      s'.writes = (s.storeWords r (stored cmos t).words).writes ++ bytes (r + 20) := by
  unfold stored
  have htime : cmostime cmos fuel r s = some (Touched.store
      { s.storeWords r (decoded cmos t).words with
        reads := (s.storeWords r (decoded cmos t).words).reads ++ bytes (r + 20) } (r + 20)
      (load (s.storeWords r (decoded cmos t).words).mem (r + 20) + 2000)) := by
    simp only [cmostime, cmosRead, Nat.zero_add, hpoll, Option.map_some, Touched.load]
  generalize decoded cmos t = d at htime
  have hstored := storeWords_words s r { d with year := d.year + 2000 }
  have hwords := storeWords_words s r d
  dsimp only at hstored
  generalize hs₀ : s.storeWords r [d.second, d.minute, d.hour, d.day, d.month] = s₀ at hstored hwords
  have hyear : load (s₀.store (r + 20) d.year).mem (r + 20) = d.year := load_store _ _ _
  have hreads : s₀.reads = s.reads := by
    rw [← hs₀]
    exact Touched.storeWords_reads _ s r
  refine ⟨_, htime, ?_, ?_, ?_⟩
  · rw [hwords, hstored, hyear]
    exact store_store s₀.mem (r + 20) d.year (d.year + 2000)
  · rw [hwords, ← hreads]
    rfl
  · rw [hwords, hstored]
    rfl

/-- **The pointer of `date`.** Whatever the user's `esp` and memory are, `sys_date` reads and writes below `sz` only. It
fails and changes nothing, or it writes the 24 bytes at its argument, all of them below `sz`, with the date. -/
theorem sys_date_safe (hsz : sz.toNat ≤ KERNBASE) (hpoll : poll cmos fuel 1 = some t) (esp : Word) (mem : Memory) :
    ∃ result s', sysDate cmos fuel sz esp ⟨mem, [], []⟩ = some (result, s') ∧ s'.Below sz ∧
      (result = -1 ∧ s'.mem = mem ∧ s'.writes = [] ∨
        result = 0 ∧ (load mem (esp + 4)).toNat + 24 ≤ sz.toNat ∧
          (∀ a, a ∈ s'.writes ↔ Within (load mem (esp + 4)) 24 a) ∧
          (∀ a, ¬ Within (load mem (esp + 4)) 24 a → s'.mem a = mem a) ∧
          loadWords s'.mem (load mem (esp + 4)) 6 = (stored cmos t).words) := by
  unfold sysDate
  rcases argptr_spec hsz esp mem with ⟨s, hptr, hmem, hwrites, hbelow⟩ | ⟨s, hptr, hmem, hwrites, hbelow, hle⟩
  · rw [hptr]
    exact ⟨-1, s, rfl, hbelow, Or.inl ⟨rfl, hmem, hwrites⟩⟩
  rw [hptr]
  generalize load mem (esp + 4) = r at hle
  have hfit : r.toNat + 4 * (stored cmos t).words.length < 2 ^ 32 := by
    have hlen : (stored cmos t).words.length = 6 := rfl
    unfold KERNBASE at hsz
    omega
  have hyear : (r + 20).toNat = r.toNat + 20 := by
    unfold KERNBASE at hsz
    bv_omega
  have hyearFit : (r + 20).toNat + 4 < 2 ^ 32 := by
    unfold KERNBASE at hsz
    omega
  have hwithin : ∀ a, a ∈ bytes (r + 20) → Within r 24 a := fun a ha => by
    rw [mem_bytes_iff hyearFit] at ha
    unfold Within at ha ⊢
    omega
  obtain ⟨s', htime, hmem', hreads', hwrites'⟩ := cmostime_eq cmos hpoll r s
  have hmemWrites : ∀ a, a ∈ s'.writes ↔ Within r 24 a := fun a => by
    rw [hwrites', List.mem_append, Touched.mem_storeWords_writes _ s r hfit, hwrites]
    constructor
    · rintro ((ha | ha) | ha)
      · exact absurd ha List.not_mem_nil
      · exact ha
      · exact hwithin a ha
    · exact fun ha => Or.inl (Or.inr ha)
  refine ⟨0, s', ?_, ?_, Or.inr ⟨rfl, hle, hmemWrites, ?_, ?_⟩⟩
  · simp only [htime, Option.map_some]
  · intro a ha
    rw [hreads', List.append_assoc, List.mem_append, List.mem_append] at ha
    rcases ha with ha | ha | ha
    · exact hbelow a (List.mem_append_left _ ha)
    · exact (hwithin a ha).2.trans_le hle
    · exact ((hmemWrites a).mp ha).2.trans_le hle
  · intro a ha
    rw [hmem', Touched.storeWords_frame _ s r hfit ha, hmem]
  · rw [hmem']
    exact Touched.loadWords_storeWords _ s r hfit

/-- The clock stands still, at half past twelve on New Year's Eve. -/
def stopped : Cmos := fun _ reg =>
  match reg.toNat with
  | 0x02 => 0x30
  | 0x04 => 0x12
  | 0x07 => 0x31
  | 0x08 => 0x12
  | 0x09 => 0x18
  | _ => 0

/-- The pointer is the last 24 bytes of the process. -/
theorem sys_date_safe_last : ∃ result s',
    sysDate stopped 1 0x80000000 0x100 ⟨store (fun _ => 0) 0x104 0x7fffffe8, [], []⟩ = some (result, s') ∧
      s'.Below 0x80000000 ∧ loadWords s'.mem 0x7fffffe8 6 = [0, 30, 12, 31, 12, 2018] := by
  have hpoll : poll stopped 1 1 = some ⟨0, 0x30, 0x12, 0x31, 0x12, 0x18⟩ := by decide +kernel
  have hload : load (store (fun _ => 0) 0x104 0x7fffffe8) (0x100 + 4) = 0x7fffffe8 := load_store _ _ _
  obtain ⟨result, s', hdate, hbelow, hcase⟩ :=
    sys_date_safe stopped (show (0x80000000 : Word).toNat ≤ KERNBASE by decide) hpoll 0x100 (store (fun _ => 0) 0x104 0x7fffffe8)
  rw [hload] at hcase
  rcases hcase with ⟨rfl, -, hwrites⟩ | ⟨-, -, -, -, hwords⟩
  · have hzero : (sysDate stopped 1 0x80000000 0x100 ⟨store (fun _ => 0) 0x104 0x7fffffe8, [], []⟩).map Prod.fst = some 0 := by
      decide +kernel
    rw [hdate] at hzero
    have hne : (-1 : ℤ) ≠ 0 := by decide
    exact absurd (Option.some.inj hzero) hne
  · exact ⟨result, s', hdate, hbelow, hwords.trans (by decide +kernel)⟩

end

end Date
end OsLabs
