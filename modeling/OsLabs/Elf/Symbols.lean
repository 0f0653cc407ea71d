/-
# Names of addresses

`AddrToName` of `elf/backtrace` walks the symbol tables of the program's own image and copies the name of the first
symbol around the address into a buffer of 256 characters. It takes the number of sections from `e_shnum`, which has
16 bits and is 0 when they do not suffice, counts symbols in an `int`, and adds `st_value` and `st_size` in 64
bits.

`symbols` is the list of all symbols of an image, in the order of its sections and tables. The name is the first symbol's
that contains the address exactly if the loops get to a symbol of that name and it has at most 255
characters (`addr_to_name_iff`).

Key definitions: `addrToName`, `WellFormed`, `symbols`.
Key theorem: `addr_to_name_iff`.
-/
import OsLabs.Lib.Except

namespace OsLabs
namespace Elf

abbrev Byte := BitVec 8

abbrev Addr := BitVec 64

abbrev Image := List Byte

/-- What goes wrong: a read behind the image, a store behind `func_name`, or a division by zero. -/
inductive Fault
  | outside
  | bounds
  | divide
  deriving DecidableEq, Repr

/-- The number of `n` bytes at `off`, low byte first. -/
def field (image : Image) (off : ℕ) : ℕ → ℕ
  | 0 => 0
  | n + 1 => (image.getD off 0).toNat + 256 * field image (off + 1) n

def load (image : Image) (off n : ℕ) : Except Fault ℕ :=
  if off + n ≤ image.length then .ok (field image off n) else .error .outside

/-! ### The code -/

def SHT_SYMTAB : ℕ := 2
def SHT_DYNSYM : ℕ := 11

/-- `func_name` has 256 characters. -/
def FUNC_NAME : ℕ := 256

/-- `strcpy` from `off` on; `room` characters of `func_name` are left. -/
def strcpy (image : Image) : ℕ → ℕ → Except Fault (List Byte)
  | off, room => do
    let b ← load image off 1
    match room with
    | 0 => .error .bounds
    | room + 1 =>
      if b = 0 then .ok []
      else do
        let rest ← strcpy image (off + 1) room
        return image.getD off 0 :: rest

/-- The loop over a symbol table at `table`, of which `left` symbols from `j` on are left. `j` is an `int`: behind 2^31 - 1
it is negative, which is not below the unsigned `cnt_symbols`. -/
def symbolLoop (image : Image) (addr : Addr) (table names : ℕ) : ℕ → ℕ → Except Fault (Option (List Byte))
  | 0, _ => .ok none
  | left + 1, j =>
    if j = 2 ^ 31 then .ok none
    else do
      let value ← load image (table + 24 * j + 8) 8
      let size ← load image (table + 24 * j + 16) 8
      if value ≤ addr.toNat ∧ addr.toNat < (value + size) % 2 ^ 64 then do
        let name ← load image (table + 24 * j) 4
        let copied ← strcpy image (names + name) FUNC_NAME
        return some copied
      else symbolLoop image addr table names left (j + 1)

/-- The body of the loop over the sections, for the header at `header`. -/
def sectionStep (image : Image) (addr : Addr) (shoff header : ℕ) : Except Fault (Option (List Byte)) := do
  let type ← load image (header + 4) 4
  if type ≠ SHT_SYMTAB ∧ type ≠ SHT_DYNSYM then return none
  let size ← load image (header + 32) 8
  let entsize ← load image (header + 56) 8
  if entsize = 0 then .error .divide
  else do
    let table ← load image (header + 24) 8
    let link ← load image (header + 40) 4
    let names ← load image (shoff + 64 * link + 24) 8
    symbolLoop image addr table names (size / entsize) 0

/-- `left` sections from `i` on are left. -/
def sectionLoop (image : Image) (addr : Addr) (shoff : ℕ) : ℕ → ℕ → Except Fault (Option (List Byte))
  | 0, _ => .ok none
  | left + 1, i => do
    let found ← sectionStep image addr shoff (shoff + 64 * i)
    match found with
    | some name => return some name
    | none => sectionLoop image addr shoff left (i + 1)

/-- The result points to `func_name`, or is null. -/
def addrToName (image : Image) (addr : Addr) : Except Fault (Option (List Byte)) := do
  let shoff ← load image 40 8
  let shnum ← load image 60 2
  sectionLoop image addr shoff shnum 0

/-! ### What is in an image -/

def shoff (image : Image) : ℕ := field image 40 8

def eShnum (image : Image) : ℕ := field image 60 2

/-- The number of sections. If it does not fit in `e_shnum`, it is in the first section. -/
def shnum (image : Image) : ℕ :=
  if eShnum image ≠ 0 then eShnum image else if shoff image = 0 then 0 else field image (shoff image + 32) 8

def header (image : Image) (i : ℕ) : ℕ := shoff image + 64 * i

def isTable (image : Image) (i : ℕ) : Bool :=
  field image (header image i + 4) 4 = SHT_SYMTAB || field image (header image i + 4) 4 = SHT_DYNSYM

def offset (image : Image) (i : ℕ) : ℕ := field image (header image i + 24) 8

def size (image : Image) (i : ℕ) : ℕ := field image (header image i + 32) 8

def link (image : Image) (i : ℕ) : ℕ := field image (header image i + 40) 4

def entsize (image : Image) (i : ℕ) : ℕ := field image (header image i + 56) 8

/-- The characters up to the next NUL. -/
def cstring (image : Image) (off : ℕ) : List Byte := (image.drop off).takeWhile (· ≠ 0)

structure Symbol where
  sec : ℕ
  index : ℕ
  value : ℕ
  size : ℕ
  name : List Byte
  deriving DecidableEq, Repr

def symbol (image : Image) (i j : ℕ) : Symbol where
  sec := i
  index := j
  value := field image (offset image i + 24 * j + 8) 8
  size := field image (offset image i + 24 * j + 16) 8
  name := cstring image (offset image (link image i) + field image (offset image i + 24 * j) 4)

def tableOf (image : Image) (i : ℕ) : List Symbol :=
  if isTable image i then (List.range (size image i / entsize image i)).map (symbol image i) else []

/-- All symbols, section by section. -/
def symbols (image : Image) : List Symbol := (List.range (shnum image)).flatMap (tableOf image)

def Symbol.Contains (s : Symbol) (addr : Addr) : Prop := s.value ≤ addr.toNat ∧ addr.toNat < s.value + s.size

instance (s : Symbol) (addr : Addr) : Decidable (s.Contains addr) := inferInstanceAs (Decidable (_ ∧ _))

/-- A symbol table, and the string table that it is linked to, lie in the image, and every name ends in the string table. -/
structure Table (image : Image) (i : ℕ) : Prop where
  stride : entsize image i = 24
  inside : offset image i + size image i ≤ image.length
  linked : link image i < shnum image
  strings : offset image (link image i) + size image (link image i) ≤ image.length
  names : ∀ j < size image i / 24, ∃ k < size image (link image i), field image (offset image i + 24 * j) 4 ≤ k ∧
    image.getD (offset image (link image i) + k) 0 = 0

structure WellFormed (image : Image) : Prop where
  ehdr : 64 ≤ image.length
  shentsize : field image 58 2 = 64
  shdrs : shoff image + 64 * shnum image ≤ image.length
  tables : ∀ i < shnum image, isTable image i = true → Table image i

instance (image : Image) (i : ℕ) : Decidable (Table image i) :=
  decidable_of_iff (Elf.entsize image i = 24 ∧ offset image i + size image i ≤ image.length ∧ link image i < shnum image ∧
      offset image (link image i) + size image (link image i) ≤ image.length ∧
      ∀ j < size image i / 24, ∃ k < size image (link image i), field image (offset image i + 24 * j) 4 ≤ k ∧
        image.getD (offset image (link image i) + k) 0 = 0)
    ⟨fun ⟨h1, h2, h3, h4, h5⟩ => ⟨h1, h2, h3, h4, h5⟩, fun ⟨h1, h2, h3, h4, h5⟩ => ⟨h1, h2, h3, h4, h5⟩⟩

instance : DecidablePred WellFormed := fun image =>
  decidable_of_iff (64 ≤ image.length ∧ field image 58 2 = 64 ∧ shoff image + 64 * shnum image ≤ image.length ∧
      ∀ i < shnum image, isTable image i = true → Table image i)
    ⟨fun ⟨h1, h2, h3, h4⟩ => ⟨h1, h2, h3, h4⟩, fun ⟨h1, h2, h3, h4⟩ => ⟨h1, h2, h3, h4⟩⟩

/-! ### Reading a well-formed image -/

section

variable {image : Image} {addr : Addr} {i off n : ℕ}

theorem load_ok (h : off + n ≤ image.length) : load image off n = .ok (field image off n) := if_pos h

theorem field_one (off : ℕ) : field image off 1 = (image.getD off 0).toNat := Nat.add_zero _

theorem cstring_zero (h : image.getD off 0 = 0) : cstring image off = [] := by
  unfold cstring
  by_cases hlt : off < image.length
  · rw [List.getD_eq_getElem _ _ hlt] at h
    rw [List.drop_eq_getElem_cons hlt, List.takeWhile_cons, h]
    rfl
  · rw [List.drop_eq_nil_of_le (Nat.le_of_not_lt hlt)]
    rfl

theorem cstring_cons (hlt : off < image.length) (h : image.getD off 0 ≠ 0) :
    cstring image off = image.getD off 0 :: cstring image (off + 1) := by
  unfold cstring
  rw [List.getD_eq_getElem _ _ hlt] at h ⊢
  rw [List.drop_eq_getElem_cons hlt, List.takeWhile_cons, if_pos (decide_eq_true h)]

/-- A name that ends in the image is copied if there is room for it and for its NUL. -/
theorem strcpy_eq : ∀ (k off room : ℕ), off + k < image.length → image.getD (off + k) 0 = 0 →
    strcpy image off room = if (cstring image off).length < room then .ok (cstring image off) else .error .bounds := by
  intro k
  induction k with
  | zero =>
    intro off room hlt hzero
    rw [Nat.add_zero] at hlt hzero
    have hload : load image off 1 = .ok 0 := by
      rw [load_ok hlt, field_one, hzero]
      rfl
    unfold strcpy
    rw [hload, cstring_zero hzero]
    cases room <;> rfl
  | succ k ih =>
    intro off room hlt hzero
    have hoff : off < image.length := by omega
    by_cases hnul : image.getD off 0 = 0
    · have hload : load image off 1 = .ok 0 := by
        rw [load_ok hoff, field_one, hnul]
        rfl
      unfold strcpy
      rw [hload, cstring_zero hnul]
      cases room <;> rfl
    · have hload : load image off 1 = .ok (image.getD off 0).toNat := by rw [load_ok hoff, field_one]
      have hne : (image.getD off 0).toNat ≠ 0 := fun hn => hnul (BitVec.eq_of_toNat_eq hn)
      have hnext : off + (k + 1) = off + 1 + k := by omega
      rw [hnext] at hlt hzero
      unfold strcpy
      rw [hload, ok_bind, cstring_cons hoff hnul, List.length_cons]
      cases room with
      | zero => exact (if_neg (Nat.not_lt_zero _)).symm
      | succ room =>
        have hlen : (cstring image (off + 1)).length + 1 < room + 1 ↔ (cstring image (off + 1)).length < room :=
          Nat.succ_lt_succ_iff
        simp only [hne, if_false, ih (off + 1) room hlt hzero, hlen]
        split_ifs <;> rfl

/-- What is done about a symbol that has been found. -/
def outcome : Option Symbol → Except Fault (Option (List Byte))
  | none => .ok none
  | some s => if s.name.length < FUNC_NAME then .ok (some s.name) else .error .bounds

/-- The loops get to a symbol in `e_shnum` sections and at 2^31 places of its table, if its end is below 2^64. -/
def Symbol.Reached (image : Image) (s : Symbol) : Prop :=
  s.sec < eShnum image ∧ s.index < 2 ^ 31 ∧ s.value + s.size < 2 ^ 64

instance (image : Image) (s : Symbol) : Decidable (s.Reached image) := inferInstanceAs (Decidable (_ ∧ _))

/-- What the code finds around an address. -/
def Symbol.Hit (image : Image) (addr : Addr) (s : Symbol) : Bool := s.Reached image ∧ s.Contains addr

/-- The code's comparison of a symbol with the address. -/
theorem contains_wrapped (s : Symbol) (hvalue : s.value < 2 ^ 64) (hsize : s.size < 2 ^ 64) :
    (s.value ≤ addr.toNat ∧ addr.toNat < (s.value + s.size) % 2 ^ 64) ↔
      s.value + s.size < 2 ^ 64 ∧ s.Contains addr := by
  unfold Symbol.Contains
  by_cases h : s.value + s.size < 2 ^ 64
  · rw [Nat.mod_eq_of_lt h]
    exact ⟨fun hc => ⟨h, hc⟩, fun hc => hc.2⟩
  · have hwrap : (s.value + s.size) % 2 ^ 64 = s.value + s.size - 2 ^ 64 := by
      rw [Nat.mod_eq_sub_mod (by omega), Nat.mod_eq_of_lt (by omega)]
    rw [hwrap]
    omega

theorem field_lt (image : Image) : ∀ (n off : ℕ), field image off n < 256 ^ n
  | 0, _ => Nat.one_pos
  | n + 1, off => by
    have hrest := field_lt image n (off + 1)
    have hbyte := (image.getD off 0).isLt
    rw [field, pow_succ]
    omega

theorem field_lt_word (image : Image) (off : ℕ) : field image off 8 < 2 ^ 64 :=
  (field_lt image 8 off).trans_eq (by norm_num)

theorem hit_iff {s : Symbol} : s.Hit image addr = true ↔ s.Reached image ∧ s.Contains addr := decide_eq_true_iff

theorem outcome_hit {s : Symbol} {rest : List Symbol} (h : s.Hit image addr = true) :
    outcome ((s :: rest).find? (Symbol.Hit image addr)) = outcome (some s) := by
  rw [List.find?_cons_of_pos h]

theorem outcome_miss {s : Symbol} {rest : List Symbol} (h : ¬ s.Hit image addr = true) :
    outcome ((s :: rest).find? (Symbol.Hit image addr)) = outcome (rest.find? (Symbol.Hit image addr)) := by
  rw [List.find?_cons_of_neg h]

/-- A symbol table is searched from the front. -/
theorem symbolLoop_eq (htable : Table image i) (hi : i < eShnum image) : ∀ (left j : ℕ),
    j + left = size image i / 24 → j ≤ 2 ^ 31 →
    symbolLoop image addr (offset image i) (offset image (link image i)) left j =
      outcome (((List.range' j left).map (symbol image i)).find? (Symbol.Hit image addr)) := by
  intro left
  induction left with
  | zero => exact fun _ _ _ => rfl
  | succ left ih =>
    intro j hj hle
    by_cases hlast : j = 2 ^ 31
    · have hnone : ((List.range' j (left + 1)).map (symbol image i)).find? (Symbol.Hit image addr) = none := by
        rw [List.find?_eq_none]
        intro s hs hhit
        obtain ⟨k, hk, rfl⟩ := List.mem_map.mp hs
        have hlt : k < 2 ^ 31 := (hit_iff.mp hhit).1.2.1
        have hge := (List.mem_range'_1.mp hk).1
        omega
      rw [hnone, symbolLoop, if_pos hlast]
      rfl
    have hlt : j < size image i / 24 := by omega
    have hinside := htable.inside
    have hvalue : load image (offset image i + 24 * j + 8) 8 = .ok (symbol image i j).value := load_ok (by omega)
    have hsize : load image (offset image i + 24 * j + 16) 8 = .ok (symbol image i j).size := load_ok (by omega)
    have hname : load image (offset image i + 24 * j) 4 = .ok (field image (offset image i + 24 * j) 4) := load_ok (by omega)
    have hhit : (symbol image i j).Hit image addr = true ↔ (symbol image i j).value ≤ addr.toNat ∧
        addr.toNat < ((symbol image i j).value + (symbol image i j).size) % 2 ^ 64 := by
      have hsec : (symbol image i j).sec < eShnum image := hi
      have hindex : (symbol image i j).index < 2 ^ 31 := Nat.lt_of_le_of_ne hle hlast
      have hwrap := @contains_wrapped addr (symbol image i j) (field_lt_word image _) (field_lt_word image _)
      rw [hwrap, hit_iff, Symbol.Reached, and_iff_right hsec, and_iff_right hindex]
    rw [symbolLoop, if_neg hlast, hvalue, ok_bind, hsize, ok_bind, List.range'_succ, List.map_cons]
    by_cases hcond : (symbol image i j).Hit image addr = true
    · obtain ⟨k, hk, hge, hnul⟩ := htable.names j hlt
      have hstrings := htable.strings
      have hcopy : strcpy image (offset image (link image i) + field image (offset image i + 24 * j) 4) FUNC_NAME =
          if (symbol image i j).name.length < FUNC_NAME then .ok (symbol image i j).name else .error .bounds :=
        strcpy_eq (k - field image (offset image i + 24 * j) 4) _ FUNC_NAME (by omega)
          (by rw [Nat.add_assoc, Nat.add_sub_cancel' hge]; exact hnul)
      have houtcome : outcome (some (symbol image i j)) =
          if (symbol image i j).name.length < FUNC_NAME then .ok (some (symbol image i j).name) else .error .bounds := rfl
      rw [if_pos (hhit.mp hcond), hname, ok_bind, hcopy, outcome_hit hcond, houtcome]
      split_ifs <;> rfl
    · rw [if_neg fun hn => hcond (hhit.mpr hn), outcome_miss hcond]
      exact ih (j + 1) (by omega) (by omega)

/-- A section is searched if it is a symbol table. -/
theorem sectionStep_eq (h : WellFormed image) (hi : i < eShnum image) (hle : i < shnum image) :
    sectionStep image addr (shoff image) (header image i) = outcome ((tableOf image i).find? (Symbol.Hit image addr)) := by
  have hshdrs := h.shdrs
  have hfield : ∀ off n, off + n ≤ 64 → load image (header image i + off) n = .ok (field image (header image i + off) n) :=
    fun off n hn => load_ok (by unfold header; omega)
  unfold sectionStep tableOf
  rw [hfield 4 4 (by decide), ok_bind]
  by_cases htype : isTable image i = true
  · have htable := h.tables i hle htype
    have hcond : ¬ (field image (header image i + 4) 4 ≠ SHT_SYMTAB ∧ field image (header image i + 4) 4 ≠ SHT_DYNSYM) := by
      simpa [isTable, or_iff_not_imp_left] using htype
    have hlinked := htable.linked
    have hnames : load image (shoff image + 64 * link image i + 24) 8 = .ok (offset image (link image i)) :=
      load_ok (by omega)
    have hloop := @symbolLoop_eq image addr i htable hi (size image i / 24) 0 (Nat.zero_add _) (Nat.zero_le _)
    have hentsize : field image (header image i + 56) 8 = 24 := htable.stride
    have hlink : field image (header image i + 40) 4 = link image i := rfl
    rw [if_neg hcond, if_pos htype, hfield 32 8 (by decide), ok_bind, hfield 56 8 (by decide), ok_bind, hentsize,
      if_neg (by decide), hfield 24 8 (by decide), ok_bind, hfield 40 4 (by decide), ok_bind, hlink, hnames, ok_bind,
      htable.stride, List.range_eq_range']
    exact hloop
  · have hcond : field image (header image i + 4) 4 ≠ SHT_SYMTAB ∧ field image (header image i + 4) 4 ≠ SHT_DYNSYM := by
      simpa [isTable] using htype
    rw [if_pos hcond, if_neg htype]
    rfl

theorem sectionLoop_eq (h : WellFormed image) : ∀ (left i : ℕ), i + left ≤ eShnum image → i + left ≤ shnum image →
    sectionLoop image addr (shoff image) left i =
      outcome (((List.range' i left).flatMap (tableOf image)).find? (Symbol.Hit image addr)) := by
  intro left
  induction left with
  | zero => exact fun _ _ _ => rfl
  | succ left ih =>
    intro i hi hle
    have hstep := @sectionStep_eq image addr i h (by omega) (by omega)
    have hrest := ih (i + 1) (by omega) (by omega)
    rw [sectionLoop, ← header, hstep, List.range'_succ, List.flatMap_cons, List.find?_append]
    cases hfound : (tableOf image i).find? (Symbol.Hit image addr) with
    | none =>
      rw [Option.none_or]
      exact hrest
    | some s =>
      rw [Option.some_or]
      unfold outcome
      dsimp only
      split_ifs <;> rfl

/-- No symbol of a section from `e_shnum` on is reached. -/
theorem find_reached (image : Image) (addr : Addr) : (symbols image).find? (Symbol.Hit image addr) =
    ((List.range (eShnum image)).flatMap (tableOf image)).find? (Symbol.Hit image addr) := by
  unfold symbols shnum
  split_ifs with h hoff
  · rfl
  · rw [not_not.mp h]
  · have hzero : eShnum image = 0 := not_not.mp h
    rw [hzero]
    refine List.find?_eq_none.mpr fun s _ hhit => ?_
    have hsec := (hit_iff.mp hhit).1.1
    rw [hzero] at hsec
    exact Nat.not_lt_zero _ hsec

theorem addrToName_eq (h : WellFormed image) (addr : Addr) :
    addrToName image addr = outcome ((symbols image).find? (Symbol.Hit image addr)) := by
  have hehdr := h.ehdr
  have hle : eShnum image ≤ shnum image := by
    unfold shnum
    split_ifs <;> omega
  have hoff : load image 40 8 = .ok (shoff image) := load_ok (by omega)
  have hnum : load image 60 2 = .ok (eShnum image) := load_ok (by omega)
  rw [addrToName, hoff, ok_bind, hnum, ok_bind, find_reached, List.range_eq_range']
  exact sectionLoop_eq h (eShnum image) 0 (by omega) (by omega)

/-- The loops get to a symbol with the name of the first one that contains the address, and `func_name` has room for it. -/
def Complete (image : Image) (addr : Addr) : Prop :=
  ∀ s, (symbols image).find? (·.Contains addr) = some s →
    s.name.length < FUNC_NAME ∧
      ((symbols image).find? fun s => s.Reached image ∧ s.Contains addr).map Symbol.name = some s.name

/-- **The name of an address.** In a well-formed image the result is the name of the first symbol that contains the
address, or null if there is none, with every store in `func_name`, if and only if the loops get to a symbol of that
name and it has at most 255 characters. -/
theorem addr_to_name_iff (h : WellFormed image) (addr : Addr) :
    addrToName image addr = .ok (((symbols image).find? (·.Contains addr)).map Symbol.name) ↔ Complete image addr := by
  have hhit : ((symbols image).find? fun s => s.Reached image ∧ s.Contains addr) =
      (symbols image).find? (Symbol.Hit image addr) := rfl
  unfold Complete
  rw [addrToName_eq h, hhit]
  cases hfirst : (symbols image).find? (·.Contains addr) with
  | none =>
    have hnone : (symbols image).find? (Symbol.Hit image addr) = none := by
      rw [List.find?_eq_none] at hfirst ⊢
      exact fun s hs hn => hfirst s hs (decide_eq_true (hit_iff.mp hn).2)
    rw [hnone]
    exact iff_of_true rfl fun s hs => absurd hs.symm (Option.some_ne_none s)
  | some s =>
    simp only [Option.map_some, Option.some.injEq, forall_eq']
    cases (symbols image).find? (Symbol.Hit image addr) with
    | none => exact iff_of_false (fun hn => Option.some_ne_none _ (Except.ok.inj hn).symm) fun hn => Option.some_ne_none _ hn.2.symm
    | some t =>
      simp only [outcome, Option.map_some, Option.some.injEq]
      constructor
      · intro hok
        split_ifs at hok with hroom
        have hname := Option.some.inj (Except.ok.inj hok)
        exact ⟨hname ▸ hroom, hname⟩
      · rintro ⟨hroom, hname⟩
        rw [hname, if_pos hroom]

end

/-! ### An image -/

/-- `n` bytes. -/
def le (n x : ℕ) : List Byte := (List.range n).map fun i => BitVec.ofNat 8 (x / 256 ^ i)

def ehdr (shoff shnum : ℕ) : List Byte := le 40 0 ++ le 8 shoff ++ le 10 0 ++ le 2 64 ++ le 2 shnum ++ le 2 0

def shdr (type offset size link entsize : ℕ) : List Byte :=
  le 4 0 ++ le 4 type ++ le 16 0 ++ le 8 offset ++ le 8 size ++ le 4 link ++ le 12 0 ++ le 8 entsize

def sym (name value size : ℕ) : List Byte := le 4 name ++ le 4 0 ++ le 8 value ++ le 8 size

/-- A symbol table with one function of 32 bytes at 0x1000, and its string table. -/
def oneFunction (name : List Byte) : Image :=
  ehdr (90 + name.length) 3 ++ sym 1 0x1000 0x20 ++ 0 :: name ++ [0] ++
    shdr 0 0 0 0 0 ++ shdr SHT_SYMTAB 64 24 2 24 ++ shdr 3 88 (name.length + 2) 0 0

def main' : List Byte := [109, 97, 105, 110]

theorem addr_to_name_iff_main : addrToName (oneFunction main') 0x1010 = .ok (some main') := by
  have hfirst : (symbols (oneFunction main')).find? (·.Contains 0x1010) = some ⟨1, 0, 0x1000, 0x20, main'⟩ := by decide +kernel
  have hcomplete : Complete (oneFunction main') 0x1010 := fun s hs => by
    obtain rfl : _ = s := Option.some.inj (hfirst.symm.trans hs)
    exact ⟨by decide +kernel, by decide +kernel⟩
  have hname := (addr_to_name_iff (by decide +kernel) 0x1010).mpr hcomplete
  rw [hfirst] at hname
  exact hname

/-- The NUL behind the name is the last byte of the string table. -/
theorem oneFunction_long : WellFormed (oneFunction (List.replicate 256 97)) := by
  refine ⟨by decide +kernel, by decide +kernel, by decide +kernel, fun i hi htab => ?_⟩
  have hnum : shnum (oneFunction (List.replicate 256 97)) = 3 := by decide +kernel
  rw [hnum] at hi
  interval_cases i
  · exact absurd htab (by decide +kernel)
  · refine ⟨by decide +kernel, by decide +kernel, by decide +kernel, by decide +kernel, fun j hj => ?_⟩
    have hone : size (oneFunction (List.replicate 256 97)) 1 / 24 = 1 := by decide +kernel
    rw [hone, Nat.lt_one_iff] at hj
    rw [hj]
    exact ⟨257, by decide +kernel, by decide +kernel, by decide +kernel⟩
  · exact absurd htab (by decide +kernel)

/-- A name of 256 characters. -/
theorem name_overruns : WellFormed (oneFunction (List.replicate 256 97)) ∧
    ((symbols (oneFunction (List.replicate 256 97))).find? (·.Contains 0x1010)).map Symbol.name =
      some (List.replicate 256 97) ∧
    addrToName (oneFunction (List.replicate 256 97)) 0x1010 = .error .bounds := by
  refine ⟨oneFunction_long, by decide +kernel, ?_⟩
  rw [addrToName_eq oneFunction_long]
  decide +kernel

end Elf
end OsLabs
