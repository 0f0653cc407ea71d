/-
# Widths in `printf`

`syscall/date` adds a form `%0<width>` to the `printf` of user programs. `readint` reads the width and `printint` fills its
buffer of 16 characters up to it, from the last digit on; nothing compares the width with 16.

`pieces` reads a format as its author means it, with widths of any size, and `printed` is what it asks for. `printf`
prints this, within its buffer, exactly if no number in the format is wider than 16 (`printf_prints`).

Key definitions: `printf`, `printint`, `pieces`, `numeral`.
Key theorem: `printf_prints`.
-/
import OsLabs.Lib.Except
import OsLabs.Xv6.Vm

namespace OsLabs
namespace Printf

open Xv6

inductive Fault
  | bounds
  deriving DecidableEq, Repr

def digits : List Char := "0123456789ABCDEF".toList

def digit (i : ℕ) : Char := digits.getD i '?'

/-- The loop over the digits of `x`; `room` of the characters of `buf` are left. -/
def digitLoop (base : Word) : ℕ → Word → List Char → Except Fault (List Char)
  | 0, _, _ => .error .bounds
  | room + 1, x, buf =>
    if x / base ≠ 0 then digitLoop base room (x / base) (buf ++ [digit (x % base).toNat])
    else .ok (buf ++ [digit (x % base).toNat])

/-- The loop over the zeros. -/
def padLoop (bound : Word) : ℕ → List Char → Except Fault (List Char)
  | 0, buf => if (buf.length : ℤ) < bound.toInt then .error .bounds else .ok buf
  | room + 1, buf => if (buf.length : ℤ) < bound.toInt then padLoop bound room (buf ++ ['0']) else .ok buf

/-- What is printed is `buf` from its end. -/
def printint (xx base : Word) (sgn : Bool) (len : Word) : Except Fault (List Char) := do
  let neg := sgn && xx.toInt < 0
  let x := if neg then -xx else xx
  let buf ← digitLoop base 16 x []
  let buf ← padLoop (len - if neg then 1 else 0) (16 - buf.length) buf
  if neg then
    if buf.length < 16 then .ok (buf ++ ['-']).reverse else .error .bounds
  else .ok buf.reverse

/-- How many characters were read, and the number. -/
def readint : List Char → Word → ℕ × Word
  | c :: rest, l =>
    if '0' ≤ c ∧ c ≤ '9' then
      let (i, l) := readint rest (l * 10 + BitVec.ofNat 32 c.toNat - 48)
      (i + 1, l)
    else (0, l)
  | [], l => (0, l)

/-- `state` in `printf`. -/
inductive Scan
  | plain
  | percent
  deriving DecidableEq, Repr

-- `args` are the words behind `fmt` on the stack, and `strings` what the pointers among them point to.
variable (args : ℕ → Word) (strings : Word → List Char)

/-- The conversions that print no number. -/
def convertOther (c : Char) (ap : ℕ) : List Char × ℕ :=
  if c = 's' then (if args ap = 0 then "(null)".toList else strings (args ap), ap + 1)
  else if c = 'c' then ([Char.ofNat ((args ap).toNat % 256)], ap + 1)
  else if c = '%' then ([c], ap)
  else (['%', c], ap)

def convert (c : Char) (len : Word) (ap : ℕ) : Except Fault (List Char × ℕ) :=
  if c = 'd' then (printint (args ap) 10 true len).map (·, ap + 1)
  else if c = 'x' ∨ c = 'p' then (printint (args ap) 16 false len).map (·, ap + 1)
  else .ok (convertOther args strings c ap)

/-- The loop of `printf` over the characters of the format; `skip` of them have been read by `readint`. -/
def printfLoop : List Char → ℕ → Scan → Word → ℕ → Except Fault (List Char)
  | [], _, _, _, _ => .ok []
  | _ :: rest, skip + 1, state, len, ap => printfLoop rest skip state len ap
  | c :: rest, 0, .plain, len, ap =>
    if c = '%' then printfLoop rest 0 .percent 0 ap
    else do
      let out ← printfLoop rest 0 .plain len ap
      return c :: out
  | c :: rest, 0, .percent, len, ap =>
    if c = '0' then printfLoop rest (readint rest len).1 .percent (readint rest len).2 ap
    else do
      let (text, ap) ← convert args strings c len ap
      let out ← printfLoop rest 0 .plain len ap
      return text ++ out

def printf (fmt : List Char) : Except Fault (List Char) := printfLoop args strings fmt 0 .plain 0 0

/-! ### What a format asks for -/

/-- The digits of a number, the last one first. -/
def lastFirst (base n : ℕ) : List Char := ((if n = 0 then [0] else Nat.digits base n).map digit)

/-- A number with its sign, and with zeros so that it is `w` characters wide. -/
def numeral (w base : ℕ) (neg : Bool) (n : ℕ) : List Char :=
  let sign := if neg then ['-'] else []
  sign ++ List.replicate (w - (sign.length + (lastFirst base n).length)) '0' ++ (lastFirst base n).reverse

inductive Piece
  | text (c : Char)
  | conv (width : ℕ) (c : Char)
  deriving DecidableEq, Repr

/-- How many characters a width takes, and the width. -/
def widthOf : List Char → ℕ → ℕ × ℕ
  | c :: rest, w =>
    if '0' ≤ c ∧ c ≤ '9' then
      let (i, w) := widthOf rest (w * 10 + (c.toNat - 48))
      (i + 1, w)
    else (0, w)
  | [], w => (0, w)

def piecesLoop : List Char → ℕ → Scan → ℕ → List Piece
  | [], _, _, _ => []
  | _ :: rest, skip + 1, state, w => piecesLoop rest skip state w
  | c :: rest, 0, .plain, w => if c = '%' then piecesLoop rest 0 .percent 0 else .text c :: piecesLoop rest 0 .plain w
  | c :: rest, 0, .percent, w =>
    if c = '0' then piecesLoop rest (widthOf rest w).1 .percent (widthOf rest w).2
    else .conv w c :: piecesLoop rest 0 .plain w

def pieces (fmt : List Char) : List Piece := piecesLoop fmt 0 .plain 0

namespace Piece

def printed (ap : ℕ) : Piece → List Char × ℕ
  | text c => ([c], ap)
  | conv w c =>
    if c = 'd' then (numeral w 10 ((args ap).toInt < 0) (args ap).toInt.natAbs, ap + 1)
    else if c = 'x' ∨ c = 'p' then (numeral w 16 false (args ap).toNat, ap + 1)
    else convertOther args strings c ap

def Numeric (c : Char) : Prop := c = 'd' ∨ c = 'x' ∨ c = 'p'

instance : DecidablePred Numeric := fun _ => inferInstanceAs (Decidable (_ ∨ _))

/-- The buffer has room for it. -/
def Fits : Piece → Prop
  | text _ => True
  | conv w c => Numeric c → w ≤ 16

instance : DecidablePred Fits
  | text _ => inferInstanceAs (Decidable True)
  | conv _ _ => inferInstanceAs (Decidable (_ → _))

end Piece

def printed : List Piece → ℕ → List Char
  | [], _ => []
  | p :: ps, ap => (p.printed args strings ap).1 ++ printed ps (p.printed args strings ap).2

/-! ### Digits -/

section

variable {b n : ℕ} {base x : Word}

theorem lastFirst_small (hn : n < b) : lastFirst b n = [digit n] := by
  unfold lastFirst
  split_ifs with h
  · rw [h]
    rfl
  · rw [Nat.digits_of_lt b n h hn]
    rfl

theorem lastFirst_big (hb : 1 < b) (hn : b ≤ n) : lastFirst b n = digit (n % b) :: lastFirst b (n / b) := by
  have hpos : 0 < n := by omega
  have hdiv : n / b ≠ 0 := (Nat.div_pos hn (by omega)).ne'
  unfold lastFirst
  rw [if_neg hpos.ne', if_neg hdiv, Nat.digits_def' hb hpos]
  rfl

/-- A word has at most ten digits. -/
theorem length_lastFirst_le (hb : 10 ≤ b) (hn : n < 2 ^ 32) : (lastFirst b n).length ≤ 10 := by
  unfold lastFirst
  rw [List.length_map]
  split_ifs with h
  · decide
  · have hlt : n < b ^ 10 := by
      calc n < 2 ^ 32 := hn
        _ ≤ 10 ^ 10 := by decide
        _ ≤ b ^ 10 := Nat.pow_le_pow_left hb 10
    exact (Nat.digits_length_le_iff (by omega) n).mpr hlt

theorem length_numeral_ge (w : ℕ) (neg : Bool) : w ≤ (numeral w b neg n).length := by
  unfold numeral
  simp only [List.length_append, List.length_replicate, List.length_reverse]
  omega

theorem lastFirst_ne_nil : lastFirst b n ≠ [] := by
  unfold lastFirst
  split_ifs with h
  · exact List.cons_ne_nil _ _
  · exact fun hn => Nat.digits_ne_nil_iff_ne_zero.mpr h (List.map_eq_nil_iff.mp hn)

theorem digitLoop_eq (hbase : 1 < base.toNat) : ∀ (room : ℕ) (x : Word) (buf : List Char),
    (lastFirst base.toNat x.toNat).length ≤ room → digitLoop base room x buf = .ok (buf ++ lastFirst base.toNat x.toNat) := by
  intro room
  induction room with
  | zero =>
    intro x buf h
    exact absurd (List.length_eq_zero_iff.mp (Nat.le_zero.mp h)) lastFirst_ne_nil
  | succ room ih =>
    intro x buf h
    have hdiv : (x / base).toNat = x.toNat / base.toNat := BitVec.toNat_udiv
    have hmod : (x % base).toNat = x.toNat % base.toNat := BitVec.toNat_umod
    have hzero : x / base = 0 ↔ x.toNat < base.toNat := by
      rw [← BitVec.toNat_inj, hdiv]
      exact Nat.div_eq_zero_iff_lt (by omega)
    unfold digitLoop
    by_cases hlt : x.toNat < base.toNat
    · rw [if_neg (not_not_intro (hzero.mpr hlt)), hmod, Nat.mod_eq_of_lt hlt, lastFirst_small hlt]
    · have hbig := lastFirst_big hbase (Nat.le_of_not_lt hlt)
      rw [hbig, List.length_cons] at h
      rw [← hdiv] at hbig h
      rw [if_pos fun hn => hlt (hzero.mp hn), ih (x / base) _ (Nat.le_of_succ_le_succ h), hmod, hbig, List.append_assoc,
        List.singleton_append]

theorem digitLoop_length : ∀ (room : ℕ) (x : Word) (buf : List Char) {out : List Char},
    digitLoop base room x buf = .ok out → out.length ≤ buf.length + room := by
  intro room
  induction room with
  | zero => exact fun x buf out h => by cases h
  | succ room ih =>
    intro x buf out h
    unfold digitLoop at h
    split_ifs at h
    · have hlen := ih _ _ h
      rw [List.length_append, List.length_singleton] at hlen
      omega
    · cases h
      rw [List.length_append, List.length_singleton]
      omega

theorem padLoop_eq {bound : Word} : ∀ (room : ℕ) (buf : List Char), bound.toInt ≤ buf.length + room →
    padLoop bound room buf = .ok (buf ++ List.replicate (bound.toInt - buf.length).toNat '0') := by
  intro room
  induction room with
  | zero =>
    intro buf h
    have hzero : (bound.toInt - buf.length).toNat = 0 := by omega
    rw [padLoop, if_neg (by omega), hzero, List.replicate_zero, List.append_nil]
  | succ room ih =>
    intro buf h
    unfold padLoop
    split_ifs with hlt
    · have hlen : (buf ++ ['0']).length = buf.length + 1 := by rw [List.length_append, List.length_singleton]
      have hsucc : (bound.toInt - buf.length).toNat = (bound.toInt - (buf ++ ['0']).length).toNat + 1 := by
        rw [hlen]
        omega
      rw [ih (buf ++ ['0']) (by rw [hlen]; omega), hsucc, List.replicate_succ, List.append_assoc, List.singleton_append]
    · have hzero : (bound.toInt - buf.length).toNat = 0 := by omega
      rw [hzero, List.replicate_zero, List.append_nil]

theorem padLoop_length {bound : Word} : ∀ (room : ℕ) (buf : List Char) {out : List Char},
    padLoop bound room buf = .ok out → out.length ≤ buf.length + room := by
  intro room
  induction room with
  | zero =>
    intro buf out h
    unfold padLoop at h
    split_ifs at h
    cases h
    exact le_rfl
  | succ room ih =>
    intro buf out h
    unfold padLoop at h
    split_ifs at h
    · have hlen := ih _ h
      rw [List.length_append, List.length_singleton] at hlen
      omega
    · cases h
      omega

/-! ### Numbers -/

/-- Whatever is printed was in the buffer. -/
theorem printint_length {xx len : Word} {sgn : Bool} {out : List Char} (h : printint xx base sgn len = .ok out) :
    out.length ≤ 16 := by
  unfold printint at h
  obtain ⟨buf, hdigits, h⟩ := of_bind_ok h
  obtain ⟨buf', hpad, h⟩ := of_bind_ok h
  have h1 := digitLoop_length _ _ _ hdigits
  have h2 := padLoop_length _ _ hpad
  rw [List.length_nil, Nat.zero_add] at h1
  split_ifs at h with hneg hroom
  · cases h
    rw [List.length_reverse, List.length_append, List.length_singleton]
    omega
  · cases h
    rw [List.length_reverse]
    omega

theorem toInt_bound {w : ℕ} (hw : w ≤ 16) (neg : Bool) :
    (BitVec.ofNat 32 w - if neg then 1 else 0).toInt = (w : ℤ) - if neg then 1 else 0 := by
  have hsmall : ∀ z : ℤ, -1 ≤ z → z ≤ 16 → z.bmod (2 ^ 32) = z := fun z h1 h2 =>
    Int.bmod_eq_of_le (by omega) (by omega)
  have hw' : (BitVec.ofNat 32 w).toInt = w := by rw [BitVec.toInt_ofNat', hsmall w (by omega) (by omega)]
  rw [BitVec.toInt_sub, hw']
  cases neg
  · exact hsmall (w - 0) (by omega) (by omega)
  · exact hsmall (w - 1) (by omega) (by omega)

/-- A number in its buffer: the digits, the zeros and the sign, from the end on. -/
theorem printint_eq {xx : Word} {sgn : Bool} {w : ℕ} (hbase : 10 ≤ base.toNat) (hw : w ≤ 16) :
    printint xx base sgn (BitVec.ofNat 32 w) =
      .ok (numeral w base.toNat (sgn && xx.toInt < 0)
        (if sgn && xx.toInt < 0 then -xx else xx).toNat) := by
  generalize hneg : (sgn && decide (xx.toInt < 0)) = neg
  generalize hx : (if neg = true then -xx else xx) = x
  have hdigits : (lastFirst base.toNat x.toNat).length ≤ 10 := length_lastFirst_le hbase x.isLt
  have hloop : digitLoop base 16 x [] = .ok (lastFirst base.toNat x.toNat) := by
    rw [digitLoop_eq (by omega) 16 x [] (by omega), List.nil_append]
  have hbound := toInt_bound hw neg
  unfold printint
  simp only [hneg, hx, hloop, ok_bind]
  rw [padLoop_eq _ _ (by rw [hbound]; split_ifs <;> omega), ok_bind, hbound]
  cases neg with
  | false =>
    have hk : ((w : ℤ) - 0 - (lastFirst base.toNat x.toNat).length).toNat = w - (0 + (lastFirst base.toNat x.toNat).length) := by
      omega
    simp only [Bool.false_eq_true, if_false, hk, numeral, List.length_nil, List.nil_append, List.reverse_append,
      List.reverse_replicate]
  | true =>
    have hk : ((w : ℤ) - 1 - (lastFirst base.toNat x.toNat).length).toNat = w - (1 + (lastFirst base.toNat x.toNat).length) := by
      omega
    have hroom : (lastFirst base.toNat x.toNat ++
        List.replicate (w - (1 + (lastFirst base.toNat x.toNat).length)) '0').length < 16 := by
      rw [List.length_append, List.length_replicate]
      omega
    simp only [if_true, hk, hroom, numeral, List.length_singleton, List.reverse_append, List.reverse_replicate,
      List.reverse_singleton, List.append_assoc]

/-! ### Formats -/

/-- `readint` reads the width, in a word. -/
theorem readint_eq : ∀ (rest : List Char) (w : ℕ),
    readint rest (BitVec.ofNat 32 w) = ((widthOf rest w).1, BitVec.ofNat 32 (widthOf rest w).2)
  | [], _ => rfl
  | c :: rest, w => by
    unfold readint widthOf
    by_cases hc : '0' ≤ c ∧ c ≤ '9'
    · have hle : 48 ≤ c.toNat := hc.1
      have hnext : BitVec.ofNat 32 w * 10 + BitVec.ofNat 32 c.toNat - 48 = BitVec.ofNat 32 (w * 10 + (c.toNat - 48)) := by
        calc BitVec.ofNat 32 w * 10 + BitVec.ofNat 32 c.toNat - 48
            = BitVec.ofNat 32 w * 10 + (BitVec.ofNat 32 (c.toNat - 48) + BitVec.ofNat 32 48) - 48 := by
              rw [← BitVec.ofNat_add, Nat.sub_add_cancel hle]
          _ = BitVec.ofNat 32 (w * 10 + (c.toNat - 48)) := by
              rw [← BitVec.add_assoc, BitVec.ofNat_add, BitVec.ofNat_mul]
              exact BitVec.add_sub_cancel _ _
      rw [if_pos hc, if_pos hc, hnext, readint_eq rest]
    · rw [if_neg hc, if_neg hc]

theorem toNat_magnitude (xx : Word) : (if xx.toInt < 0 then -xx else xx).toNat = xx.toInt.natAbs := by
  have hcond := BitVec.toInt_eq_toNat_cond xx
  have hlt := xx.isLt
  split_ifs with h
  · rw [BitVec.toNat_neg]
    split_ifs at hcond <;> omega
  · split_ifs at hcond <;> omega

/-- What is printed: `want` if it fits, and less than it if it does not. -/
structure Prints (fits : Prop) (got : Except Fault (List Char)) (want : List Char) : Prop where
  right : fits → got = .ok want
  short : ∀ text, got = .ok text → ¬ fits → text.length < want.length

theorem Prints.length_le {fits : Prop} {got : Except Fault (List Char)} {want text : List Char} (h : Prints fits got want)
    (htext : got = .ok text) : text.length ≤ want.length := by
  by_cases hfits : fits
  · rw [h.right hfits] at htext
    cases htext
    exact le_rfl
  · exact (h.short text htext hfits).le

/-- One text behind the other. -/
theorem Prints.append {fits fits' : Prop} {got got' : Except Fault (List Char)} {want want' : List Char}
    (h : Prints fits got want) (h' : Prints fits' got' want') :
    Prints (fits ∧ fits') (do let text ← got; let out ← got'; return text ++ out) (want ++ want') where
  right hfits := by
    rw [h.right hfits.1, h'.right hfits.2]
    rfl
  short out hout hfits := by
    obtain ⟨text, htext, hout⟩ := of_bind_ok hout
    obtain ⟨more, hmore, hout⟩ := of_bind_ok hout
    cases hout
    have hle := h.length_le htext
    have hle' := h'.length_le hmore
    rw [List.length_append, List.length_append]
    rcases not_and_or.mp hfits with hn | hn
    · have := h.short text htext hn
      omega
    · have := h'.short more hmore hn
      omega

theorem printint_prints {xx : Word} {sgn neg : Bool} {w n : ℕ} (hbase : 10 ≤ base.toNat)
    (hneg : (sgn && decide (xx.toInt < 0)) = neg) (hn : (if neg then -xx else xx).toNat = n) :
    Prints (w ≤ 16) (printint xx base sgn (BitVec.ofNat 32 w)) (numeral w base.toNat neg n) where
  right hw := by rw [printint_eq hbase hw, hneg, hn]
  short text htext hw := by
    have hwide := @length_numeral_ge base.toNat n w neg
    have hlen := printint_length htext
    omega

/-- The next argument does not depend on what is printed. -/
theorem convert_prints (c : Char) (w ap : ℕ) : ∃ got,
    convert args strings c (BitVec.ofNat 32 w) ap = got.map (·, ((Piece.conv w c).printed args strings ap).2) ∧
      Prints (Piece.Fits (.conv w c)) got ((Piece.conv w c).printed args strings ap).1 := by
  have hprinted : (Piece.conv w c).printed args strings ap =
      if c = 'd' then (numeral w 10 ((args ap).toInt < 0) (args ap).toInt.natAbs, ap + 1)
      else if c = 'x' ∨ c = 'p' then (numeral w 16 false (args ap).toNat, ap + 1)
      else convertOther args strings c ap := rfl
  rw [hprinted]
  unfold convert
  by_cases hd : c = 'd'
  · have hfits : Piece.Fits (.conv w c) ↔ w ≤ 16 := ⟨fun h => h (Or.inl hd), fun h _ => h⟩
    rw [if_pos hd, if_pos hd, hfits]
    exact ⟨_, rfl, printint_prints (by decide) rfl (by simpa using toNat_magnitude (args ap))⟩
  by_cases hx : c = 'x' ∨ c = 'p'
  · have hfits : Piece.Fits (.conv w c) ↔ w ≤ 16 := ⟨fun h => h (Or.inr hx), fun h _ => h⟩
    rw [if_neg hd, if_neg hd, if_pos hx, if_pos hx, hfits]
    exact ⟨_, rfl, printint_prints (by decide) rfl rfl⟩
  · have hfits : Piece.Fits (.conv w c) := fun h => absurd h (not_or_intro hd hx)
    rw [if_neg hd, if_neg hd, if_neg hx, if_neg hx]
    exact ⟨.ok (convertOther args strings c ap).1, rfl, fun _ => rfl, fun _ _ hn => absurd hfits hn⟩

theorem printfLoop_prints : ∀ (fmt : List Char) (skip : ℕ) (state : Scan) (w ap : ℕ),
    Prints (∀ p ∈ piecesLoop fmt skip state w, p.Fits)
      (printfLoop args strings fmt skip state (BitVec.ofNat 32 w) ap)
      (printed args strings (piecesLoop fmt skip state w) ap)
  | [], skip, state, w, ap => by
    have hnil : piecesLoop [] skip state w = [] := by rw [piecesLoop]
    rw [hnil, printfLoop]
    exact ⟨fun _ => rfl, fun _ _ hn => absurd (fun p hp => absurd hp List.not_mem_nil) hn⟩
  | c :: rest, skip + 1, state, w, ap => printfLoop_prints rest skip state w ap
  | c :: rest, 0, .plain, w, ap => by
    unfold piecesLoop printfLoop
    by_cases hc : c = '%'
    · rw [if_pos hc, if_pos hc]
      exact printfLoop_prints rest 0 .percent 0 ap
    · rw [if_neg hc, if_neg hc, List.forall_mem_cons]
      have htext : Prints True (.ok [c]) [c] := ⟨fun _ => rfl, fun _ _ hn => absurd trivial hn⟩
      exact htext.append (printfLoop_prints rest 0 .plain w ap)
  | c :: rest, 0, .percent, w, ap => by
    unfold piecesLoop printfLoop
    by_cases hc : c = '0'
    · rw [if_pos hc, if_pos hc, readint_eq]
      exact printfLoop_prints rest _ .percent _ ap
    · rw [if_neg hc, if_neg hc, List.forall_mem_cons]
      obtain ⟨got, hgot, hprints⟩ := convert_prints args strings c w ap
      have happ := hprints.append (printfLoop_prints rest 0 .plain w ((Piece.conv w c).printed args strings ap).2)
      rw [hgot]
      cases got with
      | error f => exact happ
      | ok text => exact happ

end

/-- **Widths.** `printf` prints what a format asks for, every number with its sign, its digits and the zeros up to its
width, and stores within the buffer, if and only if no number in it is wider than 16. -/
theorem printf_prints (fmt : List Char) : printf args strings fmt = .ok (printed args strings (pieces fmt) 0) ↔
    ∀ p ∈ pieces fmt, p.Fits := by
  have h := printfLoop_prints args strings fmt 0 .plain 0 0
  constructor
  · intro hok
    by_contra hn
    exact lt_irrefl _ (h.short _ hok hn)
  · exact h.right

/-- A width of 17. -/
theorem printf_overrun : printf (fun _ => 5) (fun _ => []) "%017d".toList = .error .bounds ∧
    pieces "%017d".toList = [.conv 17 'd'] ∧ numeral 17 10 false 5 = "00000000000000005".toList := by
  refine ⟨by decide +kernel, by decide +kernel, by decide +kernel⟩

example : printf (fun ap => [2018, 9, -30, 7].getD ap 0) (fun _ => []) "%d-%02d-%05dT%02x".toList =
    .ok "2018-09--0030T07".toList := by
  decide +kernel

end Printf
end OsLabs
