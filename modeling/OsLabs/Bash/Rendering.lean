/-
# Writing a line and reading it back

A line is written from lexemes, which are the three operators and the words of `pipe`, with blanks before,
between and behind them. An operator needs no blank behind it and a word needs one, because an
operator inside a word is part of the word. `TokenizerInit` reads back what was written, whatever the blanks.

In the other direction, the tokens of any line are its characters up to the end of the string that are not
blank, each once.

Key definitions: `Word`, `Lexeme`, `written`, `pointers`, `Token.Covers`.
Key theorem: `tokenizer_exact`.
-/
import OsLabs.Bash.Tokenizer

namespace OsLabs
namespace Bash

/-! ### Lexemes -/

def isOperator (c : Char) : Bool := c = '<' || c = '>' || c = '|'

/-- What can be written as one word. -/
structure Word where
  text : Text
  ne_nil : text ≠ []
  plain : ∀ c ∈ text, isEnd c = false
  first : ∀ c ∈ text.head?, isOperator c = false

inductive Lexeme
  | infile
  | outfile
  | pipe
  | word (w : Word)

def Lexeme.text : Lexeme → Text
  | .infile => ['<']
  | .outfile => ['>']
  | .pipe => ['|']
  | .word w => w.text

def Lexeme.type : Lexeme → TokenType
  | .infile => .infile
  | .outfile => .outfile
  | .pipe => .pipe
  | .word _ => .word

def Blanks (gap : List Char) : Prop := ∀ c ∈ gap, isBlank c = true

/-- The lexemes one after the other, each with the gap behind it. -/
def written (xs : List (Lexeme × List Char)) : List Char := xs.flatMap fun x => x.1.text ++ x.2

/-- The gaps are blanks, and one behind a word is not empty unless the word is the last. -/
structure Separated (xs : List (Lexeme × List Char)) : Prop where
  blanks : ∀ x ∈ xs, Blanks x.2
  words : ∀ x ∈ xs.dropLast, x.1.type = .word → x.2 ≠ []

/-- The tokens of a written line: each starts where its lexeme is. -/
def pointers : List (Lexeme × List Char) → List Token
  | [] => []
  | x :: xs => ⟨written (x :: xs), x.1.text.length, x.1.type⟩ :: pointers xs

section

variable {gap rest : List Char} {x : Lexeme × List Char} {xs : List (Lexeme × List Char)}

theorem written_cons (x : Lexeme × List Char) (xs : List (Lexeme × List Char)) :
    written (x :: xs) = x.1.text ++ (x.2 ++ written xs) := by
  rw [written, List.flatMap_cons, List.append_assoc]
  rfl

theorem Separated.tail (h : Separated (x :: xs)) : Separated xs := by
  constructor
  · exact fun y hy => h.blanks y (List.mem_cons_of_mem _ hy)
  · intro y hy
    apply h.words y
    cases xs with
    | nil => exact absurd hy List.not_mem_nil
    | cons z zs => exact List.mem_cons_of_mem _ hy

theorem Separated.words_head {y : Lexeme × List Char} (h : Separated (x :: y :: xs)) : x.1.type = .word → x.2 ≠ [] :=
  h.words x (List.mem_cons_self ..)

theorem Lexeme.text_ne_nil (l : Lexeme) : l.text ≠ [] := by
  cases l with
  | word w => exact w.ne_nil
  | infile => exact List.cons_ne_nil _ _
  | outfile => exact List.cons_ne_nil _ _
  | pipe => exact List.cons_ne_nil _ _

/-- No lexeme starts with a blank or the end of the string. -/
theorem Lexeme.peek_text (l : Lexeme) (rest : List Char) : isEnd (peek (l.text ++ rest)) = false := by
  cases l with
  | word w =>
    obtain ⟨c, cs, hw⟩ := List.exists_cons_of_ne_nil w.ne_nil
    have hc : isEnd c = false := w.plain c (by rw [hw]; exact List.mem_cons_self ..)
    show isEnd (peek (w.text ++ rest)) = false
    rw [hw]
    exact hc
  | infile => rfl
  | outfile => rfl
  | pipe => rfl

theorem ne_of_not_end {c : Char} (h : isEnd c = false) : c ≠ '\x00' := by
  rintro rfl
  exact absurd h (by decide)

theorem not_blank_of_not_end {c : Char} (h : isEnd c = false) : isBlank c = false :=
  (Bool.or_eq_false_iff.mp h).2

theorem skipBlanks_append (hgap : Blanks gap) : skipBlanks (gap ++ rest) = skipBlanks rest :=
  List.dropWhile_append_of_pos hgap

theorem skipBlanks_of_peek (h : isBlank (peek rest) = false) : skipBlanks rest = rest := by
  cases rest with
  | nil => rfl
  | cons c cs =>
    have hc : ¬ isBlank c = true := Bool.eq_false_iff.mp h
    exact List.dropWhile_cons_of_neg hc

theorem skipWord_append {w : Text} (hw : ∀ c ∈ w, isEnd c = false) (hend : isEnd (peek rest) = true) :
    skipWord (w ++ rest) = rest := by
  have hpos : ∀ c ∈ w, (!isEnd c) = true := fun c hc => by rw [hw c hc]; rfl
  rw [skipWord, List.dropWhile_append_of_pos hpos]
  cases rest with
  | nil => rfl
  | cons c cs =>
    apply List.dropWhile_cons_of_neg
    rw [show isEnd c = true from hend]
    exact Bool.false_ne_true

/-- The tokenizer reads a lexeme if what follows a word ends it. -/
theorem token_lexeme (l : Lexeme) (hend : l.type = .word → isEnd (peek rest) = true) :
    Pipe.token (l.text ++ rest) = (⟨l.text ++ rest, l.text.length, l.type⟩, rest) := by
  cases l with
  | infile => rfl
  | outfile => rfl
  | pipe => rfl
  | word w =>
    obtain ⟨c, cs, hw⟩ := List.exists_cons_of_ne_nil w.ne_nil
    have hop : isOperator c = false := w.first c (by rw [hw]; rfl)
    have hchars : ∀ d ∈ cs, isEnd d = false := fun d hd => w.plain d (by rw [hw]; exact List.mem_cons_of_mem _ hd)
    have hskip : skipWord (cs ++ rest) = rest := skipWord_append hchars (hend rfl)
    simp only [isOperator, Bool.or_eq_false_iff, decide_eq_false_iff_not] at hop
    have htoken : Pipe.token (c :: (cs ++ rest)) = wordToken (c :: (cs ++ rest)) (skipWord (cs ++ rest)) :=
      Pipe.token_word hop.1.1 hop.1.2 hop.2
    show Pipe.token (w.text ++ rest) = (⟨w.text ++ rest, w.text.length, .word⟩, rest)
    rw [hw, List.cons_append, htoken, hskip, wordToken]
    congr 2
    rw [List.length_cons, List.length_append, List.length_cons]
    omega

end

/-! ### Reading back -/

theorem tokens_succ (token : List Char → Token × List Char) (fuel : ℕ) (next : List Char) :
    tokens token (fuel + 1) next = if peek (skipBlanks next) = '\x00' then []
      else (token (skipBlanks next)).1 :: tokens token fuel (token (skipBlanks next)).2 := rfl

theorem tokens_written : ∀ (xs : List (Lexeme × List Char)) (fuel : ℕ) (gap : List Char), Separated xs → Blanks gap →
    (gap ++ written xs).length < fuel → tokens Pipe.token fuel (gap ++ written xs) = pointers xs
  | xs, 0, _, _, _, hfuel => absurd hfuel (Nat.not_lt_zero _)
  | [], fuel + 1, gap, _, hgap, _ => by
    have hskip : skipBlanks (gap ++ written []) = [] := skipBlanks_append hgap
    rw [tokens_succ, hskip]
    rfl
  | x :: xs, fuel + 1, gap, hsep, hgap, hfuel => by
    have hpeek : isEnd (peek (written (x :: xs))) = false := by
      rw [written_cons]
      exact x.1.peek_text _
    have hskip : skipBlanks (gap ++ written (x :: xs)) = written (x :: xs) := by
      rw [skipBlanks_append hgap, skipBlanks_of_peek (not_blank_of_not_end hpeek)]
    -- a word is ended by its gap, and the last word by the end of the string as well
    have hend : x.1.type = .word → isEnd (peek (x.2 ++ written xs)) = true := by
      intro hword
      cases hx : x.2 with
      | cons c cs =>
        have hc : isBlank c = true := hsep.blanks x (List.mem_cons_self ..) c (by rw [hx]; exact List.mem_cons_self ..)
        show isEnd c = true
        rw [isEnd, hc, Bool.or_true]
      | nil =>
        cases xs with
        | nil => rfl
        | cons y ys => exact absurd hx (hsep.words_head hword)
    have htoken := token_lexeme x.1 hend
    have hlen : (x.2 ++ written xs).length < fuel := by
      have hpos := List.length_pos_of_ne_nil x.1.text_ne_nil
      rw [written_cons, List.length_append, List.length_append] at hfuel
      omega
    have ih := tokens_written xs fuel x.2 hsep.tail (hsep.blanks x (List.mem_cons_self ..)) hlen
    rw [← written_cons] at htoken
    rw [tokens_succ, hskip, if_neg (ne_of_not_end hpeek), htoken, ih]
    rfl

theorem pointers_text : ∀ xs : List (Lexeme × List Char),
    (pointers xs).map (fun t => (t.type, t.text)) = xs.map fun x => (x.1.type, x.1.text)
  | [] => rfl
  | x :: xs => by
    have htext : Token.text ⟨written (x :: xs), x.1.text.length, x.1.type⟩ = x.1.text := by
      rw [written_cons]
      exact List.take_left
    rw [pointers, List.map_cons, List.map_cons, pointers_text xs, htext]

theorem length_pointers : ∀ xs : List (Lexeme × List Char), (pointers xs).length = xs.length
  | [] => rfl
  | _ :: xs => congrArg (· + 1) (length_pointers xs)

/-! ### What the tokens of a line are -/

/-- The string of a line: the C string ends at the first `\0`. -/
def cstring (line : List Char) : List Char := line.takeWhile (· ≠ '\x00')

/-- How far from the start of the line a token starts. -/
def Token.offset (line : List Char) (t : Token) : ℕ := line.length - t.start.length

/-- The `i`-th character of the line is one of the token's. -/
def Token.Covers (line : List Char) (i : ℕ) (t : Token) : Prop := t.offset line ≤ i ∧ i < t.offset line + t.len

/-- One pass: what it skips, what it takes and what it leaves. -/
theorem pass_eq {next : List Char} (hend : peek (skipBlanks next) ≠ '\x00') :
    ∃ gap taken rest, next = gap ++ (taken ++ rest) ∧ Blanks gap ∧ taken ≠ [] ∧ (∀ c ∈ taken, isEnd c = false) ∧
      skipBlanks next = taken ++ rest ∧ (Pipe.token (taken ++ rest)).1.start = taken ++ rest ∧
      (Pipe.token (taken ++ rest)).1.len = taken.length ∧ (Pipe.token (taken ++ rest)).2 = rest := by
  obtain ⟨gap, hgap, hnext⟩ : ∃ gap, Blanks gap ∧ next = gap ++ skipBlanks next :=
    ⟨next.takeWhile isBlank, fun c hc => List.mem_takeWhile_imp hc, List.takeWhile_append_dropWhile.symm⟩
  have hblank := peek_skipBlanks next
  generalize skipBlanks next = start at hend hblank hnext
  cases start with
  | nil => exact absurd rfl hend
  | cons c cs =>
    have hc : isEnd c = false := Bool.or_eq_false_iff.mpr ⟨decide_eq_false hend, hblank⟩
    by_cases hop : isOperator c = true
    · refine ⟨gap, [c], cs, hnext, hgap, List.cons_ne_nil _ _, fun d hd => ?_, rfl, ?_⟩
      · rwa [List.mem_singleton.mp hd]
      · simp only [isOperator, Bool.or_eq_true, decide_eq_true_iff] at hop
        rcases hop with (rfl | rfl) | rfl
        · exact ⟨rfl, rfl, rfl⟩
        · exact ⟨rfl, rfl, rfl⟩
        · exact ⟨rfl, rfl, rfl⟩
    · have hsplit : cs = cs.takeWhile (fun d => !isEnd d) ++ skipWord cs := List.takeWhile_append_dropWhile.symm
      have hlen : cs.length = (cs.takeWhile fun d => !isEnd d).length + (skipWord cs).length := by
        conv_lhs => rw [hsplit]
        exact List.length_append
      have hline : c :: cs = (c :: cs.takeWhile fun d => !isEnd d) ++ skipWord cs := by
        rw [List.cons_append, ← hsplit]
      have htoken : Pipe.token (c :: cs) = wordToken (c :: cs) (skipWord cs) := by
        simp only [isOperator, Bool.or_eq_true, decide_eq_true_iff, not_or] at hop
        exact Pipe.token_word hop.1.1 hop.1.2 hop.2
      refine ⟨gap, c :: cs.takeWhile (fun d => !isEnd d), skipWord cs, ?_, hgap, List.cons_ne_nil _ _, fun d hd => ?_, hline,
        ?_⟩
      · rwa [← hline]
      · rcases List.mem_cons.mp hd with rfl | hd
        · exact hc
        · simpa using List.mem_takeWhile_imp hd
      · rw [← hline, htoken]
        refine ⟨rfl, ?_, rfl⟩
        show (c :: cs).length - (skipWord cs).length = _
        rw [List.length_cons, List.length_cons]
        omega

section

variable {line pre next : List Char} {i : ℕ} {t : Token}

/-- A token of the rest of a line, seen from the start of the line. -/
theorem offset_append (h : t.start.length ≤ next.length) : t.offset (pre ++ next) = pre.length + t.offset next := by
  unfold Token.offset
  rw [List.length_append]
  omega

theorem covers_append (h : t.start.length ≤ next.length) :
    t.Covers (pre ++ next) i ↔ pre.length ≤ i ∧ t.Covers next (i - pre.length) := by
  unfold Token.Covers
  rw [offset_append h]
  omega

theorem cstring_append (h : ∀ c ∈ pre, c ≠ '\x00') : cstring (pre ++ next) = pre ++ cstring next :=
  List.takeWhile_append_of_pos fun c hc => decide_eq_true (h c hc)

theorem ne_of_blank {c : Char} (h : isBlank c = true) : c ≠ '\x00' := by
  rintro rfl
  exact absurd h (by decide)

/-- Where the loop ends, only blanks are left of the string. -/
theorem cstring_of_end (h : peek (skipBlanks next) = '\x00') : Blanks (cstring next) := by
  have hgap : Blanks (next.takeWhile isBlank) := fun c hc => List.mem_takeWhile_imp hc
  have hrest : cstring (skipBlanks next) = [] := by
    cases hs : skipBlanks next with
    | nil => rfl
    | cons c cs =>
      obtain rfl : c = '\x00' := by rwa [hs] at h
      rfl
  have hnext : cstring next = next.takeWhile isBlank := by
    calc cstring next = cstring (next.takeWhile isBlank ++ skipBlanks next) := by
          rw [skipBlanks, List.takeWhile_append_dropWhile]
      _ = next.takeWhile isBlank ++ cstring (skipBlanks next) := cstring_append fun c hc => ne_of_blank (hgap c hc)
      _ = next.takeWhile isBlank := by rw [hrest, List.append_nil]
  rwa [hnext]

end

/-- A token lies within what the loop has been given. -/
theorem tokens_within : ∀ (fuel : ℕ) (next : List Char), ∀ t ∈ tokens Pipe.token fuel next,
    t.start <:+ next ∧ t.len ≤ t.start.length
  | 0, _, _, ht => absurd ht List.not_mem_nil
  | fuel + 1, next, t, ht => by
    rw [tokens_succ] at ht
    split_ifs at ht with hend
    · exact absurd ht List.not_mem_nil
    obtain ⟨gap, taken, rest, rfl, -, -, -, hskip, hstart, hlen, hrest⟩ := pass_eq hend
    rw [hskip, hrest] at ht
    rcases List.mem_cons.mp ht with rfl | ht
    · rw [hstart, hlen]
      refine ⟨List.suffix_append _ _, ?_⟩
      rw [List.length_append]
      exact Nat.le_add_right _ _
    · obtain ⟨hsuffix, hle⟩ := tokens_within fuel rest t ht
      refine ⟨hsuffix.trans ?_, hle⟩
      rw [← List.append_assoc]
      exact List.suffix_append _ _

theorem tokens_cover : ∀ (fuel : ℕ) (next : List Char), next.length < fuel → ∀ i,
    (∃ t ∈ tokens Pipe.token fuel next, t.Covers next i) ↔ ∃ c, (cstring next)[i]? = some c ∧ isBlank c = false
  | 0, _, hfuel, _ => absurd hfuel (Nat.not_lt_zero _)
  | fuel + 1, next, hfuel, i => by
    rw [tokens_succ]
    split_ifs with hend
    · have hblank := cstring_of_end hend
      constructor
      · rintro ⟨t, ht, -⟩
        exact absurd ht List.not_mem_nil
      · rintro ⟨c, hc, hn⟩
        rw [hblank c (List.mem_of_getElem? hc)] at hn
        exact absurd hn nofun
    obtain ⟨gap, taken, rest, rfl, hgap, hne, htaken, hskip, hstart, hlen, hrest⟩ := pass_eq hend
    have hpos := List.length_pos_of_ne_nil hne
    have hfuel' : rest.length < fuel := by
      rw [List.length_append, List.length_append] at hfuel
      omega
    have ih := tokens_cover fuel rest hfuel'
    have hstring : cstring (gap ++ (taken ++ rest)) = gap ++ (taken ++ cstring rest) := by
      rw [cstring_append fun c hc => ne_of_blank (hgap c hc), cstring_append fun c hc => ne_of_not_end (htaken c hc)]
    have hfirst : (Pipe.token (taken ++ rest)).1.Covers (gap ++ (taken ++ rest)) i ↔
        gap.length ≤ i ∧ i < gap.length + taken.length := by
      unfold Token.Covers Token.offset
      rw [hstart, hlen, List.length_append]
      omega
    have hlater : ∀ t ∈ tokens Pipe.token fuel rest, t.Covers (gap ++ (taken ++ rest)) i ↔
        gap.length + taken.length ≤ i ∧ t.Covers rest (i - (gap.length + taken.length)) := fun t ht => by
      have hle := (tokens_within fuel rest t ht).1.length_le
      rw [← List.append_assoc, covers_append hle, List.length_append]
    rw [hskip, hstring, hrest, List.exists_mem_cons_iff, hfirst]
    -- the gap, the token, and what is left
    rcases Nat.lt_or_ge i gap.length with hi | hi
    · have hc : (gap ++ (taken ++ cstring rest))[i]? = some gap[i] := by
        rw [List.getElem?_append_left hi, List.getElem?_eq_getElem hi]
      constructor
      · rintro (h | ⟨t, ht, h⟩)
        · omega
        · have := (hlater t ht).mp h
          omega
      · rintro ⟨c, h, hn⟩
        rw [hc] at h
        cases h
        rw [hgap _ (List.getElem_mem hi)] at hn
        exact absurd hn nofun
    rcases Nat.lt_or_ge i (gap.length + taken.length) with hi' | hi'
    · refine iff_of_true (Or.inl ⟨hi, hi'⟩) ⟨taken[i - gap.length], ?_, ?_⟩
      · rw [List.getElem?_append_right hi, List.getElem?_append_left (by omega), List.getElem?_eq_getElem]
      · exact not_blank_of_not_end (htaken _ (List.getElem_mem _))
    · have hc : (gap ++ (taken ++ cstring rest))[i]? = (cstring rest)[i - (gap.length + taken.length)]? := by
        rw [List.getElem?_append_right hi, List.getElem?_append_right (by omega), Nat.sub_sub]
      rw [hc, ← ih, or_iff_right fun h => absurd h.2 (by omega)]
      refine exists_congr fun t => and_congr_right fun ht => ?_
      rw [hlater t ht]
      exact and_iff_right hi'

/-- The tokens follow one another. -/
theorem tokens_apart : ∀ (fuel : ℕ) (next : List Char),
    (tokens Pipe.token fuel next).Pairwise fun t u => t.offset next + t.len ≤ u.offset next
  | 0, _ => .nil
  | fuel + 1, next => by
    rw [tokens_succ]
    split_ifs with hend
    · exact .nil
    obtain ⟨gap, taken, rest, rfl, -, -, -, hskip, hstart, hlen, hrest⟩ := pass_eq hend
    rw [hskip, hrest]
    have hlater : ∀ t ∈ tokens Pipe.token fuel rest, t.offset (gap ++ (taken ++ rest)) =
        gap.length + taken.length + t.offset rest := fun t ht => by
      have hle := (tokens_within fuel rest t ht).1.length_le
      rw [← List.append_assoc, offset_append hle, List.length_append]
    refine .cons (fun u hu => ?_) ?_
    · have hoffset : (Pipe.token (taken ++ rest)).1.offset (gap ++ (taken ++ rest)) = gap.length := by
        unfold Token.offset
        rw [hstart, List.length_append]
        omega
      rw [hoffset, hlen, hlater u hu]
      exact Nat.le_add_right _ _
    · refine (tokens_apart fuel rest).imp_of_mem fun {t u} ht hu h => ?_
      rw [hlater t ht, hlater u hu]
      omega

/-- **The tokenizer of `pipe`.** A line that is written from lexemes is read back as these lexemes, and their number; and
the tokens of any line are, one behind the other, the characters of its string that are not blank. -/
theorem tokenizer_exact :
    (∀ (gap : List Char) (xs : List (Lexeme × List Char)), Blanks gap → Separated xs →
      Pipe.tokenizerInit (gap ++ written xs) = ⟨xs.length, pointers xs⟩ ∧
      (pointers xs).map (fun t => (t.type, t.text)) = xs.map fun x => (x.1.type, x.1.text)) ∧
    ∀ line : List Char,
      (∀ t ∈ (Pipe.tokenizerInit line).head, t.start <:+ line ∧ t.len ≤ t.start.length) ∧
      (Pipe.tokenizerInit line).head.Pairwise (fun t u => t.offset line + t.len ≤ u.offset line) ∧
      ∀ i, (∃ t ∈ (Pipe.tokenizerInit line).head, t.Covers line i) ↔
        ∃ c, (cstring line)[i]? = some c ∧ isBlank c = false := by
  refine ⟨fun gap xs hgap hsep => ⟨?_, pointers_text xs⟩, fun line => ⟨?_, ?_, ?_⟩⟩
  · have hread := tokens_written xs ((gap ++ written xs).length + 1) gap hsep hgap (Nat.lt_succ_self _)
    rw [Pipe.tokenizerInit, tokenizerInit, hread]
    exact congrArg (Tokenizer.mk · _) (length_pointers xs)
  · exact tokens_within _ line
  · exact tokens_apart _ line
  · exact tokens_cover _ line (Nat.lt_succ_self _)

/-- An operator at the start of a token, and one inside a word. -/
theorem tokenizer_exact_glued : Pipe.tokenizerInit [' ', '<', 'a', '\t', 'b', '<', 'c', '\n'] =
    ⟨3, [⟨['<', 'a', '\t', 'b', '<', 'c', '\n'], 1, .infile⟩, ⟨['a', '\t', 'b', '<', 'c', '\n'], 1, .word⟩,
      ⟨['b', '<', 'c', '\n'], 3, .word⟩]⟩ := by
  have ha : ∀ c ∈ ['a'], isEnd c = false := by simp [isEnd, isBlank]
  have hb : ∀ c ∈ ['b', '<', 'c'], isEnd c = false := by simp [isEnd, isBlank]
  exact (tokenizer_exact.1 [' ']
    [(.infile, []), (.word ⟨['a'], List.cons_ne_nil _ _, ha, by simp [isOperator]⟩, ['\t']),
      (.word ⟨['b', '<', 'c'], List.cons_ne_nil _ _, hb, by simp [isOperator]⟩, ['\n'])]
    (by simp [Blanks, isBlank]) ⟨by simp [Blanks, isBlank], by simp [Lexeme.type]⟩).1

end Bash
end OsLabs
