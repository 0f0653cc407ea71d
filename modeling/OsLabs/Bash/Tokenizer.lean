/-
# The tokenizers of the three shells

`tokenizer.h` of `base`, `io` and `pipe`. A C string is the list of its characters up
to the end; a pointer into it is what is left of the list. A token is where it starts and
its length. `pipe` knows three operators of one character at the start of a token, `io`
does not know `|`, and `base` knows words only.

`TokenizerInit` loops until the string ends. The loop takes its number of passes as an
argument, and one pass more than the string has characters is enough (`tokens_fuel`).

Key definitions: `Token`, `Pipe.tokenizerInit`, `Io.tokenizerInit`, `Base.tokenizerInit`.
-/
import Mathlib

namespace OsLabs
namespace Bash

inductive TokenType
  | word
  | infile
  | outfile
  | pipe
  deriving DecidableEq, Repr

structure Token where
  start : List Char
  len : ℕ
  type : TokenType
  deriving DecidableEq, Repr

abbrev Text := List Char

/-- `PreparePath`, and the copy that `GetArgv` makes. -/
def preparePath (start : List Char) (len : ℕ) : Text := start.take len

def Token.text (token : Token) : Text := preparePath token.start token.len

/-- The list of the tokens is its head, and its tails are the pointers into it. -/
structure Tokenizer where
  tokenCount : ℕ
  head : List Token
  deriving DecidableEq, Repr

/-! ### Characters -/

def isBlank (c : Char) : Bool := c = ' ' || c = '\t' || c = '\n'

/-- A word ends here. -/
def isEnd (c : Char) : Bool := c = '\x00' || isBlank c

/-- `*next`. -/
def peek : List Char → Char
  | [] => '\x00'
  | c :: _ => c

def skipBlanks (next : List Char) : List Char := next.dropWhile isBlank

def skipWord (next : List Char) : List Char := next.dropWhile fun c => !isEnd c

/-! ### The loop -/

/-- The loop of `TokenizerInit`, with what it does at a character that is not blank: a token, and the next
position. -/
def tokens (token : List Char → Token × List Char) : ℕ → List Char → List Token
  | 0, _ => []
  | fuel + 1, next =>
    let start := skipBlanks next
    if peek start = '\x00' then []
    else
      let (t, next) := token start
      t :: tokens token fuel next

def tokenizerInit (token : List Char → Token × List Char) (line : List Char) : Tokenizer :=
  let list := tokens token (line.length + 1) line
  ⟨list.length, list⟩

/-- `next - start` characters. -/
def wordToken (start next : List Char) : Token × List Char := (⟨start, start.length - next.length, .word⟩, next)

namespace Pipe

def token (start : List Char) : Token × List Char :=
  match peek start with
  | '<' => (⟨start, 1, .infile⟩, start.tail)
  | '>' => (⟨start, 1, .outfile⟩, start.tail)
  | '|' => (⟨start, 1, .pipe⟩, start.tail)
  | _ => wordToken start (skipWord start.tail)

def tokenizerInit : List Char → Tokenizer := Bash.tokenizerInit token

end Pipe

namespace Io

def token (start : List Char) : Token × List Char :=
  match peek start with
  | '<' => (⟨start, 1, .infile⟩, start.tail)
  | '>' => (⟨start, 1, .outfile⟩, start.tail)
  | _ => wordToken start (skipWord start.tail)

def tokenizerInit : List Char → Tokenizer := Bash.tokenizerInit token

end Io

namespace Base

def token (start : List Char) : Token × List Char := wordToken start (skipWord start)

def tokenizerInit : List Char → Tokenizer := Bash.tokenizerInit token

end Base

/-! ### Enough passes -/

section

variable {token : List Char → Token × List Char} {start : List Char}

theorem peek_skipBlanks (next : List Char) : isBlank (peek (skipBlanks next)) = false := by
  cases hs : skipBlanks next with
  | nil => rfl
  | cons c rest =>
    have hne : next.dropWhile isBlank ≠ [] := by
      show skipBlanks next ≠ []
      rw [hs]
      exact List.cons_ne_nil c rest
    have hhead := List.head_dropWhile_not isBlank hne
    have hc : (next.dropWhile isBlank).head hne = c := by
      simp only [show next.dropWhile isBlank = c :: rest from hs, List.head_cons]
    rwa [hc] at hhead

/-- A word has a first character, which `pipe` skips unread. -/
theorem skipWord_tail (hend : peek start ≠ '\x00') (hblank : isBlank (peek start) = false) :
    skipWord start.tail = skipWord start := by
  cases start with
  | nil => exact absurd rfl hend
  | cons c rest =>
    have hc : isEnd c = false := by
      unfold isEnd
      rw [Bool.or_eq_false_iff]
      exact ⟨decide_eq_false hend, hblank⟩
    unfold skipWord
    rw [List.dropWhile_cons, hc]
    rfl

/-- A pass of the loop that finds a token leaves a shorter string. -/
def Advances (token : List Char → Token × List Char) : Prop :=
  ∀ start, peek start ≠ '\x00' → isBlank (peek start) = false → (token start).2.length < start.length

theorem length_tail_lt (h : peek start ≠ '\x00') : start.tail.length < start.length := by
  have hpos : 0 < start.length := by
    refine List.length_pos_of_ne_nil ?_
    rintro rfl
    exact h rfl
  rw [List.length_tail]
  omega

theorem length_skipWord_tail_lt (h : peek start ≠ '\x00') : (skipWord start.tail).length < start.length :=
  lt_of_le_of_lt (List.dropWhile_suffix _).length_le (length_tail_lt h)

theorem Pipe.advances : Advances Pipe.token := fun start h _ => by
  unfold Pipe.token
  split
  · exact length_tail_lt h
  · exact length_tail_lt h
  · exact length_tail_lt h
  · exact length_skipWord_tail_lt h

theorem Io.advances : Advances Io.token := fun start h _ => by
  unfold Io.token
  split
  · exact length_tail_lt h
  · exact length_tail_lt h
  · exact length_skipWord_tail_lt h

theorem Base.advances : Advances Base.token := fun start h hblank => by
  show (skipWord start).length < start.length
  rw [← skipWord_tail h hblank]
  exact length_skipWord_tail_lt h

/-- Passes beyond the end of the string change nothing. -/
theorem tokens_fuel (h : Advances token) : ∀ (n m : ℕ) (next : List Char), next.length < n → next.length < m →
    tokens token n next = tokens token m next
  | 0, _, _, hn, _ => absurd hn (Nat.not_lt_zero _)
  | _, 0, _, _, hm => absurd hm (Nat.not_lt_zero _)
  | n + 1, m + 1, next, hn, hm => by
    have hle : (skipBlanks next).length ≤ next.length := (List.dropWhile_suffix _).length_le
    simp only [tokens]
    split_ifs with hend
    · rfl
    · have hlt := h _ hend (peek_skipBlanks next)
      rw [tokens_fuel h n m _ (by omega) (by omega)]

end

/-! ### Lines without operators -/

section

variable {start : List Char}

theorem Pipe.token_word (h1 : peek start ≠ '<') (h2 : peek start ≠ '>') (h3 : peek start ≠ '|') :
    Pipe.token start = wordToken start (skipWord start.tail) := by
  unfold Pipe.token
  split
  · exact absurd (by assumption) h1
  · exact absurd (by assumption) h2
  · exact absurd (by assumption) h3
  · rfl

theorem Io.token_word (h1 : peek start ≠ '<') (h2 : peek start ≠ '>') :
    Io.token start = wordToken start (skipWord start.tail) := by
  unfold Io.token
  split
  · exact absurd (by assumption) h1
  · exact absurd (by assumption) h2
  · rfl

/-- The two shells read the same token unless it is a `|`. -/
theorem Io.token_eq (h : (Pipe.token start).1.type ≠ .pipe) : Io.token start = Pipe.token start := by
  have h3 : peek start ≠ '|' := fun hp => h (by simp [Pipe.token, hp])
  by_cases h1 : peek start = '<'
  · simp [Io.token, Pipe.token, h1]
  · by_cases h2 : peek start = '>'
    · simp [Io.token, Pipe.token, h2]
    · rw [Io.token_word h1 h2, Pipe.token_word h1 h2 h3]

/-- `base` reads the same token if it is a word. -/
theorem Base.token_eq (h : (Pipe.token start).1.type = .word) (hend : peek start ≠ '\x00')
    (hblank : isBlank (peek start) = false) : Base.token start = Pipe.token start := by
  have h1 : peek start ≠ '<' := fun hp => by simp [Pipe.token, hp] at h
  have h2 : peek start ≠ '>' := fun hp => by simp [Pipe.token, hp] at h
  have h3 : peek start ≠ '|' := fun hp => by simp [Pipe.token, hp] at h
  rw [Pipe.token_word h1 h2 h3, skipWord_tail hend hblank]
  rfl

end

theorem tokens_io : ∀ (fuel : ℕ) (next : List Char), (∀ t ∈ tokens Pipe.token fuel next, t.type ≠ .pipe) →
    tokens Io.token fuel next = tokens Pipe.token fuel next
  | 0, _, _ => rfl
  | fuel + 1, next, h => by
    simp only [tokens] at h ⊢
    split_ifs with hend
    · rfl
    · rw [if_neg hend] at h
      have htoken := Io.token_eq (h _ (List.mem_cons_self ..))
      rw [htoken, tokens_io fuel _ fun t ht => h t (List.mem_cons_of_mem _ ht)]

theorem tokens_base : ∀ (fuel : ℕ) (next : List Char), (∀ t ∈ tokens Pipe.token fuel next, t.type = .word) →
    tokens Base.token fuel next = tokens Pipe.token fuel next
  | 0, _, _ => rfl
  | fuel + 1, next, h => by
    simp only [tokens] at h ⊢
    split_ifs with hend
    · rfl
    · rw [if_neg hend] at h
      have htoken := Base.token_eq (h _ (List.mem_cons_self ..)) hend (peek_skipBlanks next)
      rw [htoken, tokens_base fuel _ fun t ht => h t (List.mem_cons_of_mem _ ht)]

/-- A line without a `|`: `io` has the same tokens. -/
theorem Io.tokenizerInit_eq (line : List Char) (h : ∀ t ∈ (Pipe.tokenizerInit line).head, t.type ≠ .pipe) :
    Io.tokenizerInit line = Pipe.tokenizerInit line := by
  unfold Io.tokenizerInit Pipe.tokenizerInit Bash.tokenizerInit
  rw [tokens_io _ _ h]

/-- A line of words: `base` has the same tokens. -/
theorem Base.tokenizerInit_eq (line : List Char) (h : ∀ t ∈ (Pipe.tokenizerInit line).head, t.type = .word) :
    Base.tokenizerInit line = Pipe.tokenizerInit line := by
  unfold Base.tokenizerInit Pipe.tokenizerInit Bash.tokenizerInit
  rw [tokens_base _ _ h]

/-! ### The types of tokens -/

theorem tokens_of_token (token : List Char → Token × List Char) {P : Token → Prop} (h : ∀ start, P (token start).1) :
    ∀ (fuel : ℕ) (next : List Char), ∀ t ∈ tokens token fuel next, P t := by
  intro fuel
  induction fuel with
  | zero => exact fun next t ht => absurd ht List.not_mem_nil
  | succ fuel ih =>
    intro next t ht
    unfold tokens at ht
    by_cases hend : peek (skipBlanks next) = '\x00'
    · simp [hend] at ht
    · simp only [hend, if_false, List.mem_cons] at ht
      rcases ht with rfl | ht
      · exact h _
      · exact ih _ t ht

theorem Base.words (line : List Char) : ∀ t ∈ (Base.tokenizerInit line).head, t.type = .word :=
  tokens_of_token Base.token (fun _ => rfl) _ _

theorem Io.no_pipe (line : List Char) : ∀ t ∈ (Io.tokenizerInit line).head, t.type ≠ .pipe := by
  refine tokens_of_token Io.token (fun start => ?_) _ _
  unfold Io.token
  split <;> exact nofun

end Bash
end OsLabs
