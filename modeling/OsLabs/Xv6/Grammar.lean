/-
# What the shell parses

A line is a list of tokens, what `gettoken` returns one after the other, and the parser does not look further: `peek` tells how the
next token starts (`peek_eq`). Over the tokens there is a grammar (`Derives`). What the parser takes for a command is one, and the
strings it keeps are whole words of the line (`Parsed`).

Key definitions: `tokens`, `Derives`, `Word`.
Key theorem: `parse_sound`.
-/
import OsLabs.Xv6.Shell

namespace OsLabs
namespace Xv6
namespace Shell

/-! ### The tokens of a line -/

inductive Tok
  /-- An operator; `+` is `>>`. -/
  | sym (c : Char)
  | word (w : List Char)
  deriving DecidableEq, Repr

def tokOf (ret : Char) (f : Slice) : Tok := if ret = 'a' then .word f.text else .sym ret

/-- What `gettoken` returns for a token. -/
def Tok.code : Tok → Char
  | .sym c => c
  | .word _ => 'a'

/-- What `gettoken` returns until the line ends. -/
def tokensN : ℕ → List Char → List Tok
  | 0, _ => []
  | n + 1, s =>
    if (gettoken s).1 = NUL then [] else tokOf (gettoken s).1 (gettoken s).2.1 :: tokensN n (gettoken s).2.2

def tokens (s : List Char) : List Tok := tokensN s.length s

variable {s s' toks : List Char} {f : Slice} {c : Char} {t : Tok} {ts us : List Tok}

theorem skip_suffix (s : List Char) : skip s <:+ s := List.dropWhile_suffix _

theorem skip_skip (s : List Char) : skip (skip s) = skip s := List.dropWhile_idempotent _ s

theorem gettoken_skip (s : List Char) : gettoken (skip s) = gettoken s := by
  unfold gettoken
  rw [skip_skip]

theorem head_skip (h : skip s = c :: s') : isBlank c = false := by
  have := List.head?_dropWhile_not isBlank s
  unfold skip at h
  rw [h] at this
  simpa using this

/-- `f` is a whole word of `s`. -/
structure Word (s : List Char) (f : Slice) : Prop where
  inside : f.q <:+ s
  split : f.q = f.text ++ f.eq
  ne : f.text ≠ []
  word : ∀ c ∈ f.text, isWord c = true
  stop : ∀ c ∈ f.eq.head?, isWord c = false

theorem Word.mono (h : Word s' f) (hs : s' <:+ s) : Word s f := { h with inside := h.inside.trans hs }

theorem text_append (w e : List Char) : Slice.text ⟨w ++ e, e⟩ = w := by simp [Slice.text]

theorem word_slice (h : isWord c = true) : Word (c :: s) ⟨c :: s, (c :: s).dropWhile isWord⟩ := by
  have htext : Slice.text ⟨c :: s, (c :: s).dropWhile isWord⟩ = (c :: s).takeWhile isWord := by
    have := text_append ((c :: s).takeWhile isWord) ((c :: s).dropWhile isWord)
    rwa [List.takeWhile_append_dropWhile] at this
  refine ⟨List.suffix_rfl, ?_, ?_, ?_, ?_⟩
  · rw [htext, List.takeWhile_append_dropWhile]
  · rw [htext, List.takeWhile_cons_of_pos h]
    exact List.cons_ne_nil _ _
  · rw [htext]
    exact fun d hd => List.mem_takeWhile_imp hd
  · intro d hd
    have := List.head?_dropWhile_not isWord (c :: s)
    rw [Option.mem_def.mp hd] at this
    simpa using this

/-- The character with which an operator starts. -/
def first (c : Char) : Char := if c = '+' then '>' else c

/-- What `gettoken` does, by the first character that is not blank. -/
inductive Head (s : List Char) : Prop
  | none (hskip : skip s = []) (hget : gettoken s = (NUL, ⟨[], []⟩, []))
  | sym (c : Char) (q eq : List Char) (hskip : skip s = first c :: q) (hsym : first c ∈ symbols) (ha : c ≠ 'a') (hnul : c ≠ NUL)
      (heq : eq <:+ q) (hget : gettoken s = (c, ⟨first c :: q, eq⟩, skip eq))
  | word (c : Char) (q : List Char) (hskip : skip s = c :: q) (hword : isWord c = true)
      (hget : gettoken s = ('a', ⟨c :: q, (c :: q).dropWhile isWord⟩, skip ((c :: q).dropWhile isWord)))

theorem not_word_nul : NUL ∉ symbols := by decide

theorem head (hs : NUL ∉ s) : Head s := by
  cases hq : skip s with
  | nil => exact .none hq (by unfold gettoken; rw [hq]; rfl)
  | cons c q =>
    have hnul : c ≠ NUL := fun hc => hs (hc ▸ (skip_suffix s).subset (hq ▸ List.mem_cons_self))
    have hblank := head_skip hq
    by_cases hc : c ∈ ['|', '(', ')', ';', '&', '<']
    · have hfirst : first c = c := by
        simp only [List.mem_cons, List.not_mem_nil, or_false] at hc
        rcases hc with rfl | rfl | rfl | rfl | rfl | rfl <;> rfl
      have hsym : c ∈ symbols := by
        simp only [List.mem_cons, List.not_mem_nil, or_false] at hc
        rcases hc with rfl | rfl | rfl | rfl | rfl | rfl <;> decide
      refine .sym c q q (by rw [hfirst, hq]) (by rw [hfirst]; exact hsym) (fun ha => by subst ha; simp at hc) hnul List.suffix_rfl ?_
      unfold gettoken
      simp only [hq, token, if_neg hnul, if_pos hc, hfirst]
    · by_cases hgt : c = '>'
      · subst hgt
        cases q with
        | nil => exact .sym '>' [] [] hq (by decide) (by decide) (by decide) List.suffix_rfl (by simp [gettoken, hq, token, first, hnul])
        | cons d q =>
          by_cases hd : d = '>'
          · exact .sym '+' (d :: q) q hq (by decide) (by decide) (by decide) (List.suffix_cons d q)
              (by simp [gettoken, hq, token, first, hnul, hd])
          · exact .sym '>' (d :: q) (d :: q) hq (by decide) (by decide) (by decide) List.suffix_rfl
              (by simp [gettoken, hq, token, first, hnul, hd])
      · have hword : isWord c = true := by
          simp only [List.mem_cons, List.not_mem_nil, or_false, not_or] at hc
          simp [isWord, hblank, symbols, hc, hgt]
        refine .word c q hq hword ?_
        unfold gettoken
        simp only [hq, token, if_neg hnul, if_neg hc, if_neg hgt]

theorem gettoken_suffix (hs : NUL ∉ s) : (gettoken s).2.2 <:+ s := by
  have hskip := skip_suffix s
  rcases head hs with ⟨h, hget⟩ | ⟨c, q, eq, h, -, -, -, heq, hget⟩ | ⟨c, q, h, -, hget⟩
  · rw [hget]
    exact List.nil_suffix
  · rw [hget]
    exact (skip_suffix eq).trans ((heq.trans (List.suffix_cons _ _)).trans (h ▸ hskip))
  · rw [hget]
    exact (skip_suffix _).trans ((List.dropWhile_suffix _).trans (h ▸ hskip))

/-- A token has a character. -/
theorem gettoken_length (hs : NUL ∉ s) (h : (gettoken s).1 ≠ NUL) : (gettoken s).2.2.length < s.length := by
  have hskip := (skip_suffix s).length_le
  rcases head hs with ⟨-, hget⟩ | ⟨c, q, eq, h, -, -, -, heq, hget⟩ | ⟨c, q, h, hword, hget⟩
  · rw [hget] at h
    exact absurd rfl h
  · rw [hget]
    have h1 := (skip_suffix eq).length_le
    have h2 := heq.length_le
    rw [h, List.length_cons] at hskip
    show (skip eq).length < s.length
    omega
  · rw [hget]
    have h1 := (skip_suffix ((c :: q).dropWhile isWord)).length_le
    rw [List.dropWhile_cons_of_pos hword] at h1 ⊢
    have h2 := (List.dropWhile_suffix (p := isWord) (l := q)).length_le
    rw [h, List.length_cons] at hskip
    show (skip (q.dropWhile isWord)).length < s.length
    omega

theorem tokensN_fuel : ∀ (n m : ℕ) {s : List Char}, NUL ∉ s → s.length ≤ n → s.length ≤ m → tokensN n s = tokensN m s
  | 0, 0, _, _, _, _ => rfl
  | 0, m + 1, s, hs, hn, _ => by
    obtain rfl := List.length_eq_zero_iff.mp (Nat.le_zero.mp hn)
    rfl
  | n + 1, 0, s, hs, _, hm => by
    obtain rfl := List.length_eq_zero_iff.mp (Nat.le_zero.mp hm)
    rfl
  | n + 1, m + 1, s, hs, hn, hm => by
    unfold tokensN
    split_ifs with h
    · rfl
    · have hlt := gettoken_length hs h
      have hs' : NUL ∉ (gettoken s).2.2 := fun hm => hs ((gettoken_suffix hs).subset hm)
      rw [tokensN_fuel n m hs' (by omega) (by omega)]

theorem tokens_eq (hs : NUL ∉ s) : tokens s =
    if (gettoken s).1 = NUL then [] else tokOf (gettoken s).1 (gettoken s).2.1 :: tokens (gettoken s).2.2 := by
  have hs' : NUL ∉ (gettoken s).2.2 := fun hm => hs ((gettoken_suffix hs).subset hm)
  have : tokens s = tokensN (s.length + 1) s := tokensN_fuel _ _ hs (Nat.le_refl _) (Nat.le_succ _)
  rw [this]
  show (if (gettoken s).1 = NUL then [] else _ :: tokensN s.length _) = _
  rw [tokensN_fuel s.length (gettoken s).2.2.length hs' (gettoken_suffix hs).length_le (Nat.le_refl _)]
  rfl

theorem tokens_skip (hs : NUL ∉ s) : tokens (skip s) = tokens s := by
  rw [tokens_eq hs, tokens_eq (fun hm => hs ((skip_suffix s).subset hm)), gettoken_skip]

theorem nul_of_suffix (hs : NUL ∉ s) (h : s' <:+ s) : NUL ∉ s' := fun hm => hs (h.subset hm)

/-! ### `peek` and `gettoken` on the tokens -/

/-- The line goes on with an operator whose first character is one of `toks`. -/
def starts (toks : List Char) : List Tok → Bool
  | .sym c :: _ => first c ∈ toks
  | _ => false

theorem tokens_none (hs : NUL ∉ s) (hget : gettoken s = (NUL, ⟨[], []⟩, [])) : tokens s = [] := by
  rw [tokens_eq hs, hget, if_pos rfl]

theorem tokens_sym (hs : NUL ∉ s) (hget : gettoken s = (c, f, s')) (ha : c ≠ 'a') (hnul : c ≠ NUL) :
    tokens s = .sym c :: tokens s' := by
  rw [tokens_eq hs, hget, if_neg hnul]
  simp [tokOf, ha]

theorem tokens_word (hs : NUL ∉ s) (hget : gettoken s = ('a', f, s')) : tokens s = .word f.text :: tokens s' := by
  have hnul : 'a' ≠ NUL := by decide
  rw [tokens_eq hs, hget, if_neg hnul]
  rfl

theorem peek_eq (hs : NUL ∉ s) (htoks : ∀ c ∈ toks, c ∈ symbols) : peek s toks = (starts toks (tokens s), skip s) := by
  unfold peek
  rcases head hs with ⟨h, hget⟩ | ⟨c, q, eq, h, hsym, ha, hnul, -, hget⟩ | ⟨c, q, h, hword, hget⟩
  · rw [tokens_none hs hget, h]
    rfl
  · have hc : first c ≠ NUL := fun hc => not_word_nul (hc ▸ hsym)
    rw [tokens_sym hs hget ha hnul, h]
    simp [starts, hc]
  · have hc : c ∉ toks := fun hc => by simp [isWord, htoks c hc] at hword
    rw [tokens_word hs hget, h]
    simp [starts, hc]

/-- At the end of the line. -/
theorem gettoken_nil (hs : NUL ∉ s) (h : tokens s = []) : gettoken s = (NUL, ⟨[], []⟩, []) := by
  rcases head hs with ⟨-, hget⟩ | ⟨c, q, eq, -, -, ha, hnul, -, hget⟩ | ⟨c, q, -, -, hget⟩
  · exact hget
  · rw [tokens_sym hs hget ha hnul] at h
    cases h
  · rw [tokens_word hs hget] at h
    cases h

/-- What `gettoken` leaves when there is a token. -/
structure Got (s : List Char) (t : Tok) (ts : List Tok) (f : Slice) (s' : List Char) : Prop where
  get : gettoken s = (t.code, f, s')
  tokens : tokens s' = ts
  suffix : s' <:+ s
  lt : s'.length < s.length
  word : ∀ w, t = .word w → f.text = w ∧ Word s f

theorem gettoken_cons (hs : NUL ∉ s) (h : tokens s = t :: ts) : ∃ f s', Got s t ts f s' := by
  have hsuffix := gettoken_suffix hs
  have hlt := gettoken_length hs
  have hskip := skip_suffix s
  rcases head hs with ⟨-, hget⟩ | ⟨c, q, eq, hq, -, ha, hnul, -, hget⟩ | ⟨c, q, hq, hword, hget⟩
  · rw [tokens_none hs hget] at h
    cases h
  · rw [tokens_sym hs hget ha hnul] at h
    obtain ⟨rfl, rfl⟩ := List.cons.inj h
    rw [hget] at hsuffix hlt
    exact ⟨_, _, hget, rfl, hsuffix, hlt hnul, by simp⟩
  · rw [tokens_word hs hget] at h
    obtain ⟨rfl, rfl⟩ := List.cons.inj h
    rw [hget] at hsuffix hlt
    have hnul : 'a' ≠ NUL := by decide
    refine ⟨_, _, hget, rfl, hsuffix, hlt hnul, fun w hw => ⟨Tok.word.inj hw, ?_⟩⟩
    rw [hq] at hskip
    exact (word_slice hword).mono hskip

/-- An operator is not taken for a word, nor for the end of the line. -/
theorem sym_code (hs : NUL ∉ s) (h : tokens s = .sym c :: ts) : c ≠ 'a' ∧ c ≠ NUL ∧ first c ∈ symbols := by
  rcases head hs with ⟨-, hget⟩ | ⟨d, q, eq, hq, hsym, ha, hnul, -, hget⟩ | ⟨d, q, hq, hword, hget⟩
  · rw [tokens_none hs hget] at h
    cases h
  · rw [tokens_sym hs hget ha hnul] at h
    obtain rfl := Tok.sym.inj (List.cons.inj h).1
    exact ⟨ha, hnul, hsym⟩
  · rw [tokens_word hs hget] at h
    cases (List.cons.inj h).1

/-! ### The grammar -/

/-- Redirections, each with its file. -/
inductive Redirs : List (Redir (List Char)) → List Tok → Prop
  | nil : Redirs [] []
  | cons {c : Char} {w : List Char} {mode fd : ℕ} {rs : List (Redir (List Char))} {ts : List Tok}
      (hc : redirOf c = some (mode, fd)) (h : Redirs rs ts) : Redirs (⟨w, mode, fd⟩ :: rs) (.sym c :: .word w :: ts)

/-- Arguments with redirections among them. -/
inductive Args : List (List Char) → List (Redir (List Char)) → List Tok → Prop
  | nil : Args [] [] []
  | word {w : List Char} {ws : List (List Char)} {rs : List (Redir (List Char))} {ts : List Tok}
      (h : Args ws rs ts) : Args (w :: ws) rs (.word w :: ts)
  | redir {c : Char} {w : List Char} {mode fd : ℕ} {ws : List (List Char)} {rs : List (Redir (List Char))} {ts : List Tok}
      (hc : redirOf c = some (mode, fd)) (h : Args ws rs ts) : Args ws (⟨w, mode, fd⟩ :: rs) (.sym c :: .word w :: ts)

/-- The grammar's categories. -/
inductive Cat
  | line
  | pipe
  | exec
  deriving DecidableEq

def backcmds {S : Type} : ℕ → Cmd S → Cmd S
  | 0, cmd => cmd
  | n + 1, cmd => backcmds n (.back cmd)

/-- The commands of a category and the tokens they are written with. A simple command, which may be empty, has less
than `MAXARGS` arguments. -/
inductive Derives : Cat → Cmd (List Char) → List Tok → Prop
  | simple {ws : List (List Char)} {rs : List (Redir (List Char))} {ts : List Tok} (h : Args ws rs ts)
      (hlen : ws.length < MAXARGS) : Derives .exec (redircmds (.exec ws) rs) ts
  | block {cmd : Cmd (List Char)} {rs : List (Redir (List Char))} {ts us : List Tok} (h : Derives .line cmd ts)
      (hr : Redirs rs us) : Derives .exec (redircmds cmd rs) (.sym '(' :: (ts ++ .sym ')' :: us))
  | one {cmd : Cmd (List Char)} {ts : List Tok} (h : Derives .exec cmd ts) : Derives .pipe cmd ts
  | pipe {left right : Cmd (List Char)} {ts us : List Tok} (hl : Derives .exec left ts) (hr : Derives .pipe right us) :
      Derives .pipe (.pipe left right) (ts ++ .sym '|' :: us)
  | line {cmd : Cmd (List Char)} {ts : List Tok} (h : Derives .pipe cmd ts) (n : ℕ) :
      Derives .line (backcmds n cmd) (ts ++ List.replicate n (.sym '&'))
  | list {left right : Cmd (List Char)} {ts us : List Tok} (hl : Derives .pipe left ts) (n : ℕ) (hr : Derives .line right us) :
      Derives .line (.list (backcmds n left) right) (ts ++ (List.replicate n (.sym '&') ++ .sym ';' :: us))

/-! ### The parser follows the grammar -/

section

variable {S T : Type}

def Redir.map (g : S → T) (r : Redir S) : Redir T := ⟨g r.file, r.mode, r.fd⟩

theorem map_redircmds (g : S → T) : ∀ (rs : List (Redir S)) (cmd : Cmd S),
    (redircmds cmd rs).map g = redircmds (cmd.map g) (rs.map (Redir.map g))
  | [], _ => rfl
  | r :: rs, cmd => map_redircmds g rs (.redir cmd r)

theorem strings_redircmds : ∀ (rs : List (Redir S)) (cmd : Cmd S),
    (redircmds cmd rs).strings = cmd.strings ++ rs.map Redir.file
  | [], cmd => by simp [redircmds]
  | r :: rs, cmd => by
    have := strings_redircmds rs (.redir cmd r)
    rw [Cmd.strings, List.append_assoc] at this
    exact this

theorem map_backcmds (g : S → T) : ∀ (n : ℕ) (cmd : Cmd S), (backcmds n cmd).map g = backcmds n (cmd.map g)
  | 0, _ => rfl
  | n + 1, cmd => map_backcmds g n (.back cmd)

theorem strings_backcmds : ∀ (n : ℕ) (cmd : Cmd S), (backcmds n cmd).strings = cmd.strings
  | 0, _ => rfl
  | n + 1, cmd => strings_backcmds n (.back cmd)

end

/-- The redirections with their files as they are written. -/
def redirTexts (rs : List (Redir Slice)) : List (Redir (List Char)) := rs.map (Redir.map Slice.text)

theorem starts_cons {toks : List Char} (h : starts toks ts = true) : ∃ c us, ts = .sym c :: us ∧ first c ∈ toks := by
  unfold starts at h
  split at h
  · exact ⟨_, _, rfl, by simpa using h⟩
  · cases h

theorem redirOf_some {c : Char} : (∃ mode fd, redirOf c = some (mode, fd)) ↔ first c ∈ ['<', '>'] := by
  unfold redirOf first
  by_cases h1 : c = '<'
  · simp [h1]
  by_cases h2 : c = '>'
  · simp [h2]
  by_cases h3 : c = '+'
  · simp [h3]
  simp [h1, h2, h3]

theorem parseredirs_sound : ∀ (n : ℕ) {s s' : List Char} {rs : List (Redir Slice)}, NUL ∉ s → parseredirs n s = .ok (rs, s') →
    (∃ us, tokens s = us ++ tokens s' ∧ Redirs (redirTexts rs) us) ∧ s' <:+ s ∧ ∀ r ∈ rs, Word s r.file
  | 0, _, _, _, _, h => by cases h
  | n + 1, s, s', rs, hs, h => by
    unfold parseredirs at h
    rw [peek_eq hs (by simp [symbols])] at h
    dsimp only at h
    cases hst : starts ['<', '>'] (tokens s) with
    | false =>
      rw [hst, if_neg Bool.false_ne_true] at h
      cases h
      exact ⟨⟨[], (tokens_skip hs).symm, .nil⟩, skip_suffix s, by simp⟩
    | true =>
      rw [hst, if_pos rfl, gettoken_skip] at h
      obtain ⟨c, ts, htok, hc⟩ := starts_cons hst
      obtain ⟨f, s₁, g⟩ := gettoken_cons hs htok
      have hs₁ := nul_of_suffix hs g.suffix
      rw [g.get] at h
      dsimp only [Tok.code] at h
      cases htok₁ : tokens s₁ with
      | nil =>
        rw [gettoken_nil hs₁ htok₁, if_pos (by decide)] at h
        cases h
      | cons t us =>
        obtain ⟨f', s₂, g'⟩ := gettoken_cons hs₁ htok₁
        have hs₂ := nul_of_suffix hs₁ g'.suffix
        rw [g'.get] at h
        dsimp only at h
        cases t with
        | sym d =>
          have hd : (Tok.sym d).code ≠ 'a' := (sym_code hs₁ htok₁).1
          rw [if_pos hd] at h
          cases h
        | word w =>
          rw [if_neg (by simp [Tok.code])] at h
          obtain ⟨⟨rs', s₃⟩, hrec, h⟩ := of_bind_ok h
          obtain ⟨mode, fd, hmode⟩ := redirOf_some.mpr hc
          rw [hmode] at h
          cases h
          obtain ⟨⟨us', htok₂, hred⟩, hsuf, hwords⟩ := parseredirs_sound n hs₂ hrec
          obtain ⟨htext, hword⟩ := g'.word w rfl
          refine ⟨⟨.sym c :: .word w :: us', ?_, ?_⟩, hsuf.trans (g'.suffix.trans g.suffix), fun r hr => ?_⟩
          · rw [htok, ← g.tokens, htok₁, ← g'.tokens, htok₂]
            rfl
          · show Redirs (⟨f'.text, mode, fd⟩ :: redirTexts rs') _
            rw [htext]
            exact .cons hmode hred
          · rcases List.mem_cons.mp hr with rfl | hr
            · exact hword.mono g.suffix
            · exact (hwords r hr).mono (g'.suffix.trans g.suffix)

theorem Args.redirs {ws : List (List Char)} {rs rs' : List (Redir (List Char))} {ts us : List Tok} (h : Redirs rs ts)
    (ha : Args ws rs' us) : Args ws (rs ++ rs') (ts ++ us) := by
  induction h with
  | nil => exact ha
  | cons hc _ ih => exact .redir hc ih

theorem parseargs_sound : ∀ (n : ℕ) {argc : ℕ} {s s' : List Char} {args : List Slice} {rs : List (Redir Slice)}, NUL ∉ s →
    argc < MAXARGS → parseargs n argc s = .ok (args, rs, s') →
    (∃ us, tokens s = us ++ tokens s' ∧ Args (args.map Slice.text) (redirTexts rs) us) ∧ s' <:+ s ∧
      argc + args.length < MAXARGS ∧ (∀ f ∈ args, Word s f) ∧ ∀ r ∈ rs, Word s r.file
  | 0, _, _, _, _, _, _, _, h => by cases h
  | n + 1, argc, s, s', args, rs, hs, hargc, h => by
    unfold parseargs at h
    rw [peek_eq hs (by simp [symbols])] at h
    dsimp only at h
    have hend : Args (([] : List Slice).map Slice.text) (redirTexts []) [] := .nil
    cases hst : starts ['|', ')', '&', ';'] (tokens s) with
    | true =>
      rw [hst, if_pos rfl] at h
      cases h
      exact ⟨⟨[], (tokens_skip hs).symm, hend⟩, skip_suffix s, hargc, by simp, by simp⟩
    | false =>
      rw [hst, if_neg Bool.false_ne_true, gettoken_skip] at h
      cases htok : tokens s with
      | nil =>
        rw [gettoken_nil hs htok] at h
        dsimp only at h
        rw [if_pos rfl] at h
        cases h
        exact ⟨⟨[], rfl, hend⟩, List.nil_suffix, hargc, by simp, by simp⟩
      | cons t ts =>
        obtain ⟨f, s₁, g⟩ := gettoken_cons hs htok
        have hs₁ := nul_of_suffix hs g.suffix
        rw [g.get] at h
        dsimp only at h
        cases t with
        | sym c =>
          obtain ⟨ha, hnul, -⟩ := sym_code hs htok
          have ha' : (Tok.sym c).code ≠ 'a' := ha
          have hnul' : (Tok.sym c).code ≠ NUL := hnul
          rw [if_neg hnul', if_pos ha'] at h
          cases h
        | word w =>
          have hnul : (Tok.word w).code ≠ NUL := by simp [Tok.code, NUL]
          rw [if_neg hnul, if_neg (by simp [Tok.code])] at h
          by_cases hmax : argc + 1 ≥ MAXARGS
          · rw [if_pos hmax] at h
            cases h
          rw [if_neg hmax] at h
          obtain ⟨⟨rs₁, s₂⟩, hredirs, h⟩ := of_bind_ok h
          obtain ⟨⟨args', rs₂, s₃⟩, hrec, h⟩ := of_bind_ok h
          dsimp only at h
          cases h
          obtain ⟨⟨us₁, htok₁, hred₁⟩, hsuf₁, hwords₁⟩ := parseredirs_sound _ hs₁ hredirs
          have hs₂ := nul_of_suffix hs₁ hsuf₁
          obtain ⟨⟨us₂, htok₂, hargs₂⟩, hsuf₂, hlen₂, hwords₂, hfiles₂⟩ := parseargs_sound n hs₂ (by omega) hrec
          obtain ⟨htext, hword⟩ := g.word w rfl
          refine ⟨⟨.word w :: (us₁ ++ us₂), ?_, ?_⟩, hsuf₂.trans (hsuf₁.trans g.suffix), ?_, fun f' hf => ?_, fun r hr => ?_⟩
          · rw [← g.tokens, htok₁, htok₂, List.cons_append, List.append_assoc]
          · rw [List.map_cons, htext]
            unfold redirTexts
            rw [List.map_append]
            exact .word (.redirs hred₁ hargs₂)
          · rw [List.length_cons]
            omega
          · rcases List.mem_cons.mp hf with rfl | hf
            · exact hword
            · exact (hwords₂ f' hf).mono (hsuf₁.trans g.suffix)
          · rcases List.mem_append.mp hr with hr | hr
            · exact (hwords₁ r hr).mono g.suffix
            · exact (hfiles₂ r hr).mono (hsuf₁.trans g.suffix)

/-- One operator of one character. -/
theorem starts_one {d : Char} (hd : d ≠ '>') (h : starts [d] ts = true) : ∃ us, ts = .sym d :: us := by
  obtain ⟨c, us, rfl, hc⟩ := starts_cons h
  rw [List.mem_singleton] at hc
  unfold first at hc
  split_ifs at hc with hp
  · exact absurd hc.symm hd
  · exact ⟨us, by rw [hc]⟩

theorem parsebacks_sound {S : Type} : ∀ (n : ℕ) {cmd cmd' : Cmd S} {s s' : List Char}, NUL ∉ s →
    parsebacks n cmd s = (cmd', s') →
    ∃ k, cmd' = backcmds k cmd ∧ tokens s = List.replicate k (.sym '&') ++ tokens s' ∧ s' <:+ s
  | 0, _, _, _, _, _, h => by
    cases h
    exact ⟨0, rfl, rfl, List.suffix_rfl⟩
  | n + 1, cmd, cmd', s, s', hs, h => by
    unfold parsebacks at h
    rw [peek_eq hs (by simp [symbols])] at h
    dsimp only at h
    cases hst : starts ['&'] (tokens s) with
    | true =>
      rw [hst, if_pos rfl] at h
      obtain ⟨us, htok⟩ := starts_one (by decide) hst
      obtain ⟨f, s₁, g⟩ := gettoken_cons hs htok
      rw [gettoken_skip, g.get] at h
      obtain ⟨k, hcmd, htok₁, hsuf⟩ := parsebacks_sound n (nul_of_suffix hs g.suffix) h
      refine ⟨k + 1, hcmd, ?_, hsuf.trans g.suffix⟩
      rw [htok, List.replicate_succ, List.cons_append, ← htok₁, g.tokens]
    | false =>
      rw [hst, if_neg Bool.false_ne_true] at h
      cases h
      exact ⟨0, rfl, (tokens_skip hs).symm, skip_suffix s⟩

/-- `s` begins with the command `cmd` of a category, and `s'` is left of it. -/
structure Parsed (cat : Cat) (s : List Char) (cmd : Cmd Slice) (s' : List Char) : Prop where
  derives : ∃ us, tokens s = us ++ tokens s' ∧ Derives cat (cmd.map Slice.text) us
  suffix : s' <:+ s
  words : ∀ f ∈ cmd.strings, Word s f

/-- The operator before the second part of a command, which `peek` has seen. -/
theorem got_sym {d : Char} (hd : d ≠ '>') (hs : NUL ∉ s) (h : starts [d] (tokens s) = true) :
    ∃ f s', gettoken s = (d, f, s') ∧ tokens s = .sym d :: tokens s' ∧ s' <:+ s ∧ s'.length < s.length := by
  obtain ⟨us, htok⟩ := starts_one hd h
  obtain ⟨f, s', g⟩ := gettoken_cons hs htok
  exact ⟨f, s', g.get, by rw [htok, g.tokens], g.suffix, g.lt⟩

theorem parse_sound : ∀ (n : ℕ),
    (∀ {s s' : List Char} {cmd : Cmd Slice}, NUL ∉ s → parseline n s = .ok (cmd, s') → Parsed .line s cmd s') ∧
    (∀ {s s' : List Char} {cmd : Cmd Slice}, NUL ∉ s → parsepipe n s = .ok (cmd, s') → Parsed .pipe s cmd s') ∧
    (∀ {s s' : List Char} {cmd : Cmd Slice}, NUL ∉ s → parseexec n s = .ok (cmd, s') → Parsed .exec s cmd s') ∧
    (∀ {s s' : List Char} {cmd : Cmd Slice}, NUL ∉ s → parseblock n s = .ok (cmd, s') → Parsed .exec s cmd s')
  | 0 => by
    refine ⟨?_, ?_, ?_, ?_⟩ <;> intro s s' cmd hs h <;> cases h
  | n + 1 => by
    obtain ⟨ihline, ihpipe, ihexec, ihblock⟩ := parse_sound n
    refine ⟨?_, ?_, ?_, ?_⟩
    · intro s s' cmd hs h
      unfold parseline at h
      obtain ⟨⟨left, s₁⟩, hleft, h⟩ := of_bind_ok h
      obtain ⟨⟨us, htok, hder⟩, hsuf, hwords⟩ := ihpipe hs hleft
      have hs₁ := nul_of_suffix hs hsuf
      dsimp only at h
      cases hb : parsebacks (s₁.length + 1) left s₁ with
      | mk left' s₂ =>
        rw [hb] at h
        obtain ⟨k, rfl, htok₁, hsuf₁⟩ := parsebacks_sound _ hs₁ hb
        have hs₂ := nul_of_suffix hs₁ hsuf₁
        dsimp only at h
        rw [peek_eq hs₂ (by simp [symbols])] at h
        dsimp only at h
        cases hst : starts [';'] (tokens s₂) with
        | true =>
          rw [hst, if_pos rfl] at h
          obtain ⟨f, s₃, hget, htok₂, hsuf₂, -⟩ := got_sym (by decide) hs₂ hst
          rw [gettoken_skip, hget] at h
          obtain ⟨⟨right, s₄⟩, hright, h⟩ := of_bind_ok h
          dsimp only at h
          cases h
          have hsuf₃ := hsuf₂.trans (hsuf₁.trans hsuf)
          obtain ⟨⟨us', htok₃, hder'⟩, hsuf', hwords'⟩ := ihline (nul_of_suffix hs hsuf₃) hright
          have hlist := Derives.list hder k hder'
          rw [← map_backcmds] at hlist
          refine ⟨⟨_, ?_, hlist⟩, hsuf'.trans hsuf₃, fun f hf => ?_⟩
          · rw [htok, htok₁, htok₂, htok₃]
            simp
          · rcases List.mem_append.mp hf with hf | hf
            · rw [strings_backcmds] at hf
              exact hwords f hf
            · exact (hwords' f hf).mono hsuf₃
        | false =>
          rw [hst, if_neg Bool.false_ne_true] at h
          cases h
          have hback := Derives.line hder k
          rw [← map_backcmds] at hback
          refine ⟨⟨_, ?_, hback⟩, (skip_suffix _).trans (hsuf₁.trans hsuf), fun f hf => ?_⟩
          · rw [htok, htok₁, tokens_skip hs₂, List.append_assoc]
          · rw [strings_backcmds] at hf
            exact hwords f hf
    · intro s s' cmd hs h
      unfold parsepipe at h
      obtain ⟨⟨left, s₁⟩, hleft, h⟩ := of_bind_ok h
      obtain ⟨⟨us, htok, hder⟩, hsuf, hwords⟩ := ihexec hs hleft
      have hs₁ := nul_of_suffix hs hsuf
      dsimp only at h
      rw [peek_eq hs₁ (by simp [symbols])] at h
      dsimp only at h
      cases hst : starts ['|'] (tokens s₁) with
      | true =>
        rw [hst, if_pos rfl] at h
        obtain ⟨f, s₂, hget, htok₁, hsuf₁, -⟩ := got_sym (by decide) hs₁ hst
        rw [gettoken_skip, hget] at h
        obtain ⟨⟨right, s₃⟩, hright, h⟩ := of_bind_ok h
        dsimp only at h
        cases h
        have hsuf₂ := hsuf₁.trans hsuf
        obtain ⟨⟨us', htok₂, hder'⟩, hsuf', hwords'⟩ := ihpipe (nul_of_suffix hs hsuf₂) hright
        refine ⟨⟨_, ?_, .pipe hder hder'⟩, hsuf'.trans hsuf₂, fun f hf => ?_⟩
        · rw [htok, htok₁, htok₂]
          simp
        · rcases List.mem_append.mp hf with hf | hf
          · exact hwords f hf
          · exact (hwords' f hf).mono hsuf₂
      | false =>
        rw [hst, if_neg Bool.false_ne_true] at h
        cases h
        exact ⟨⟨us, by rw [htok, tokens_skip hs₁], .one hder⟩, (skip_suffix _).trans hsuf, hwords⟩
    · intro s s' cmd hs h
      unfold parseexec at h
      rw [peek_eq hs (by simp [symbols])] at h
      dsimp only at h
      have hs₀ := nul_of_suffix hs (skip_suffix s)
      cases hst : starts ['('] (tokens s) with
      | true =>
        rw [hst, if_pos rfl] at h
        obtain ⟨⟨us, htok, hder⟩, hsuf, hwords⟩ := ihblock hs₀ h
        exact ⟨⟨us, by rw [← tokens_skip hs, htok], hder⟩, hsuf.trans (skip_suffix s), fun f hf => (hwords f hf).mono (skip_suffix s)⟩
      | false =>
        rw [hst, if_neg Bool.false_ne_true] at h
        obtain ⟨⟨rs, s₁⟩, hredirs, h⟩ := of_bind_ok h
        obtain ⟨⟨args, rs', s₂⟩, hargs, h⟩ := of_bind_ok h
        dsimp only at h
        cases h
        obtain ⟨⟨us, htok, hred⟩, hsuf, hfiles⟩ := parseredirs_sound _ hs₀ hredirs
        obtain ⟨⟨us', htok', hargs'⟩, hsuf', hlen, hwords, hfiles'⟩ :=
          parseargs_sound _ (nul_of_suffix hs₀ hsuf) (by decide) hargs
        have hsuf₁ := hsuf.trans (skip_suffix s)
        refine ⟨⟨us ++ us', ?_, ?_⟩, hsuf'.trans hsuf₁, fun f hf => ?_⟩
        · rw [← tokens_skip hs, htok, htok', List.append_assoc]
        · rw [map_redircmds, List.map_append]
          exact .simple (.redirs hred hargs') (by simpa using hlen)
        · rw [strings_redircmds, List.map_append] at hf
          rcases List.mem_append.mp hf with hf | hf
          · exact (hwords f hf).mono hsuf₁
          · rcases List.mem_append.mp hf with hf | hf
            · obtain ⟨r, hr, rfl⟩ := List.mem_map.mp hf
              exact (hfiles r hr).mono (skip_suffix s)
            · obtain ⟨r, hr, rfl⟩ := List.mem_map.mp hf
              exact (hfiles' r hr).mono hsuf₁
    · intro s s' cmd hs h
      unfold parseblock at h
      rw [peek_eq hs (by simp [symbols])] at h
      dsimp only at h
      cases hst : starts ['('] (tokens s) with
      | false =>
        rw [hst] at h
        cases h
      | true =>
        rw [hst, Bool.not_true, if_neg Bool.false_ne_true] at h
        obtain ⟨f, s₁, hget, htok, hsuf, -⟩ := got_sym (by decide) hs hst
        have hs₁ := nul_of_suffix hs hsuf
        rw [gettoken_skip, hget] at h
        obtain ⟨⟨inner, s₂⟩, hline, h⟩ := of_bind_ok h
        obtain ⟨⟨us, htok₁, hder⟩, hsuf₁, hwords⟩ := ihline hs₁ hline
        have hs₂ := nul_of_suffix hs₁ hsuf₁
        dsimp only at h
        rw [peek_eq hs₂ (by simp [symbols])] at h
        dsimp only at h
        cases hst₂ : starts [')'] (tokens s₂) with
        | false =>
          rw [hst₂] at h
          cases h
        | true =>
          rw [hst₂, Bool.not_true, if_neg Bool.false_ne_true] at h
          obtain ⟨f', s₃, hget₂, htok₂, hsuf₂, -⟩ := got_sym (by decide) hs₂ hst₂
          rw [gettoken_skip, hget₂] at h
          obtain ⟨⟨rs, s₄⟩, hredirs, h⟩ := of_bind_ok h
          dsimp only at h
          cases h
          have hsuf₃ := hsuf₂.trans (hsuf₁.trans hsuf)
          obtain ⟨⟨us', htok₃, hred⟩, hsuf₄, hfiles⟩ := parseredirs_sound _ (nul_of_suffix hs hsuf₃) hredirs
          have hblock := Derives.block hder hred
          unfold redirTexts at hblock
          rw [← map_redircmds] at hblock
          refine ⟨⟨_, ?_, hblock⟩, hsuf₄.trans hsuf₃, fun f hf => ?_⟩
          · rw [htok, htok₁, htok₂, htok₃]
            simp
          · rw [strings_redircmds] at hf
            rcases List.mem_append.mp hf with hf | hf
            · exact (hwords f hf).mono hsuf
            · obtain ⟨r, hr, rfl⟩ := List.mem_map.mp hf
              exact (hfiles r hr).mono hsuf₃

end Shell
end Xv6
end OsLabs
