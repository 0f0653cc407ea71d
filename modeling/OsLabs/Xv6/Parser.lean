/-
# The parser accepts what the grammar has

The other direction: whatever can be derived is parsed, if nothing comes after it that its function would go on with (`Follow`), and
the passes and calls that `parsecmd` allows are enough for any line. So `parsecmd` is the grammar (`parsecmd_iff`).

Key definition: `Follow`.
Key theorem: `parsecmd_iff`.
-/
import OsLabs.Xv6.Grammar

namespace OsLabs
namespace Xv6
namespace Shell

variable {s s' toks : List Char} {c : Char} {t : Tok} {ts us : List Tok}

/-! ### Everything in the grammar is parsed -/

/-- What may come after a command: one of `toks`, or the end of the line. -/
def Follow (toks : List Char) (ts : List Tok) : Prop := ts = [] ∨ starts toks ts = true

theorem starts_disjoint {A B : List Char} (hAB : ∀ c ∈ A, c ∉ B) (h : starts A ts = true) : starts B ts = false := by
  obtain ⟨c, us, rfl, hc⟩ := starts_cons h
  simpa [starts] using hAB _ hc

theorem Follow.not_starts {A B : List Char} (hAB : ∀ c ∈ A, c ∉ B) (h : Follow A ts) : starts B ts = false := by
  rcases h with rfl | h
  · rfl
  · exact starts_disjoint hAB h

theorem Follow.mono {A B : List Char} (hAB : ∀ c ∈ A, c ∈ B) (h : Follow A ts) : Follow B ts := by
  rcases h with rfl | h
  · exact Or.inl rfl
  · obtain ⟨c, us, rfl, hc⟩ := starts_cons h
    exact Or.inr (by simpa [starts] using hAB _ hc)

theorem follow_sym {A : List Char} (hc : first c ∈ A) : Follow A (.sym c :: ts) := Or.inr (by simpa [starts] using hc)

/-! One pass of each loop. -/

theorem parseredirs_stop {n : ℕ} (hs : NUL ∉ s) (hst : starts ['<', '>'] (tokens s) = false) :
    parseredirs (n + 1) s = .ok ([], skip s) := by
  rw [parseredirs, peek_eq hs (by simp [symbols]), hst]
  rfl

theorem parseredirs_redir {w : List Char} {mode fd : ℕ} (hs : NUL ∉ s) (htok : tokens s = .sym c :: .word w :: ts)
    (hc : redirOf c = some (mode, fd)) : ∃ f s', (∀ n, parseredirs (n + 1) s =
      (parseredirs n s').map fun p => (⟨f, mode, fd⟩ :: p.1, p.2)) ∧
      f.text = w ∧ tokens s' = ts ∧ s' <:+ s ∧ s'.length < s.length := by
  obtain ⟨f, s₁, g⟩ := gettoken_cons hs htok
  obtain ⟨f', s₂, g'⟩ := gettoken_cons (nul_of_suffix hs g.suffix) g.tokens
  refine ⟨f', s₂, fun n => ?_, (g'.word w rfl).1, g'.tokens, g'.suffix.trans g.suffix, g'.lt.trans g.lt⟩
  have hstart : starts ['<', '>'] (tokens s) = true := by
    rw [htok]
    simpa [starts] using redirOf_some.mp ⟨mode, fd, hc⟩
  have ha : ¬ (Tok.word w).code ≠ 'a' := by simp [Tok.code]
  rw [parseredirs, peek_eq hs (by simp [symbols]), hstart]
  dsimp only
  rw [if_pos rfl, gettoken_skip, g.get]
  dsimp only
  rw [g'.get]
  dsimp only
  rw [if_neg ha]
  have hcode : redirOf (Tok.sym c).code = some (mode, fd) := hc
  simp only [hcode]
  cases parseredirs n s₂ with
  | error x => rfl
  | ok p => rfl

/-- After a simple command. -/
def stops : List Char := ['|', ')', '&', ';']

theorem parseargs_end (argc : ℕ) (hs : NUL ∉ s) (hfollow : Follow stops (tokens s)) :
    ∃ s', (∀ n, parseargs (n + 1) argc s = .ok ([], [], s')) ∧ tokens s' = tokens s ∧ s' <:+ s := by
  rcases hfollow with hnil | hstop
  · refine ⟨[], fun n => ?_, hnil.symm, List.nil_suffix⟩
    have hst : starts ['|', ')', '&', ';'] (tokens s) = false := by rw [hnil]; rfl
    rw [parseargs, peek_eq hs (by simp [symbols]), hst]
    dsimp only
    rw [if_neg Bool.false_ne_true, gettoken_skip, gettoken_nil hs hnil]
    rfl
  · refine ⟨skip s, fun n => ?_, tokens_skip hs, skip_suffix s⟩
    unfold stops at hstop
    rw [parseargs, peek_eq hs (by simp [symbols]), hstop]
    rfl

theorem parseargs_word {w : List Char} (hs : NUL ∉ s) (htok : tokens s = .word w :: ts) :
    ∃ f s', (∀ n argc, argc + 1 < MAXARGS → parseargs (n + 1) argc s = (do
        let p ← parseredirs (s'.length + 1) s'
        let q ← parseargs n (argc + 1) p.2
        .ok (f :: q.1, p.1 ++ q.2.1, q.2.2))) ∧
      f.text = w ∧ tokens s' = ts ∧ s' <:+ s ∧ s'.length < s.length := by
  obtain ⟨f, s₁, g⟩ := gettoken_cons hs htok
  refine ⟨f, s₁, fun n argc hargc => ?_, (g.word w rfl).1, g.tokens, g.suffix, g.lt⟩
  have ha : ¬ (Tok.word w).code ≠ 'a' := by simp [Tok.code]
  have hnul : (Tok.word w).code ≠ NUL := by simp [Tok.code, NUL]
  have hst : starts ['|', ')', '&', ';'] (tokens s) = false := by rw [htok]; rfl
  rw [parseargs, peek_eq hs (by simp [symbols]), hst]
  dsimp only
  rw [if_neg Bool.false_ne_true, gettoken_skip, g.get]
  dsimp only
  rw [if_neg hnul, if_neg ha, if_neg (by omega)]

theorem redirTexts_cons {f : Slice} {w : List Char} {mode fd : ℕ} {rs : List (Redir Slice)} {rs' : List (Redir (List Char))}
    (hf : f.text = w) (h : redirTexts rs = rs') : redirTexts (⟨f, mode, fd⟩ :: rs) = ⟨w, mode, fd⟩ :: rs' := by
  rw [← hf, ← h]
  rfl

theorem redirs_complete {rs : List (Redir (List Char))} (h : Redirs rs us) : ∀ {s : List Char}, NUL ∉ s →
    tokens s = us ++ ts → starts ['<', '>'] ts = false →
    ∃ rs' s', (∀ n, s.length < n → parseredirs n s = .ok (rs', s')) ∧ redirTexts rs' = rs ∧ tokens s' = ts ∧ s' <:+ s := by
  induction h with
  | nil =>
    intro s hs htok hst
    refine ⟨[], skip s, fun n hn => ?_, rfl, (tokens_skip hs).trans htok, skip_suffix s⟩
    obtain ⟨n, rfl⟩ := Nat.exists_eq_add_one_of_ne_zero (Nat.ne_zero_of_lt hn)
    exact parseredirs_stop hs (by rw [htok]; exact hst)
  | cons hc _ ih =>
    intro s hs htok hst
    obtain ⟨f, s₁, hget, htext, htok₁, hsuf, hlt⟩ := parseredirs_redir hs htok hc
    obtain ⟨rs', s', hrec, htexts, htok', hsuf'⟩ := ih (nul_of_suffix hs hsuf) htok₁ hst
    refine ⟨_ :: rs', s', fun n hn => ?_, redirTexts_cons htext htexts, htok', hsuf'.trans hsuf⟩
    obtain ⟨n, rfl⟩ := Nat.exists_eq_add_one_of_ne_zero (Nat.ne_zero_of_lt hn)
    rw [hget, hrec n (by omega)]
    rfl

theorem args_complete {ws : List (List Char)} {rs : List (Redir (List Char))} (h : Args ws rs us) : ∀ (argc : ℕ) {s : List Char},
    NUL ∉ s → tokens s = us ++ ts → Follow stops ts → argc + ws.length < MAXARGS →
    ∃ rs₁ s₁ args rs₂ s', (∀ n, s.length < n → parseredirs n s = .ok (rs₁, s₁)) ∧ s₁ <:+ s ∧
      (∀ n, s₁.length < n → parseargs n argc s₁ = .ok (args, rs₂, s')) ∧ redirTexts (rs₁ ++ rs₂) = rs ∧
      args.map Slice.text = ws ∧ tokens s' = ts ∧ s' <:+ s := by
  induction h with
  | nil =>
    intro argc s hs htok hfollow hlen
    rw [List.nil_append] at htok
    have hredir : starts ['<', '>'] (tokens s) = false := by
      rw [htok]
      exact hfollow.not_starts (by simp [stops])
    obtain ⟨s', hargs, htok', hsuf⟩ := parseargs_end argc (nul_of_suffix hs (skip_suffix s))
      (by rw [tokens_skip hs, htok]; exact hfollow)
    refine ⟨[], skip s, [], [], s', fun n hn => ?_, skip_suffix s, fun n hn => ?_, rfl, rfl, ?_, hsuf.trans (skip_suffix s)⟩
    · obtain ⟨n, rfl⟩ := Nat.exists_eq_add_one_of_ne_zero (Nat.ne_zero_of_lt hn)
      exact parseredirs_stop hs hredir
    · obtain ⟨n, rfl⟩ := Nat.exists_eq_add_one_of_ne_zero (Nat.ne_zero_of_lt hn)
      exact hargs n
    · rw [htok', tokens_skip hs, htok]
  | word _ ih =>
    intro argc s hs htok hfollow hlen
    rw [List.length_cons] at hlen
    have hredir : starts ['<', '>'] (tokens s) = false := by rw [htok]; rfl
    obtain ⟨f, s₁, hget, htext, htok₁, hsuf, hlt⟩ :=
      parseargs_word (nul_of_suffix hs (skip_suffix s)) ((tokens_skip hs).trans htok)
    obtain ⟨rs₁, s₂, args, rs₂, s', hredirs, hsuf₂, hargs, htexts, hwords, htok', hsuf'⟩ :=
      ih (argc + 1) (nul_of_suffix hs (hsuf.trans (skip_suffix s))) htok₁ hfollow (by omega)
    refine ⟨[], skip s, f :: args, rs₁ ++ rs₂, s', fun n hn => ?_, skip_suffix s, fun n hn => ?_, htexts, ?_, htok',
      hsuf'.trans (hsuf.trans (skip_suffix s))⟩
    · obtain ⟨n, rfl⟩ := Nat.exists_eq_add_one_of_ne_zero (Nat.ne_zero_of_lt hn)
      exact parseredirs_stop hs hredir
    · obtain ⟨n, rfl⟩ := Nat.exists_eq_add_one_of_ne_zero (Nat.ne_zero_of_lt hn)
      have hle := hsuf₂.length_le
      rw [hget n argc (by omega), hredirs _ (Nat.lt_succ_self _), ok_bind, hargs n (by omega)]
      rfl
    · rw [List.map_cons, hwords, htext]
  | redir hc _ ih =>
    intro argc s hs htok hfollow hlen
    obtain ⟨f, s₁, hget, htext, htok₁, hsuf, hlt⟩ := parseredirs_redir hs htok hc
    obtain ⟨rs₁, s₂, args, rs₂, s', hredirs, hsuf₂, hargs, htexts, hwords, htok', hsuf'⟩ :=
      ih argc (nul_of_suffix hs hsuf) htok₁ hfollow hlen
    refine ⟨_ :: rs₁, s₂, args, rs₂, s', fun n hn => ?_, hsuf₂.trans hsuf, hargs,
      redirTexts_cons htext htexts, hwords, htok', hsuf'.trans hsuf⟩
    obtain ⟨n, rfl⟩ := Nat.exists_eq_add_one_of_ne_zero (Nat.ne_zero_of_lt hn)
    rw [hget, hredirs n (by omega)]
    rfl

theorem backs_complete {S : Type} : ∀ (k : ℕ) {n : ℕ} (cmd : Cmd S) {s : List Char}, NUL ∉ s →
    tokens s = List.replicate k (.sym '&') ++ ts → starts ['&'] ts = false → s.length < n →
    ∃ s', parsebacks n cmd s = (backcmds k cmd, s') ∧ tokens s' = ts ∧ s' <:+ s
  | k, 0, _, _, _, _, _, hn => by omega
  | 0, n + 1, cmd, s, hs, htok, hst, hn => by
    refine ⟨skip s, ?_, (tokens_skip hs).trans htok, skip_suffix s⟩
    rw [parsebacks, peek_eq hs (by simp [symbols]), htok, List.replicate_zero, List.nil_append, hst]
    rfl
  | k + 1, n + 1, cmd, s, hs, htok, hst, hn => by
    obtain ⟨f, s₁, g⟩ := gettoken_cons hs htok
    have hlt := g.lt
    obtain ⟨s', hrec, htok', hsuf⟩ := backs_complete k (.back cmd) (nul_of_suffix hs g.suffix) g.tokens hst
      (by omega : s₁.length < n)
    refine ⟨s', ?_, htok', hsuf.trans g.suffix⟩
    have hst : starts ['&'] (tokens s) = true := by
      rw [htok]
      rfl
    rw [parsebacks, peek_eq hs (by simp [symbols]), hst]
    dsimp only
    rw [if_pos rfl, gettoken_skip, g.get]
    exact hrec

/-- The function of a category. -/
def parse : Cat → ℕ → List Char → Except Fault (Cmd Slice × List Char)
  | .line => parseline
  | .pipe => parsepipe
  | .exec => parseexec

/-- The calls before the first character is taken. -/
def calls : Cat → ℕ
  | .line => 4
  | .pipe => 3
  | .exec => 2

/-- What may come after a command of a category. -/
def followers : Cat → List Char
  | .line => [')']
  | .pipe => [')', '&', ';']
  | .exec => stops

theorem take_sym {d : Char} (hsym : d ∈ symbols) (hd : first d = d) (hs : NUL ∉ s) (htok : tokens s = .sym d :: ts) :
    ∃ f s', peek s [d] = (true, skip s) ∧ gettoken (skip s) = (d, f, s') ∧ tokens s' = ts ∧ s' <:+ s ∧ s'.length < s.length := by
  obtain ⟨f, s₁, g⟩ := gettoken_cons hs htok
  refine ⟨f, s₁, ?_, ?_, g.tokens, g.suffix, g.lt⟩
  · rw [peek_eq hs (by simpa using hsym), htok]
    simp [starts, hd]
  · rw [gettoken_skip, g.get]
    rfl

theorem peek_none {d : Char} (hsym : d ∈ symbols) (hs : NUL ∉ s) (hst : starts [d] (tokens s) = false) :
    peek s [d] = (false, skip s) := by
  rw [peek_eq hs (by simpa using hsym), hst]

/-- A simple command does not start with a parenthesis. -/
theorem Args.no_block {ws : List (List Char)} {rs : List (Redir (List Char))} (h : Args ws rs us) (hfollow : Follow stops ts) :
    starts ['('] (us ++ ts) = false := by
  cases h with
  | nil => exact hfollow.not_starts (by simp [stops])
  | word _ => rfl
  | redir hc _ =>
    have hfirst := redirOf_some.mp ⟨_, _, hc⟩
    simp only [List.cons_append, starts, List.mem_singleton, decide_eq_false_iff_not]
    intro he
    rw [he] at hfirst
    simp at hfirst

theorem follow_replicate {k : ℕ} (h : Follow [')', '&', ';'] ts) : Follow [')', '&', ';'] (List.replicate k (.sym '&') ++ ts) := by
  cases k with
  | zero => exact h
  | succ k => exact follow_sym (by simp [first])

/-- Whatever the grammar has for a category, its function parses. -/
theorem parse_complete {cat : Cat} {cmd : Cmd (List Char)} (h : Derives cat cmd us) : ∀ {n : ℕ} {s : List Char} {ts : List Tok}, NUL ∉ s →
    tokens s = us ++ ts → Follow (followers cat) ts → 4 * s.length + calls cat ≤ n →
    ∃ cmd' s', parse cat n s = .ok (cmd', s') ∧ cmd'.map Slice.text = cmd ∧ tokens s' = ts ∧ s' <:+ s := by
  induction h with
  | @simple ws rs us hargs hlen =>
    intro n s ts hs htok hfollow hn
    simp only [calls] at hn
    obtain ⟨n, rfl⟩ : ∃ m, n = m + 1 := ⟨n - 1, by omega⟩
    have hs₀ := nul_of_suffix hs (skip_suffix s)
    have hst : starts ['('] (tokens s) = false := by
      rw [htok]
      exact hargs.no_block hfollow
    obtain ⟨rs₁, s₁, args, rs₂, s', hredirs, hsuf₁, hparse, htexts, hwords, htok', hsuf⟩ :=
      args_complete hargs 0 hs₀ ((tokens_skip hs).trans htok) hfollow (by omega)
    refine ⟨redircmds (.exec args) (rs₁ ++ rs₂), s', ?_, ?_, htok', hsuf.trans (skip_suffix s)⟩
    · show parseexec (n + 1) s = _
      rw [parseexec, peek_none (by simp [symbols]) hs hst]
      dsimp only
      rw [if_neg Bool.false_ne_true, hredirs _ (Nat.lt_succ_self _), ok_bind, hparse _ (Nat.lt_succ_self _)]
      rfl
    · rw [map_redircmds]
      exact congrArg₂ redircmds (congrArg Cmd.exec hwords) htexts
  | @block cmd rs ts₁ us h hr ih =>
    intro n s ts hs htok hfollow hn
    simp only [calls] at hn
    obtain ⟨n, rfl⟩ : ∃ m, n = m + 2 := ⟨n - 2, by omega⟩
    have hs₀ := nul_of_suffix hs (skip_suffix s)
    have htok₀ : tokens (skip s) = .sym '(' :: (ts₁ ++ .sym ')' :: (us ++ ts)) := by
      rw [tokens_skip hs, htok]
      simp
    obtain ⟨-, -, hpeek, -, -, -, -⟩ := take_sym (by simp [symbols]) rfl hs ((tokens_skip hs).symm.trans htok₀)
    obtain ⟨f, s₁, hpeek₀, hget, htok₁, hsuf₁, hlt⟩ := take_sym (by simp [symbols]) rfl hs₀ htok₀
    have hs₁ := nul_of_suffix hs₀ hsuf₁
    have hle := (skip_suffix s).length_le
    obtain ⟨cmd', s₂, hline, hcmd, htok₂, hsuf₂⟩ := ih (n := n) hs₁ htok₁ (follow_sym (by simp [first, followers])) (by
      simp only [calls]
      omega)
    have hs₂ := nul_of_suffix hs₁ hsuf₂
    obtain ⟨f', s₃, hpeek₂, hget₂, htok₃, hsuf₃, -⟩ := take_sym (by simp [symbols]) rfl hs₂ htok₂
    obtain ⟨rs', s', hredirs, htexts, htok', hsuf'⟩ := redirs_complete hr (nul_of_suffix hs₂ hsuf₃) htok₃
      (hfollow.not_starts (by simp [followers, stops]))
    have hline : parseline n s₁ = .ok (cmd', s₂) := hline
    refine ⟨redircmds cmd' rs', s', ?_, ?_, htok', hsuf'.trans (hsuf₃.trans (hsuf₂.trans (hsuf₁.trans (skip_suffix s))))⟩
    · show parseexec (n + 1 + 1) s = _
      rw [parseexec, hpeek]
      dsimp only
      rw [if_pos rfl, parseblock, hpeek₀]
      dsimp only
      rw [Bool.not_true, if_neg Bool.false_ne_true, hget]
      dsimp only
      rw [hline, ok_bind]
      dsimp only
      rw [hpeek₂]
      dsimp only
      rw [Bool.not_true, if_neg Bool.false_ne_true, hget₂]
      dsimp only
      rw [hredirs _ (Nat.lt_succ_self _)]
      rfl
    · rw [map_redircmds, hcmd]
      exact congrArg _ htexts
  | one h ih =>
    intro n s ts hs htok hfollow hn
    simp only [calls] at hn
    obtain ⟨n, rfl⟩ : ∃ m, n = m + 1 := ⟨n - 1, by omega⟩
    obtain ⟨cmd', s', hexec, hcmd, htok', hsuf⟩ := ih (n := n) hs htok (hfollow.mono (by simp [followers, stops])) (by
      simp only [calls]
      omega)
    have hs' := nul_of_suffix hs hsuf
    have hexec : parseexec n s = .ok (cmd', s') := hexec
    refine ⟨cmd', skip s', ?_, hcmd, (tokens_skip hs').trans htok', (skip_suffix s').trans hsuf⟩
    have hst : starts ['|'] (tokens s') = false := by
      rw [htok']
      exact hfollow.not_starts (by simp [followers])
    show parsepipe (n + 1) s = _
    rw [parsepipe, hexec, ok_bind]
    dsimp only
    rw [peek_none (by simp [symbols]) hs' hst]
    rfl
  | @pipe left right ts₁ us hl hr ihl ihr =>
    intro n s ts hs htok hfollow hn
    simp only [calls] at hn
    obtain ⟨n, rfl⟩ : ∃ m, n = m + 1 := ⟨n - 1, by omega⟩
    rw [List.append_assoc, List.cons_append] at htok
    obtain ⟨left', s₁, hexec, hleft, htok₁, hsuf₁⟩ := ihl (n := n) hs htok (follow_sym (by simp [first, followers, stops])) (by
      simp only [calls]
      omega)
    have hs₁ := nul_of_suffix hs hsuf₁
    have hle := hsuf₁.length_le
    obtain ⟨f, s₂, hpeek, hget, htok₂, hsuf₂, hlt⟩ := take_sym (by simp [symbols]) rfl hs₁ htok₁
    obtain ⟨right', s', hpipe, hright, htok', hsuf'⟩ := ihr (n := n) (nul_of_suffix hs₁ hsuf₂) htok₂ hfollow (by
      simp only [calls]
      omega)
    have hexec : parseexec n s = .ok (left', s₁) := hexec
    have hpipe : parsepipe n s₂ = .ok (right', s') := hpipe
    refine ⟨.pipe left' right', s', ?_, ?_, htok', hsuf'.trans (hsuf₂.trans hsuf₁)⟩
    · show parsepipe (n + 1) s = _
      rw [parsepipe, hexec, ok_bind]
      dsimp only
      rw [hpeek]
      dsimp only
      rw [if_pos rfl, hget]
      dsimp only
      rw [hpipe]
      rfl
    · rw [Cmd.map, hleft, hright]
  | @line cmd us₁ h k ih =>
    intro n s ts hs htok hfollow hn
    simp only [calls] at hn
    obtain ⟨n, rfl⟩ : ∃ m, n = m + 1 := ⟨n - 1, by omega⟩
    rw [List.append_assoc] at htok
    obtain ⟨cmd', s₁, hpipe, hcmd, htok₁, hsuf₁⟩ := ih (n := n) hs htok
      (follow_replicate (hfollow.mono (by simp [followers]))) (by
        simp only [calls]
        omega)
    have hs₁ := nul_of_suffix hs hsuf₁
    obtain ⟨s₂, hbacks, htok₂, hsuf₂⟩ := backs_complete k cmd' hs₁ htok₁ (hfollow.not_starts (by simp [followers]))
      (Nat.lt_succ_self s₁.length)
    have hs₂ := nul_of_suffix hs₁ hsuf₂
    have hpipe : parsepipe n s = .ok (cmd', s₁) := hpipe
    have hst : starts [';'] (tokens s₂) = false := by
      rw [htok₂]
      exact hfollow.not_starts (by simp [followers])
    refine ⟨backcmds k cmd', skip s₂, ?_, ?_, (tokens_skip hs₂).trans htok₂, (skip_suffix s₂).trans (hsuf₂.trans hsuf₁)⟩
    · show parseline (n + 1) s = _
      rw [parseline, hpipe, ok_bind]
      dsimp only
      rw [hbacks]
      dsimp only
      rw [peek_none (by simp [symbols]) hs₂ hst]
      rfl
    · rw [map_backcmds, hcmd]
  | @list left right ts₁ us hl k hr ihl ihr =>
    intro n s ts hs htok hfollow hn
    simp only [calls] at hn
    obtain ⟨n, rfl⟩ : ∃ m, n = m + 1 := ⟨n - 1, by omega⟩
    rw [List.append_assoc, List.append_assoc, List.cons_append] at htok
    obtain ⟨left', s₁, hpipe, hleft, htok₁, hsuf₁⟩ := ihl (n := n) hs htok
      (follow_replicate (follow_sym (by simp [first]))) (by
        simp only [calls]
        omega)
    have hs₁ := nul_of_suffix hs hsuf₁
    obtain ⟨s₂, hbacks, htok₂, hsuf₂⟩ := backs_complete k left' hs₁ htok₁ (by simp [starts, first])
      (Nat.lt_succ_self s₁.length)
    have hs₂ := nul_of_suffix hs₁ hsuf₂
    have hle := (hsuf₂.trans hsuf₁).length_le
    obtain ⟨f, s₃, hpeek, hget, htok₃, hsuf₃, hlt⟩ := take_sym (by simp [symbols]) rfl hs₂ htok₂
    obtain ⟨right', s', hline, hright, htok', hsuf'⟩ := ihr (n := n) (nul_of_suffix hs₂ hsuf₃) htok₃ hfollow (by
      simp only [calls]
      omega)
    have hpipe : parsepipe n s = .ok (left', s₁) := hpipe
    have hline : parseline n s₃ = .ok (right', s') := hline
    refine ⟨.list (backcmds k left') right', s', ?_, ?_, htok', hsuf'.trans (hsuf₃.trans (hsuf₂.trans hsuf₁))⟩
    · show parseline (n + 1) s = _
      rw [parseline, hpipe, ok_bind]
      dsimp only
      rw [hbacks]
      dsimp only
      rw [hpeek]
      dsimp only
      rw [if_pos rfl, hget]
      dsimp only
      rw [hline]
      rfl
    · rw [Cmd.map, map_backcmds, hleft, hright]

/-! ### The passes are enough -/

theorem bind_ne_fuel {α β : Type} {x : Except Fault α} {k : α → Except Fault β} (hx : x ≠ .error .fuel)
    (hk : ∀ a, x = .ok a → k a ≠ .error .fuel) : (x >>= k) ≠ .error .fuel := by
  cases x with
  | ok a => exact hk a rfl
  | error e =>
    intro he
    exact hx (by simpa using he)

theorem parseredirs_fuel : ∀ (n : ℕ) {s : List Char}, NUL ∉ s → s.length < n → parseredirs n s ≠ .error .fuel
  | 0, s, _, hn => by omega
  | n + 1, s, hs, hn => by
    rw [parseredirs, peek_eq hs (by simp [symbols])]
    dsimp only
    cases hst : starts ['<', '>'] (tokens s) with
    | false => simp
    | true =>
      obtain ⟨c, ts, htok, hc⟩ := starts_cons hst
      obtain ⟨f, s₁, g⟩ := gettoken_cons hs htok
      have hs₁ := nul_of_suffix hs g.suffix
      have hlt := g.lt
      have hle := (gettoken_suffix hs₁).length_le
      rw [if_pos rfl, gettoken_skip, g.get]
      dsimp only
      split_ifs with ha
      · simp
      · apply bind_ne_fuel (parseredirs_fuel n (nul_of_suffix hs₁ (gettoken_suffix hs₁)) (by omega))
        intro p _
        split <;> simp

theorem parseargs_fuel : ∀ (n : ℕ) {argc : ℕ} {s : List Char}, NUL ∉ s → s.length < n → parseargs n argc s ≠ .error .fuel
  | 0, _, s, _, hn => by omega
  | n + 1, argc, s, hs, hn => by
    rw [parseargs, peek_eq hs (by simp [symbols])]
    dsimp only
    have hs₀ := nul_of_suffix hs (skip_suffix s)
    have hs₁ := nul_of_suffix hs₀ (gettoken_suffix hs₀)
    have hle := (skip_suffix s).length_le
    split_ifs with hstop hnul ha hmax
    · simp
    · simp
    · simp
    · simp
    · have hlt := gettoken_length hs₀ hnul
      apply bind_ne_fuel (parseredirs_fuel _ hs₁ (Nat.lt_succ_self _))
      intro p hp
      obtain ⟨-, hsuf, -⟩ := parseredirs_sound _ hs₁ hp
      have hle₂ := hsuf.length_le
      apply bind_ne_fuel (parseargs_fuel n (nul_of_suffix hs₁ hsuf) (by omega))
      intro q _
      simp

theorem parse_fuel : ∀ (n : ℕ) {s : List Char}, NUL ∉ s →
    (4 * s.length + 4 ≤ n → parseline n s ≠ .error .fuel) ∧ (4 * s.length + 3 ≤ n → parsepipe n s ≠ .error .fuel) ∧
    (4 * s.length + 2 ≤ n → parseexec n s ≠ .error .fuel) ∧ (4 * s.length + 1 ≤ n → parseblock n s ≠ .error .fuel)
  | 0, s, _ => ⟨fun h => by omega, fun h => by omega, fun h => by omega, fun h => by omega⟩
  | n + 1, s, hs => by
    have ih := fun {s : List Char} => parse_fuel n (s := s)
    refine ⟨fun hn => ?_, fun hn => ?_, fun hn => ?_, fun hn => ?_⟩
    · rw [parseline]
      apply bind_ne_fuel ((ih hs).2.1 (by omega))
      rintro ⟨left, s₁⟩ hleft
      have hsuf := ((parse_sound n).2.1 hs hleft).suffix
      have hs₁ := nul_of_suffix hs hsuf
      dsimp only
      cases hb : parsebacks (s₁.length + 1) left s₁ with
      | mk left' s₂ =>
        obtain ⟨k, -, -, hsuf₁⟩ := parsebacks_sound _ hs₁ hb
        have hs₂ := nul_of_suffix hs₁ hsuf₁
        dsimp only
        rw [peek_eq hs₂ (by simp [symbols])]
        dsimp only
        cases hst : starts [';'] (tokens s₂) with
        | false => simp
        | true =>
          obtain ⟨f, s₃, hget, -, hsuf₂, hlt⟩ := got_sym (by simp) hs₂ hst
          have hle := (hsuf₁.trans hsuf).length_le
          rw [if_pos rfl, gettoken_skip, hget]
          apply bind_ne_fuel ((ih (nul_of_suffix hs₂ hsuf₂)).1 (by omega))
          intro p _
          simp
    · rw [parsepipe]
      apply bind_ne_fuel ((ih hs).2.2.1 (by omega))
      rintro ⟨left, s₁⟩ hleft
      have hsuf := ((parse_sound n).2.2.1 hs hleft).suffix
      have hs₁ := nul_of_suffix hs hsuf
      dsimp only
      rw [peek_eq hs₁ (by simp [symbols])]
      dsimp only
      cases hst : starts ['|'] (tokens s₁) with
      | false => simp
      | true =>
        obtain ⟨f, s₂, hget, -, hsuf₁, hlt⟩ := got_sym (by simp) hs₁ hst
        have hle := hsuf.length_le
        rw [if_pos rfl, gettoken_skip, hget]
        apply bind_ne_fuel ((ih (nul_of_suffix hs₁ hsuf₁)).2.1 (by omega))
        intro p _
        simp
    · have hs₀ := nul_of_suffix hs (skip_suffix s)
      have hle := (skip_suffix s).length_le
      rw [parseexec, peek_eq hs (by simp [symbols])]
      dsimp only
      split_ifs with hst
      · exact (ih hs₀).2.2.2 (by omega)
      · apply bind_ne_fuel (parseredirs_fuel _ hs₀ (Nat.lt_succ_self _))
        intro p hp
        obtain ⟨-, hsuf, -⟩ := parseredirs_sound _ hs₀ hp
        apply bind_ne_fuel (parseargs_fuel _ (nul_of_suffix hs₀ hsuf) (Nat.lt_succ_self _))
        intro q _
        simp
    · rw [parseblock, peek_eq hs (by simp [symbols])]
      dsimp only
      cases hst : starts ['('] (tokens s) with
      | false => simp
      | true =>
        obtain ⟨f, s₁, hget, -, hsuf, hlt⟩ := got_sym (by simp) hs hst
        have hs₁ := nul_of_suffix hs hsuf
        rw [Bool.not_true, if_neg Bool.false_ne_true, gettoken_skip, hget]
        apply bind_ne_fuel ((ih hs₁).1 (by omega))
        rintro ⟨inner, s₂⟩ hline
        have hsuf₁ := ((parse_sound n).1 hs₁ hline).suffix
        have hs₂ := nul_of_suffix hs₁ hsuf₁
        dsimp only
        rw [peek_eq hs₂ (by simp [symbols])]
        dsimp only
        cases hst₂ : starts [')'] (tokens s₂) with
        | false => simp
        | true =>
          obtain ⟨f', s₃, hget₂, -, hsuf₂, -⟩ := got_sym (by simp) hs₂ hst₂
          rw [Bool.not_true, if_neg Bool.false_ne_true, gettoken_skip, hget₂]
          apply bind_ne_fuel (parseredirs_fuel _ (nul_of_suffix hs₂ hsuf₂) (Nat.lt_succ_self _))
          intro p _
          simp

/-! ### The whole line -/

/-- What is left of a line is nothing exactly if there are no tokens in it. -/
theorem skip_nil_iff (hs : NUL ∉ s) : skip s = [] ↔ tokens s = [] := by
  rcases head hs with ⟨h, hget⟩ | ⟨c, q, eq, h, -, ha, hnul, -, hget⟩ | ⟨c, q, h, -, hget⟩
  · exact iff_of_true h (tokens_none hs hget)
  · refine iff_of_false (by rw [h]; exact List.cons_ne_nil _ _) ?_
    rw [tokens_sym hs hget ha hnul]
    exact List.cons_ne_nil _ _
  · refine iff_of_false (by rw [h]; exact List.cons_ne_nil _ _) ?_
    rw [tokens_word hs hget]
    exact List.cons_ne_nil _ _

theorem parsecmd_parsed {cmd : Cmd Slice} (hs : NUL ∉ s) (h : parsecmd s = .ok cmd) :
    Derives .line (cmd.map Slice.text) (tokens s) ∧ ∀ f ∈ cmd.strings, Word s f := by
  obtain ⟨⟨cmd', s'⟩, hline, h⟩ := of_bind_ok h
  obtain ⟨⟨us, htok, hder⟩, hsuf, hwords⟩ := (parse_sound _).1 hs hline
  have hs' := nul_of_suffix hs hsuf
  dsimp only at h
  rw [peek_eq hs' (by simp)] at h
  dsimp only at h
  split_ifs at h with hrest
  cases h
  rw [not_not, skip_nil_iff hs'] at hrest
  rw [hrest, List.append_nil] at htok
  rw [htok]
  exact ⟨hder, hwords⟩

theorem parsecmd_complete {cmd : Cmd (List Char)} (hs : NUL ∉ s) (h : Derives .line cmd (tokens s)) :
    ∃ cmd', parsecmd s = .ok cmd' ∧ cmd'.map Slice.text = cmd := by
  obtain ⟨cmd', s', hline, hcmd, htok, hsuf⟩ := parse_complete h hs (List.append_nil _).symm (Or.inl rfl) (Nat.le_refl _)
  have hs' := nul_of_suffix hs hsuf
  refine ⟨cmd', ?_, hcmd⟩
  have hline : parseline (4 * s.length + 4) s = .ok (cmd', s') := hline
  unfold parsecmd
  rw [hline, ok_bind]
  dsimp only
  rw [peek_eq hs' (by simp)]
  dsimp only
  rw [(skip_nil_iff hs').mpr htok, if_neg (by simp)]

/-- **The parser is the grammar.** `parsecmd` accepts a line exactly if the grammar has its tokens, with the command that the grammar
has for them, and it always comes to an end. -/
theorem parsecmd_iff (hs : NUL ∉ s) : parsecmd s ≠ .error .fuel ∧
    ∀ cmd, (∃ cmd', parsecmd s = .ok cmd' ∧ cmd'.map Slice.text = cmd) ↔ Derives .line cmd (tokens s) := by
  refine ⟨?_, fun cmd => ⟨?_, parsecmd_complete hs⟩⟩
  · apply bind_ne_fuel ((parse_fuel _ hs).1 (Nat.le_refl _))
    intro p _
    dsimp only
    split_ifs <;> simp
  · rintro ⟨cmd', h, rfl⟩
    exact (parsecmd_parsed hs h).1

theorem parsecmd_iff_ls : parsecmd "ls>f".toList ≠ .error .fuel ∧
    ∀ cmd, (∃ cmd', parsecmd "ls>f".toList = .ok cmd' ∧ cmd'.map Slice.text = cmd) ↔ Derives .line cmd (tokens "ls>f".toList) :=
  parsecmd_iff (by decide)

end Shell
end Xv6
end OsLabs
