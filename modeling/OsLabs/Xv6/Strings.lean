/-
# The strings of a command

The parser keeps where each word of a command begins and ends. `nulterminate` then writes a NUL to each end, over whatever is there: a
blank, or the operator that follows without one. No end lies in another word, so that the strings `runcmd` finds in the line are
the words of the command (`nulterminate_derives`). And each command that the grammar has can be typed (`parsecmd_render`).

Key definition: `render`.
Key theorems: `nulterminate_derives`, `parsecmd_render`.
-/
import OsLabs.Xv6.Parser

namespace OsLabs
namespace Xv6
namespace Shell

variable {s whole buf : List Char} {f : Slice} {t : Tok} {ts : List Tok}

/-! ### What `nulterminate` writes -/

theorem nulterminate_eq (whole : List Char) : ∀ (cmd : Cmd Slice) (buf : List Char),
    nulterminate whole cmd buf = cmd.strings.foldl (fun buf f => putNul whole f.eq buf) buf
  | .exec argv, buf => rfl
  | .redir cmd r, buf => by
    rw [nulterminate, nulterminate_eq whole cmd, Cmd.strings, List.foldl_append]
    rfl
  | .pipe left right, buf => by
    rw [nulterminate, nulterminate_eq whole left, nulterminate_eq whole right, Cmd.strings, List.foldl_append]
  | .list left right, buf => by
    rw [nulterminate, nulterminate_eq whole left, nulterminate_eq whole right, Cmd.strings, List.foldl_append]
  | .back cmd, buf => by rw [nulterminate, nulterminate_eq whole cmd, Cmd.strings]

/-- The characters at which no string ends stay. -/
theorem getElem?_putNuls_of_ne {k : ℕ} : ∀ {fs : List Slice} {buf : List Char}, (∀ f ∈ fs, offset whole f.eq ≠ k) →
    (fs.foldl (fun buf f => putNul whole f.eq buf) buf)[k]? = buf[k]?
  | [], _, _ => rfl
  | f :: fs, buf, h => by
    rw [List.foldl_cons, getElem?_putNuls_of_ne fun g hg => h g (List.mem_cons_of_mem _ hg)]
    exact List.getElem?_set_ne (h f List.mem_cons_self)

/-- A NUL stays one. -/
theorem getElem?_putNuls_nul {k : ℕ} : ∀ {fs : List Slice} {buf : List Char}, (∀ c ∈ buf[k]?, c = NUL) →
    ∀ c ∈ (fs.foldl (fun buf f => putNul whole f.eq buf) buf)[k]?, c = NUL
  | [], _, h => h
  | f :: fs, buf, h => by
    rw [List.foldl_cons]
    apply getElem?_putNuls_nul
    intro c hc
    by_cases hk : offset whole f.eq = k
    · unfold putNul at hc
      rw [hk, List.getElem?_set_self'] at hc
      cases hb : buf[k]? with
      | none => simp [hb] at hc
      | some d => simpa [hb, eq_comm] using hc
    · unfold putNul at hc
      rw [List.getElem?_set_ne hk] at hc
      exact h c hc

/-- Where a string ends there is a NUL. -/
theorem getElem?_putNuls_end : ∀ {fs : List Slice} {buf : List Char}, f ∈ fs →
    ∀ c ∈ (fs.foldl (fun buf f => putNul whole f.eq buf) buf)[offset whole f.eq]?, c = NUL
  | g :: fs, buf, h => by
    rcases List.mem_cons.mp h with rfl | h
    · rw [List.foldl_cons]
      apply getElem?_putNuls_nul
      intro c hc
      unfold putNul at hc
      rw [List.getElem?_set_self'] at hc
      cases hb : buf[offset whole f.eq]? with
      | none => simp [hb] at hc
      | some d => simpa [hb, eq_comm] using hc
    · rw [List.foldl_cons]
      exact getElem?_putNuls_end h

theorem getElem?_suffix {q : List Char} (h : q <:+ whole) (k : ℕ) : whole[offset whole q + k]? = q[k]? := by
  obtain ⟨p, rfl⟩ := h
  unfold offset
  rw [List.length_append, Nat.add_sub_cancel, List.getElem?_append_right (Nat.le_add_right _ _), Nat.add_sub_cancel_left]

theorem Word.offset_eq (h : Word whole f) : offset whole f.eq = offset whole f.q + f.text.length := by
  have hlen := congrArg List.length h.split
  have hle := h.inside.length_le
  rw [List.length_append] at hlen
  unfold offset
  omega

theorem Word.getElem?_text (h : Word whole f) {k : ℕ} (hk : k < f.text.length) : whole[offset whole f.q + k]? = f.text[k]? := by
  rw [getElem?_suffix h.inside]
  have hsplit := h.split
  rw [hsplit, List.getElem?_append_left hk]

/-- No string ends inside another one. -/
theorem Word.end_ne {g : Slice} (hf : Word whole f) (hg : Word whole g) {k : ℕ} (hk : k < f.text.length) :
    offset whole g.eq ≠ offset whole f.q + k := by
  intro he
  have hsuf : g.eq <:+ whole := by
    have := hg.split
    exact List.IsSuffix.trans ⟨g.text, this.symm⟩ hg.inside
  have h1 := getElem?_suffix hsuf 0
  rw [Nat.add_zero, he, hf.getElem?_text hk, List.getElem?_eq_getElem hk] at h1
  have hstop := hg.stop f.text[k] (by rw [List.head?_eq_getElem?]; exact h1.symm)
  rw [hf.word _ (List.getElem_mem hk)] at hstop
  cases hstop

/-- The string at a word of the line, when its end has a NUL and its characters are untouched. -/
theorem readString_eq (hf : Word whole f) (hnul : NUL ∉ whole) (hsame : ∀ k < f.text.length, buf[offset whole f.q + k]? = whole[offset whole f.q + k]?)
    (hend : ∀ c ∈ buf[offset whole f.eq]?, c = NUL) : readString whole buf f = f.text := by
  have hsplit : buf.drop (offset whole f.q) = f.text ++ buf.drop (offset whole f.eq) := by
    apply List.ext_getElem?
    intro k
    rw [List.getElem?_drop]
    by_cases hk : k < f.text.length
    · rw [hsame k hk, List.getElem?_append_left hk, hf.getElem?_text hk]
    · rw [List.getElem?_append_right (by omega), List.getElem?_drop, hf.offset_eq]
      congr 1
      omega
  have hword : ∀ c ∈ f.text, decide (c ≠ NUL) = true := fun c hc => by
    rw [decide_eq_true_eq]
    rintro rfl
    have hq : NUL ∈ f.q := by
      have := hf.split
      rw [this]
      exact List.mem_append_left _ hc
    exact hnul (hf.inside.subset hq)
  unfold readString
  rw [hsplit, List.takeWhile_append_of_pos hword]
  cases hrest : buf.drop (offset whole f.eq) with
  | nil => simp
  | cons c r =>
    have hc : c = NUL := by
      apply hend
      rw [← Nat.add_zero (offset whole f.eq), ← List.getElem?_drop, hrest]
      rfl
    simp [hc]

theorem readString_nulterminate {cmd : Cmd Slice} (hs : NUL ∉ s) (h : parsecmd s = .ok cmd) (hf : f ∈ cmd.strings) :
    readString s (nulterminate s cmd s) f = f.text := by
  have hwords := (parsecmd_parsed hs h).2
  rw [nulterminate_eq]
  apply readString_eq (hwords f hf) hs
  · intro k hk
    exact getElem?_putNuls_of_ne fun g hg => (hwords f hf).end_ne (hwords g hg) hk
  · exact getElem?_putNuls_end hf

theorem map_congr_strings {S T : Type} {g g' : S → T} : ∀ {cmd : Cmd S}, (∀ f ∈ cmd.strings, g f = g' f) → cmd.map g = cmd.map g'
  | .exec argv, h => congrArg Cmd.exec (List.map_congr_left h)
  | .redir cmd r, h => by
    rw [Cmd.map, Cmd.map, map_congr_strings fun f hf => h f (List.mem_append_left _ hf),
      h r.file (List.mem_append_right _ (List.mem_singleton_self _))]
  | .pipe left right, h => by
    rw [Cmd.map, Cmd.map, map_congr_strings fun f hf => h f (List.mem_append_left _ hf),
      map_congr_strings fun f hf => h f (List.mem_append_right _ hf)]
  | .list left right, h => by
    rw [Cmd.map, Cmd.map, map_congr_strings fun f hf => h f (List.mem_append_left _ hf),
      map_congr_strings fun f hf => h f (List.mem_append_right _ hf)]
  | .back cmd, h => congrArg Cmd.back (map_congr_strings h)

/-- **What runs is what was typed.** The command that `runcmd` finds, its strings read from the line after `nulterminate`, is the one that
the grammar has for the line. -/
theorem nulterminate_derives {cmd : Cmd Slice} (hs : NUL ∉ s) (h : parsecmd s = .ok cmd) :
    Derives .line (cmd.map (readString s (nulterminate s cmd s))) (tokens s) := by
  rw [map_congr_strings fun f hf => readString_nulterminate hs h hf]
  exact (parsecmd_parsed hs h).1

theorem nulterminate_derives_ls : Derives .line (Cmd.map (readString "ls>f".toList "ls\x00f".toList)
    (.redir (.exec [⟨"ls>f".toList, ">f".toList⟩]) ⟨⟨"f".toList, []⟩, 0x201, 1⟩)) (tokens "ls>f".toList) :=
  nulterminate_derives (by decide)
    (show parsecmd "ls>f".toList = .ok (.redir (.exec [⟨"ls>f".toList, ">f".toList⟩]) ⟨⟨"f".toList, []⟩, 0x201, 1⟩) by decide +kernel)

/-! ### Every command can be typed -/

/-- A token and a blank. -/
def renderTok : Tok → List Char
  | .sym c => (if c = '+' then ['>', '>'] else [c]) ++ [' ']
  | .word w => w ++ [' ']

def render (ts : List Tok) : List Char := ts.flatMap renderTok

/-- What `gettoken` can return. -/
def Tok.Valid : Tok → Prop
  | .sym c => c ∈ ['|', '(', ')', ';', '&', '<', '>', '+']
  | .word w => w ≠ [] ∧ ∀ c ∈ w, isWord c = true ∧ c ≠ NUL

theorem skip_cons {c : Char} (hc : isBlank c = false) (s : List Char) : skip (c :: s) = c :: s :=
  List.dropWhile_cons_of_neg (by simp [hc])

theorem skip_blank (s : List Char) : skip (' ' :: s) = skip s := List.dropWhile_cons_of_pos (by decide)

theorem nul_render_tok (h : t.Valid) : NUL ∉ renderTok t := by
  cases t with
  | sym c =>
    simp only [Tok.Valid, List.mem_cons, List.not_mem_nil, or_false] at h
    rcases h with rfl | rfl | rfl | rfl | rfl | rfl | rfl | rfl <;> simp [renderTok, NUL]
  | word w =>
    intro hm
    rcases List.mem_append.mp hm with hm | hm
    · exact (h.2 _ hm).2 rfl
    · simp [NUL] at hm

theorem nul_render (h : ∀ t ∈ ts, t.Valid) : NUL ∉ render ts := by
  intro hm
  obtain ⟨t, ht, hm⟩ := List.mem_flatMap.mp hm
  exact nul_render_tok (h t ht) hm

/-- The first token of a line that starts with it. -/
theorem gettoken_render (h : t.Valid) (s : List Char) :
    tokOf (gettoken (renderTok t ++ s)).1 (gettoken (renderTok t ++ s)).2.1 = t ∧ (gettoken (renderTok t ++ s)).1 ≠ NUL ∧
      (gettoken (renderTok t ++ s)).2.2 = skip s := by
  cases t with
  | sym c =>
    simp only [Tok.Valid, List.mem_cons, List.not_mem_nil, or_false] at h
    rcases h with rfl | rfl | rfl | rfl | rfl | rfl | rfl | rfl <;>
      simp [renderTok, gettoken, skip_cons, isBlank, whitespace, token, NUL, tokOf, skip_blank]
  | word w =>
    obtain ⟨hne, hw⟩ := h
    obtain ⟨c, w, rfl⟩ := List.exists_cons_of_ne_nil hne
    obtain ⟨hc, hnul⟩ := hw c List.mem_cons_self
    have hblank : isBlank c = false := by
      simp only [isWord, Bool.and_eq_true, Bool.not_eq_true'] at hc
      exact hc.1
    have hsym : c ∉ symbols := by
      simp only [isWord, Bool.and_eq_true, decide_eq_true_eq] at hc
      exact hc.2
    simp only [symbols, List.mem_cons, List.not_mem_nil, or_false, not_or] at hsym
    have hrest : ((c :: w) ++ ' ' :: s).dropWhile isWord = ' ' :: s := by
      rw [List.dropWhile_append_of_pos fun d hd => (hw d hd).1, List.dropWhile_cons_of_neg (by decide)]
    have hget : gettoken (renderTok (.word (c :: w)) ++ s) = ('a', ⟨(c :: w) ++ ' ' :: s, ' ' :: s⟩, skip s) := by
      have hq : skip (renderTok (.word (c :: w)) ++ s) = (c :: w) ++ ' ' :: s := by
        rw [renderTok, List.append_assoc, List.singleton_append]
        exact skip_cons hblank _
      unfold gettoken
      simp only [hq, List.cons_append, token, if_neg hnul]
      rw [if_neg (by simp [hsym]), if_neg hsym.2.2.1]
      rw [List.cons_append] at hrest
      rw [hrest, skip_blank]
    rw [hget]
    refine ⟨?_, by simp [NUL], rfl⟩
    show Tok.word _ = _
    rw [text_append]

/-- A line that has been rendered has the tokens again. -/
theorem tokens_render : ∀ {ts : List Tok}, (∀ t ∈ ts, t.Valid) → tokens (render ts) = ts
  | [], _ => rfl
  | t :: ts, h => by
    have hrest : ∀ u ∈ ts, u.Valid := fun u hu => h u (List.mem_cons_of_mem _ hu)
    obtain ⟨htok, hnul, hs⟩ := gettoken_render (h t List.mem_cons_self) (render ts)
    rw [tokens_eq (nul_render h)]
    show (if (gettoken (renderTok t ++ render ts)).1 = NUL then [] else
      tokOf (gettoken (renderTok t ++ render ts)).1 (gettoken (renderTok t ++ render ts)).2.1 ::
        tokens (gettoken (renderTok t ++ render ts)).2.2) = _
    rw [if_neg hnul, htok, hs, tokens_skip (nul_render hrest), tokens_render hrest]

theorem redirOf_valid {c : Char} {mode fd : ℕ} (h : redirOf c = some (mode, fd)) : (Tok.sym c).Valid := by
  unfold redirOf at h
  split_ifs at h with h1 h2 h3 <;> simp [Tok.Valid, *]

theorem Redirs.valid {rs : List (Redir (List Char))} (h : Redirs rs ts) : ∀ c, .sym c ∈ ts → (Tok.sym c).Valid := by
  induction h with
  | nil => simp
  | cons hc _ ih =>
    intro c hm
    simp only [List.mem_cons, Tok.sym.injEq, reduceCtorEq, false_or] at hm
    rcases hm with rfl | hm
    · exact redirOf_valid hc
    · exact ih c hm

theorem Args.valid {ws : List (List Char)} {rs : List (Redir (List Char))} (h : Args ws rs ts) :
    ∀ c, .sym c ∈ ts → (Tok.sym c).Valid := by
  induction h with
  | nil => simp
  | word _ ih =>
    intro c hm
    simp only [List.mem_cons, reduceCtorEq, false_or] at hm
    exact ih c hm
  | redir hc _ ih =>
    intro c hm
    simp only [List.mem_cons, Tok.sym.injEq, reduceCtorEq, false_or] at hm
    rcases hm with rfl | hm
    · exact redirOf_valid hc
    · exact ih c hm

/-- The grammar uses the operators only. -/
theorem Derives.valid {cat : Cat} {cmd : Cmd (List Char)} (h : Derives cat cmd ts) : ∀ c, .sym c ∈ ts → (Tok.sym c).Valid := by
  induction h with
  | simple h _ => exact h.valid
  | block _ hr ih =>
    intro c hm
    simp only [List.mem_cons, List.mem_append, Tok.sym.injEq] at hm
    rcases hm with rfl | hm | rfl | hm
    · simp [Tok.Valid]
    · exact ih c hm
    · simp [Tok.Valid]
    · exact hr.valid c hm
  | one _ ih => exact ih
  | pipe _ _ ihl ihr =>
    intro c hm
    simp only [List.mem_cons, List.mem_append, Tok.sym.injEq] at hm
    rcases hm with hm | rfl | hm
    · exact ihl c hm
    · simp [Tok.Valid]
    · exact ihr c hm
  | line _ n ih =>
    intro c hm
    simp only [List.mem_append, List.mem_replicate, Tok.sym.injEq] at hm
    rcases hm with hm | ⟨-, rfl⟩
    · exact ih c hm
    · simp [Tok.Valid]
  | list _ n _ ihl ihr =>
    intro c hm
    simp only [List.mem_cons, List.mem_append, List.mem_replicate, Tok.sym.injEq] at hm
    rcases hm with hm | ⟨-, rfl⟩ | rfl | hm
    · exact ihl c hm
    · simp [Tok.Valid]
    · simp [Tok.Valid]
    · exact ihr c hm

/-- **The round trip.** A command of the grammar, written with its tokens one after the other, is parsed to itself. -/
theorem parsecmd_render {cmd : Cmd (List Char)} (h : Derives .line cmd ts)
    (hwords : ∀ w, .word w ∈ ts → w ≠ [] ∧ ∀ c ∈ w, isWord c = true ∧ c ≠ NUL) :
    ∃ cmd', parsecmd (render ts) = .ok cmd' ∧
      cmd'.map (readString (render ts) (nulterminate (render ts) cmd' (render ts))) = cmd := by
  have hvalid : ∀ t ∈ ts, t.Valid := fun t ht => by
    cases t with
    | sym c => exact h.valid c ht
    | word w => exact hwords w ht
  have hs := nul_render hvalid
  rw [← tokens_render hvalid] at h
  obtain ⟨cmd', hparse, hcmd⟩ := parsecmd_complete hs h
  refine ⟨cmd', hparse, ?_⟩
  rw [map_congr_strings fun f hf => readString_nulterminate hs hparse hf, hcmd]

theorem parsecmd_render_ls : ∃ cmd', parsecmd "ls ; ".toList = .ok cmd' ∧
    cmd'.map (readString "ls ; ".toList (nulterminate "ls ; ".toList cmd' "ls ; ".toList)) = .list (.exec ["ls".toList]) (.exec []) :=
  @parsecmd_render [.word "ls".toList, .sym ';'] _
    (.list (.one (.simple (.word .nil) (by decide))) 0 (.line (.one (.simple .nil (by decide))) 0)) (by
      intro w hw
      obtain rfl : w = ['l', 's'] := by simpa using hw
      simp [isWord, isBlank, whitespace, symbols, NUL])

end Shell
end Xv6
end OsLabs
