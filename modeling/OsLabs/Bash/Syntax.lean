/-
# The syntax of a pipeline

`Exec` of `pipe/bash.h` up to its launch loop: `SplitInCommands` finds the first token of every
command, and the validators look at the redirects of each. A pointer to a token is the list of the
tokens from there on, the null pointer the empty list.

The line is cut at its pipes into runs (`runs`), and what must not stand in them is `Malformed`.
`exec_eq` says that `Exec` finds exactly these faults, and otherwise the first tokens of the runs
(`starts`).

Key definitions: `splitInCommands`, `validateCommandSyntax`, `exec`, `Malformed`.
-/
import OsLabs.Bash.Tokenizer
import OsLabs.Lib.Except

namespace OsLabs
namespace Bash

inductive Fault
  /-- A null pointer is followed. -/
  | null
  /-- A store past the end of an array. -/
  | bounds
  | assertion
  deriving DecidableEq, Repr

/-- A run stops at a fault, and at an event that cannot come. -/
inductive Stop
  | fault (f : Fault)
  | refused
  deriving DecidableEq, Repr

/-- `xs[i] = x`. -/
def assign {α : Type} (xs : List α) (i : ℕ) (x : α) : Except Fault (List α) :=
  if i < xs.length then .ok (xs.set i x) else .error .bounds

def isCommandEnd : List Token → Bool
  | [] => true
  | t :: _ => t.type = .pipe

namespace Pipe

/-- The counting loop of `SplitInCommands`. -/
def countCommands : List Token → ℕ → ℕ
  | [], cnt => cnt
  | t :: rest, cnt => countCommands rest (if t.type = .pipe then cnt + 1 else cnt)

/-- Its splitting loop; `none` is a syntax error. -/
def splitLoop : List Token → ℕ → List (List Token) → Except Fault (Option (List (List Token)))
  | [], _, commands => .ok (some commands)
  | t :: rest, idx, commands =>
    match t.type with
    | .pipe =>
      if isCommandEnd rest then .ok none
      else do
        let commands ← assign commands (idx + 1) rest
        splitLoop rest (idx + 1) commands
    | _ => splitLoop rest idx commands

/-- The commands, and `commands_cnt`. -/
def splitInCommands (tokenizer : Tokenizer) : Except Fault (Option (List (List Token)) × ℕ) := do
  let cnt := countCommands tokenizer.head 1
  let commands := List.replicate cnt []
  match tokenizer.head with
  | [] => .error .null
  | t :: _ =>
    if t.type = .pipe then .ok (none, cnt)
    else
      let commands ← assign commands 0 tokenizer.head
      let commands ← splitLoop tokenizer.head 0 commands
      return (commands, cnt)

/-- At a redirect before `next`: the new `syntax_error` and `token_changed`. -/
def validateIOSyntax (next : List Token) (syntaxError tokenChanged hasPermission : Bool) : Bool × Bool :=
  (if !hasPermission || tokenChanged || (match next with | [] => true | u :: _ => u.type ≠ .word) then true
    else syntaxError, true)

/-- The loop of `ValidateCommandSyntax`, with its flags `in_changed` and `out_changed`. -/
def validateLoop (first last : Bool) : List Token → Bool → Bool → Bool → Bool
  | [], _, _, syntaxError => syntaxError
  | t :: rest, inChanged, outChanged, syntaxError =>
    if t.type = .pipe || syntaxError then syntaxError
    else
      match t.type with
      | .infile =>
        let (syntaxError, inChanged) := validateIOSyntax rest syntaxError inChanged first
        validateLoop first last rest inChanged outChanged syntaxError
      | .outfile =>
        let (syntaxError, outChanged) := validateIOSyntax rest syntaxError outChanged last
        validateLoop first last rest inChanged outChanged syntaxError
      | _ => validateLoop first last rest inChanged outChanged syntaxError

def validateCommandSyntax (command : List Token) (syntaxError first last : Bool) : Bool :=
  validateLoop first last command false false syntaxError

/-- The loop of `Exec` over the commands from the `i`-th on. -/
def validateCommands (cnt : ℕ) : ℕ → List (List Token) → Bool → Except Fault Bool
  | _, [], syntaxError => .ok syntaxError
  | i, command :: rest, syntaxError =>
    if syntaxError then .ok syntaxError
    else if command = [] then .error .assertion
    else validateCommands cnt (i + 1) rest (validateCommandSyntax command syntaxError (i == 0) (i == cnt - 1))

/-- How `Exec` ends before it launches anything, or that it launches these commands. -/
inductive Outcome
  | nothing
  | syntaxError
  | launch (commands : List (List Token)) (cnt : ℕ)
  deriving DecidableEq, Repr

def exec (tokenizer : Tokenizer) : Except Fault Outcome := do
  if tokenizer.tokenCount = 0 then return .nothing
  match ← splitInCommands tokenizer with
  | (none, _) => return .syntaxError
  | (some commands, cnt) =>
    if ← validateCommands cnt 0 commands false then return .syntaxError
    if commands.headD [] = [] || commands.getLastD [] = [] then .error .assertion
    else return .launch commands cnt

end Pipe

/-! ### Runs -/

/-- The tokens between the pipes. -/
def runs (tokens : List Token) : List (List Token) := tokens.splitOnP fun t => t.type = .pipe

/-- What is behind each pipe. -/
def afterPipes : List Token → List (List Token)
  | [] => []
  | t :: rest => if t.type = .pipe then rest :: afterPipes rest else afterPipes rest

/-- Where the runs start. -/
def starts (tokens : List Token) : List (List Token) := tokens :: afterPipes tokens

/-- The run that starts here. -/
def runOf (command : List Token) : List Token := command.takeWhile fun t => t.type ≠ .pipe

def Token.Redirects (t : Token) : Prop := t.type = .infile ∨ t.type = .outfile

def StartsWithWord : List Token → Prop
  | [] => False
  | t :: _ => t.type = .word

/-- What must not stand in a line. -/
inductive Malformed (runs : List (List Token)) : Prop
  | empty : [] ∈ runs → Malformed runs
  | target {run pre post : List Token} {t : Token} : run ∈ runs → run = pre ++ t :: post → t.Redirects →
      ¬ StartsWithWord post → Malformed runs
  | twice {run : List Token} {type : TokenType} : run ∈ runs → type = .infile ∨ type = .outfile →
      2 ≤ run.countP (·.type = type) → Malformed runs
  | infile {i : ℕ} {run : List Token} : runs[i]? = some run → i ≠ 0 → (∃ t ∈ run, t.type = .infile) → Malformed runs
  | outfile {i : ℕ} {run : List Token} : runs[i]? = some run → i + 1 ≠ runs.length → (∃ t ∈ run, t.type = .outfile) →
      Malformed runs

theorem splitOnP_starts : ∀ tokens, runs tokens = (starts tokens).map runOf
  | [] => rfl
  | t :: rest => by
    have ih := splitOnP_starts rest
    unfold runs at ih ⊢
    rw [List.splitOnP_cons_eq_if_modifyHead, ih]
    by_cases ht : t.type = .pipe
    · simp [starts, afterPipes, runOf, ht]
    · simp [starts, afterPipes, runOf, ht]

/-- A start points into the line. -/
theorem suffix_of_afterPipes : ∀ (tokens : List Token), ∀ command ∈ afterPipes tokens, command <:+ tokens
  | [], _, h => absurd h List.not_mem_nil
  | t :: rest, command, h => by
    unfold afterPipes at h
    split_ifs at h
    · rcases List.mem_cons.mp h with rfl | h
      · exact List.suffix_cons t _
      · exact (suffix_of_afterPipes rest command h).trans (List.suffix_cons t rest)
    · exact (suffix_of_afterPipes rest command h).trans (List.suffix_cons t rest)

theorem runOf_eq_nil {command : List Token} : runOf command = [] ↔ isCommandEnd command = true := by
  cases command with
  | nil => simp [runOf, isCommandEnd]
  | cons t rest => simp [runOf, isCommandEnd, List.takeWhile_cons]

/-! ### The splitting loops -/

namespace Pipe

theorem countCommands_eq : ∀ (tokens : List Token) (cnt : ℕ), countCommands tokens cnt = cnt + (afterPipes tokens).length
  | [], _ => rfl
  | t :: rest, cnt => by
    by_cases ht : t.type = .pipe
    · simp only [countCommands, afterPipes, ht, if_true, countCommands_eq rest, List.length_cons]
      omega
    · simp only [countCommands, afterPipes, ht, if_false, countCommands_eq rest]

/-- The slots behind `done` are still null. -/
theorem splitLoop_eq : ∀ (tokens : List Token) (idx : ℕ) (done : List (List Token)), done.length = idx + 1 →
    splitLoop tokens idx (done ++ List.replicate (afterPipes tokens).length []) =
      .ok (if (afterPipes tokens).any isCommandEnd then none else some (done ++ afterPipes tokens))
  | [], _, done, _ => by simp [splitLoop, afterPipes]
  | t :: rest, idx, done, hlen => by
    by_cases ht : t.type = .pipe
    · by_cases hend : isCommandEnd rest = true
      · simp [splitLoop, afterPipes, ht, hend]
      · have hassign : assign (done ++ List.replicate ((afterPipes rest).length + 1) []) (idx + 1) rest =
            .ok ((done ++ [rest]) ++ List.replicate (afterPipes rest).length []) := by
          unfold assign
          rw [if_pos (by simp; omega), List.set_append_right _ _ (by omega), hlen, Nat.sub_self, List.replicate_succ,
            List.set_cons_zero, List.append_assoc, List.singleton_append]
        have ih := splitLoop_eq rest (idx + 1) (done ++ [rest]) (by simp [hlen])
        have hend : isCommandEnd rest = false := Bool.eq_false_iff.mpr hend
        simp only [splitLoop, afterPipes, ht, if_true, hend, Bool.false_eq_true, if_false, List.length_cons, hassign]
        show splitLoop rest (idx + 1) ((done ++ [rest]) ++ List.replicate (afterPipes rest).length []) = _
        rw [ih]
        simp [hend]
    · have ih := splitLoop_eq rest idx done hlen
      simp only [afterPipes, ht, if_false]
      rw [← ih]
      cases htype : t.type with
      | pipe => exact absurd htype ht
      | _ => simp only [splitLoop, htype]

/-- `SplitInCommands` finds the starts of the runs, or that one is empty. -/
theorem splitInCommands_eq {tokenizer : Tokenizer} (hne : tokenizer.head ≠ []) : splitInCommands tokenizer =
    .ok (if (starts tokenizer.head).any isCommandEnd then none else some (starts tokenizer.head),
      (starts tokenizer.head).length) := by
  obtain ⟨n, tokens⟩ := tokenizer
  cases tokens with
  | nil => exact absurd rfl hne
  | cons t rest =>
    have hcnt : countCommands (t :: rest) 1 = (afterPipes (t :: rest)).length + 1 := by
      rw [countCommands_eq, Nat.add_comm]
    have hloop := splitLoop_eq (t :: rest) 0 [t :: rest] rfl
    by_cases ht : t.type = .pipe
    · simp [splitInCommands, hcnt, starts, isCommandEnd, ht]
    · have hassign : assign (List.replicate ((afterPipes (t :: rest)).length + 1) []) 0 (t :: rest) =
          .ok ([t :: rest] ++ List.replicate (afterPipes (t :: rest)).length []) := by
        unfold assign
        rw [if_pos (by simp), List.replicate_succ]
        rfl
      unfold splitInCommands
      simp only [ht, if_false, hcnt, hassign]
      show (splitLoop (t :: rest) 0 ([t :: rest] ++ List.replicate (afterPipes (t :: rest)).length []) >>= fun commands =>
        .ok (commands, (afterPipes (t :: rest)).length + 1)) = _
      rw [hloop]
      simp [starts, isCommandEnd, ht]

end Pipe

/-! ### The validators -/

section

variable {t : Token} {rest run : List Token}

/-- Some redirect has no target. -/
def Untargeted (run : List Token) : Prop :=
  ∃ pre t post, run = pre ++ t :: post ∧ t.Redirects ∧ ¬ StartsWithWord post

theorem untargeted_cons : Untargeted (t :: rest) ↔ t.Redirects ∧ ¬ StartsWithWord rest ∨ Untargeted rest := by
  constructor
  · rintro ⟨pre, u, post, heq, hu, hpost⟩
    cases pre with
    | nil =>
      cases heq
      exact Or.inl ⟨hu, hpost⟩
    | cons v pre =>
      cases heq
      exact Or.inr ⟨pre, u, post, rfl, hu, hpost⟩
  · rintro (⟨ht, hrest⟩ | ⟨pre, u, post, rfl, hu, hpost⟩)
    · exact ⟨[], t, rest, rfl, ht, hrest⟩
    · exact ⟨t :: pre, u, post, rfl, hu, hpost⟩

theorem not_untargeted_nil : ¬ Untargeted [] := by
  rintro ⟨pre, t, post, heq, -⟩
  exact absurd heq (by simp)

/-- How many redirects of a kind may still come. -/
def allowance (hasPermission changed : Bool) : ℕ := if hasPermission && !changed then 1 else 0

def countIn (run : List Token) : ℕ := run.countP (·.type = .infile)

def countOut (run : List Token) : ℕ := run.countP (·.type = .outfile)

/-- What the validator refuses in a run, with its two flags. -/
def Refused (first last inChanged outChanged : Bool) (run : List Token) : Prop :=
  Untargeted run ∨ allowance first inChanged < countIn run ∨ allowance last outChanged < countOut run

theorem runOf_pipe (ht : t.type = .pipe) : runOf (t :: rest) = [] := by
  simp [runOf, ht]

theorem runOf_cons (ht : t.type ≠ .pipe) : runOf (t :: rest) = t :: runOf rest := by
  simp [runOf, ht]

theorem startsWithWord_runOf : StartsWithWord (runOf rest) ↔ StartsWithWord rest := by
  cases rest with
  | nil => rfl
  | cons u rest =>
    by_cases hu : u.type = .pipe
    · rw [runOf_pipe hu]
      simp [StartsWithWord, hu]
    · rw [runOf_cons hu]
      rfl

section

variable {first last inChanged outChanged : Bool}

theorem allowance_lt_succ (p c : Bool) (n : ℕ) : allowance p c < n + 1 ↔ allowance p c = 0 ∨ allowance p true < n := by
  cases p <;> cases c <;> simp [allowance]

theorem refused_word (ht : t.type = .word) :
    Refused first last inChanged outChanged (t :: run) ↔ Refused first last inChanged outChanged run := by
  simp [Refused, untargeted_cons, Token.Redirects, countIn, countOut, ht]

theorem refused_infile (ht : t.type = .infile) : Refused first last inChanged outChanged (t :: run) ↔
    (allowance first inChanged = 0 ∨ ¬ StartsWithWord run) ∨ Refused first last true outChanged run := by
  have hin : countIn (t :: run) = countIn run + 1 := by simp [countIn, ht]
  have hout : countOut (t :: run) = countOut run := by simp [countOut, ht]
  have hred : t.Redirects := Or.inl ht
  unfold Refused
  rw [untargeted_cons, hin, hout, allowance_lt_succ]
  tauto

theorem refused_outfile (ht : t.type = .outfile) : Refused first last inChanged outChanged (t :: run) ↔
    (allowance last outChanged = 0 ∨ ¬ StartsWithWord run) ∨ Refused first last inChanged true run := by
  have hin : countIn (t :: run) = countIn run := by simp [countIn, ht]
  have hout : countOut (t :: run) = countOut run + 1 := by simp [countOut, ht]
  have hred : t.Redirects := Or.inr ht
  unfold Refused
  rw [untargeted_cons, hin, hout, allowance_lt_succ]
  tauto

end

namespace Pipe

theorem validateIOSyntax_fst {syntaxError changed hasPermission : Bool} :
    (validateIOSyntax rest syntaxError changed hasPermission).1 = true ↔
      syntaxError = true ∨ allowance hasPermission changed = 0 ∨ ¬ StartsWithWord rest := by
  cases rest with
  | nil => simp [validateIOSyntax, StartsWithWord]
  | cons u rest =>
    cases syntaxError <;> cases changed <;> cases hasPermission <;> simp [validateIOSyntax, StartsWithWord, allowance]

/-- The loop refuses what is refused in the run that starts here. -/
theorem validateLoop_iff (first last : Bool) : ∀ (command : List Token) (inChanged outChanged syntaxError : Bool),
    validateLoop first last command inChanged outChanged syntaxError = true ↔
      syntaxError = true ∨ Refused first last inChanged outChanged (runOf command)
  | [], inChanged, outChanged, syntaxError => by
    simp [validateLoop, Refused, runOf, not_untargeted_nil, countIn, countOut]
  | t :: rest, inChanged, outChanged, true => by simp [validateLoop]
  | t :: rest, inChanged, outChanged, false => by
    cases htype : t.type with
    | pipe => simp [validateLoop, htype, Refused, runOf_pipe htype, not_untargeted_nil, countIn, countOut]
    | word =>
      have hstep : validateLoop first last (t :: rest) inChanged outChanged false =
          validateLoop first last rest inChanged outChanged false := by simp [validateLoop, htype]
      rw [hstep, validateLoop_iff first last rest, runOf_cons (by rw [htype]; decide), refused_word htype]
    | infile =>
      have hstep : validateLoop first last (t :: rest) inChanged outChanged false = validateLoop first last rest true
          outChanged (validateIOSyntax rest false inChanged first).1 := by simp [validateLoop, htype, validateIOSyntax]
      rw [hstep, validateLoop_iff first last rest, runOf_cons (by rw [htype]; decide), refused_infile htype,
        validateIOSyntax_fst, startsWithWord_runOf, or_assoc]
    | outfile =>
      have hstep : validateLoop first last (t :: rest) inChanged outChanged false = validateLoop first last rest inChanged
          true (validateIOSyntax rest false outChanged last).1 := by simp [validateLoop, htype, validateIOSyntax]
      rw [hstep, validateLoop_iff first last rest, runOf_cons (by rw [htype]; decide), refused_outfile htype,
        validateIOSyntax_fst, startsWithWord_runOf, or_assoc]

theorem validateCommandSyntax_iff {command : List Token} {first last : Bool} :
    validateCommandSyntax command false first last = true ↔ Refused first last false false (runOf command) := by
  unfold validateCommandSyntax
  rw [validateLoop_iff]
  simp

/-- The loop over the commands ends, and finds whether one of them is refused. -/
theorem validateCommands_eq (cnt : ℕ) : ∀ (i : ℕ) (commands : List (List Token)) (syntaxError : Bool),
    (∀ command ∈ commands, command ≠ []) → ∃ b, validateCommands cnt i commands syntaxError = .ok b ∧
      (b = true ↔ syntaxError = true ∨ ∃ j command, commands[j]? = some command ∧
        Refused (i + j == 0) (i + j == cnt - 1) false false (runOf command))
  | i, [], syntaxError, _ => ⟨syntaxError, rfl, by simp⟩
  | i, command :: rest, true, _ => ⟨true, rfl, by simp⟩
  | i, command :: rest, false, hne => by
    obtain ⟨b, hb, hiff⟩ := validateCommands_eq cnt (i + 1) rest
      (validateCommandSyntax command false (i == 0) (i == cnt - 1)) fun c hc => hne c (List.mem_cons_of_mem _ hc)
    refine ⟨b, ?_, hiff.trans ?_⟩
    · simp only [validateCommands, hne command (List.mem_cons_self ..), Bool.false_eq_true, if_false, hb]
    · rw [validateCommandSyntax_iff]
      constructor
      · rintro (h | ⟨j, c, hj, h⟩)
        · exact Or.inr ⟨0, command, rfl, h⟩
        · exact Or.inr ⟨j + 1, c, hj, by rwa [← Nat.add_assoc, Nat.add_right_comm]⟩
      · rintro (h | ⟨j, c, hj, h⟩)
        · exact absurd h nofun
        · cases j with
          | zero =>
            cases hj
            exact Or.inl h
          | succ j => exact Or.inr ⟨j, c, hj, by rwa [Nat.add_right_comm, Nat.add_assoc]⟩

end Pipe

end

/-- A line without empty runs is malformed if and only if a run is refused. -/
theorem malformed_iff {runs : List (List Token)} : Malformed runs ↔ [] ∈ runs ∨
    ∃ j run, runs[j]? = some run ∧ Refused (j == 0) (j == runs.length - 1) false false run := by
  have hlast : ∀ j run, runs[j]? = some run → (j ≠ runs.length - 1 ↔ j + 1 ≠ runs.length) := fun j run hj => by
    have hlt := (List.getElem?_eq_some_iff.mp hj).1
    omega
  constructor
  · intro h
    cases h with
    | empty h => exact Or.inl h
    | target hrun heq ht hpost =>
      obtain ⟨j, hj⟩ := List.mem_iff_getElem?.mp hrun
      exact Or.inr ⟨j, _, hj, Or.inl ⟨_, _, _, heq, ht, hpost⟩⟩
    | twice hrun htype htwo =>
      obtain ⟨j, hj⟩ := List.mem_iff_getElem?.mp hrun
      refine Or.inr ⟨j, _, hj, Or.inr ?_⟩
      have hle : ∀ p, allowance p false ≤ 1 := by decide
      rcases htype with rfl | rfl
      · exact Or.inl (lt_of_le_of_lt (hle _) htwo)
      · exact Or.inr (lt_of_le_of_lt (hle _) htwo)
    | @infile i run hi hne hmem =>
      refine Or.inr ⟨i, run, hi, Or.inr (Or.inl ?_)⟩
      have hpos : 0 < countIn run := List.countP_pos_iff.mpr (by simpa using hmem)
      simpa [allowance, hne] using hpos
    | @outfile i run hi hne hmem =>
      refine Or.inr ⟨i, run, hi, Or.inr (Or.inr ?_)⟩
      have hpos : 0 < countOut run := List.countP_pos_iff.mpr (by simpa using hmem)
      simpa [allowance, (hlast i run hi).mpr hne] using hpos
  · rintro (h | ⟨j, run, hj, h | h | h⟩)
    · exact .empty h
    · obtain ⟨pre, t, post, heq, ht, hpost⟩ := h
      exact .target (List.mem_of_getElem? hj) heq ht hpost
    · by_cases h0 : j = 0
      · have htwo : 1 < countIn run := by simpa [allowance, h0] using h
        exact @Malformed.twice _ _ .infile (List.mem_of_getElem? hj) (Or.inl rfl) htwo
      · refine .infile hj h0 ?_
        simpa [allowance, h0, countIn, List.countP_pos_iff] using h
    · by_cases h0 : j = runs.length - 1
      · have htwo : 1 < countOut run := by simpa [allowance, h0] using h
        exact @Malformed.twice _ _ .outfile (List.mem_of_getElem? hj) (Or.inr rfl) htwo
      · refine .outfile hj ((hlast j run hj).mp h0) ?_
        simpa [allowance, h0, countOut, List.countP_pos_iff] using h

/-! ### The verdict -/

theorem mem_runs_nil {tokens : List Token} : [] ∈ runs tokens ↔ (starts tokens).any isCommandEnd = true := by
  rw [splitOnP_starts, List.mem_map, List.any_eq_true]
  exact exists_congr fun c => and_congr_right fun _ => runOf_eq_nil

theorem runs_getElem? {tokens : List Token} {j : ℕ} {run : List Token} :
    (runs tokens)[j]? = some run ↔ ∃ c, (starts tokens)[j]? = some c ∧ runOf c = run := by
  rw [splitOnP_starts, List.getElem?_map, Option.map_eq_some_iff]

theorem length_runs (tokens : List Token) : (runs tokens).length = (starts tokens).length := by
  rw [splitOnP_starts, List.length_map]

namespace Pipe

/-- What `Exec` makes of the tokens of a line. -/
structure Verdict (tokens : List Token) (out : Outcome) : Prop where
  nothing : out = .nothing ↔ tokens = []
  syntaxError : tokens ≠ [] → (out = .syntaxError ↔ Malformed (runs tokens))
  launch : tokens ≠ [] → ¬ Malformed (runs tokens) → out = .launch (starts tokens) (runs tokens).length

theorem exec_bind {tokens : List Token} (hnil : tokens ≠ []) : exec ⟨tokens.length, tokens⟩ =
    splitInCommands ⟨tokens.length, tokens⟩ >>= fun x =>
      match x with
      | (none, _) => .ok .syntaxError
      | (some commands, cnt) => validateCommands cnt 0 commands false >>= fun b =>
        if b then .ok .syntaxError
        else if commands.headD [] = [] || commands.getLastD [] = [] then .error .assertion
        else .ok (.launch commands cnt) := by
  have hlen : tokens.length ≠ 0 := fun h => hnil (List.length_eq_zero_iff.mp h)
  unfold exec
  simp only [hlen, if_false]
  rfl

/-- A run is empty. -/
theorem exec_of_empty {tokens : List Token} (hnil : tokens ≠ []) (hempty : (starts tokens).any isCommandEnd = true) :
    exec ⟨tokens.length, tokens⟩ = .ok .syntaxError := by
  rw [exec_bind hnil, splitInCommands_eq hnil, if_pos hempty]
  rfl

/-- No run is empty: the validators decide. -/
theorem exec_of_full {tokens : List Token} (hnil : tokens ≠ []) (hfull : ¬ (starts tokens).any isCommandEnd = true) :
    ∃ b, exec ⟨tokens.length, tokens⟩ = .ok (if b then .syntaxError else .launch (starts tokens) (runs tokens).length) ∧
      (b = true ↔ ∃ j command, (starts tokens)[j]? = some command ∧
        Refused (j == 0) (j == (starts tokens).length - 1) false false (runOf command)) := by
  have hne : ∀ command ∈ starts tokens, command ≠ [] := fun c hc h =>
    hfull (List.any_eq_true.mpr ⟨c, hc, by rw [h]; rfl⟩)
  have hlast : (starts tokens).getLastD [] ≠ [] := by
    rw [starts, List.getLastD_cons]
    exact hne _ List.getLastD_mem_cons
  have hassert : ((starts tokens).headD [] = [] || (starts tokens).getLastD [] = []) = false := by
    rw [Bool.or_eq_false_iff]
    exact ⟨decide_eq_false hnil, decide_eq_false hlast⟩
  obtain ⟨b, hb, hiff⟩ := validateCommands_eq (starts tokens).length 0 (starts tokens) false hne
  refine ⟨b, ?_, by simpa using hiff⟩
  rw [exec_bind hnil, splitInCommands_eq hnil, if_neg hfull]
  show (validateCommands (starts tokens).length 0 (starts tokens) false >>= _) = _
  rw [hb, length_runs]
  show (if b then _ else if _ then _ else _) = _
  rw [hassert]
  cases b <;> rfl

/-- `Exec` fails no assertion, follows no null pointer and finds what must not stand in the line. -/
theorem exec_eq (tokenizer : Tokenizer) (hcount : tokenizer.tokenCount = tokenizer.head.length) :
    ∃ out, exec tokenizer = .ok out ∧ Verdict tokenizer.head out := by
  obtain ⟨n, tokens⟩ := tokenizer
  obtain rfl : n = tokens.length := hcount
  by_cases hnil : tokens = []
  · refine ⟨.nothing, ?_, by simp [hnil], fun h => absurd hnil h, fun h => absurd hnil h⟩
    rw [hnil]
    rfl
  by_cases hempty : (starts tokens).any isCommandEnd = true
  · have hmal : Malformed (runs tokens) := .empty (mem_runs_nil.mpr hempty)
    exact ⟨.syntaxError, exec_of_empty hnil hempty, by simp [hnil], fun _ => iff_of_true rfl hmal, fun _ h => absurd hmal h⟩
  · obtain ⟨b, hb, hiff⟩ := exec_of_full hnil hempty
    have hmal : b = true ↔ Malformed (runs tokens) := by
      rw [malformed_iff, or_iff_right (fun h => hempty (mem_runs_nil.mp h)), hiff, length_runs]
      refine exists_congr fun j => ⟨?_, ?_⟩
      · rintro ⟨c, hc, h⟩
        exact ⟨runOf c, runs_getElem?.mpr ⟨c, hc, rfl⟩, h⟩
      · rintro ⟨run, hrun, h⟩
        obtain ⟨c, hc, rfl⟩ := runs_getElem?.mp hrun
        exact ⟨c, hc, h⟩
    refine ⟨_, hb, ?_, fun _ => ?_, fun _ h => ?_⟩
    · cases b <;> simp [hnil]
    · rw [← hmal]
      cases b <;> simp
    · rw [← hmal, Bool.not_eq_true] at h
      rw [h]
      rfl

end Pipe

end Bash
end OsLabs
