/-
# What a command is made of

In an accepted line every redirect of a run is followed by its target. So the words of a run fall into two kinds: those
right behind a redirect are files, and the others are the arguments. `words` and `behind` say this of the tokens alone;
the walks find the same.

Nothing in the validators asks for an argument: a run of redirects and targets is accepted, and its `argv` is empty.

Key definitions: `words`, `behind`, `Pipe.launched`.
Key theorems: `pipeline_launches`, `argv_named`.
-/
import OsLabs.Bash.Redirects

namespace OsLabs
namespace Bash

instance : DecidablePred Token.Redirects := fun _ => inferInstanceAs (Decidable (_ ∨ _))

/-- Each token of a run with the one before it. -/
def withPrevious (run : List Token) : List (Option Token × Token) := (none :: run.map some).zip run

/-- The word, unless it is a target. -/
def asWord (x : Option Token × Token) : Option Text :=
  if x.2.type = .word && !x.1.any (·.Redirects) then some x.2.text else none

/-- The target of a redirect. -/
def asTarget (type : TokenType) (x : Option Token × Token) : Option Text :=
  if x.1.any (·.type = type) then some x.2.text else none

/-- The words of a run that are no redirect's target. -/
def words (run : List Token) : List Text := (withPrevious run).filterMap asWord

/-- The targets of its redirects of a type. -/
def behind (type : TokenType) (run : List Token) : List Text := (withPrevious run).filterMap (asTarget type)

def Mode.type : Mode → TokenType
  | .read => .infile
  | .write => .outfile

/-! ### The walks and the words -/

/-- The two kinds of redirect are alike. -/
theorem Targeted.redirect {t u : Token} {rest : List Token} (ht : t.Redirects) (hu : u.type = .word) (h : Targeted rest) :
    Targeted (t :: u :: rest) :=
  ht.elim (.infile · hu h) (.outfile · hu h)

@[elab_as_elim]
theorem Targeted.redirects {P : (command : List Token) → Targeted command → Prop}
    (stop : ∀ command (h : isCommandEnd command = true), P command (.stop h))
    (word : ∀ t rest (ht : t.type = .word) (h : Targeted rest), P rest h → P (t :: rest) (.word ht h))
    (redirect : ∀ t u rest (ht : t.Redirects) (hu : u.type = .word) (h : Targeted rest), P rest h →
      P (t :: u :: rest) (.redirect ht hu h)) {command : List Token} (h : Targeted command) : P command h := by
  induction h with
  | stop hstop => exact stop _ hstop
  | word ht h ih => exact word _ _ ht h ih
  | infile ht hu h ih => exact redirect _ _ _ (Or.inl ht) hu h ih
  | outfile ht hu h ih => exact redirect _ _ _ (Or.inr ht) hu h ih

section

variable {t u : Token} {rest : List Token}

theorem not_redirects (ht : t.type = .word) : ¬ t.Redirects := by
  rw [Token.Redirects, ht]
  decide

theorem runOf_word (ht : t.type = .word) : runOf (t :: rest) = t :: runOf rest := runOf_cons (by rw [ht]; decide)

theorem runOf_redirect (ht : t.Redirects) (hu : u.type = .word) : runOf (t :: u :: rest) = t :: u :: runOf rest := by
  have hpipe : t.type ≠ .pipe := by
    rcases ht with ht | ht <;> rw [ht] <;> decide
  rw [runOf_cons hpipe, runOf_word hu]

theorem args_redirect (ht : t.Redirects) : args (t :: u :: rest) = args rest := ht.elim args_infile args_outfile

theorem files_redirect (mode : Mode) (ht : t.Redirects) : Pipe.files mode (t :: u :: rest) =
    if t.type = mode.type then u.text :: Pipe.files mode rest else Pipe.files mode rest := by
  rcases ht with ht | ht
  · rw [Pipe.files, targets_infile ht, ht]
    cases mode <;> rfl
  · rw [Pipe.files, targets_outfile ht, ht]
    cases mode <;> rfl

theorem asTarget_none {prev : Option Token} (mode : Mode) (h : prev.any (·.Redirects) = false) :
    asTarget mode.type (prev, t) = none := by
  refine if_neg ?_
  cases prev with
  | none => exact Bool.false_ne_true
  | some t =>
    have hred : ¬ t.Redirects := of_decide_eq_false h
    intro htype
    apply hred
    cases mode with
    | read => exact Or.inl (of_decide_eq_true htype)
    | write => exact Or.inr (of_decide_eq_true htype)

end

section

variable {command : List Token}

theorem args_from (h : Targeted command) : ∀ (prev : Option Token), prev.any (·.Redirects) = false →
    ((prev :: (runOf command).map some).zip (runOf command)).filterMap asWord = args command := by
  induction h using Targeted.redirects with
  | stop command hstop =>
    intro prev _
    rw [runOf_eq_nil.mpr hstop, args_stop hstop]
    rfl
  | word t rest ht _ ih =>
    intro prev hprev
    rw [runOf_word ht, args_word ht, ← ih (some t) (decide_eq_false (not_redirects ht))]
    simp [asWord, ht, hprev]
  | redirect t u rest ht hu _ ih =>
    intro prev hprev
    have htword : t.type ≠ .word := fun hn => not_redirects hn ht
    rw [runOf_redirect ht hu, args_redirect ht, ← ih (some u) (decide_eq_false (not_redirects hu))]
    simp [asWord, htword, ht]

theorem args_eq_words (h : Targeted command) : args command = words (runOf command) := (args_from h none rfl).symm

theorem files_from (mode : Mode) (h : Targeted command) : ∀ (prev : Option Token), prev.any (·.Redirects) = false →
    ((prev :: (runOf command).map some).zip (runOf command)).filterMap (asTarget mode.type) = Pipe.files mode command := by
  induction h using Targeted.redirects with
  | stop command hstop =>
    intro prev _
    rw [runOf_eq_nil.mpr hstop, Pipe.files, targets_stop hstop]
    rfl
  | word t rest ht _ ih =>
    intro prev hprev
    have hnext := ih (some t) (decide_eq_false (not_redirects ht))
    rw [runOf_word ht, Pipe.files, targets_word ht, ← Pipe.files, ← hnext, List.map_cons, List.zip_cons_cons,
      List.filterMap_cons, asTarget_none mode hprev]
  | redirect t u rest ht hu _ ih =>
    intro prev hprev
    have hnext := ih (some u) (decide_eq_false (not_redirects hu))
    rw [runOf_redirect ht hu, files_redirect mode ht, ← hnext, List.map_cons, List.map_cons, List.zip_cons_cons,
      List.zip_cons_cons, List.filterMap_cons, asTarget_none mode hprev, List.filterMap_cons]
    by_cases htype : t.type = mode.type
    · simp [asTarget, htype]
    · simp [asTarget, htype]

theorem files_eq_behind (mode : Mode) (h : Targeted command) : Pipe.files mode command = behind mode.type (runOf command) :=
  (files_from mode h none rfl).symm

/-- Every redirect takes two tokens. -/
theorem length_eq_words (h : Targeted command) :
    (runOf command).length = (words (runOf command)).length + 2 * (runOf command).countP (·.Redirects) := by
  rw [← args_eq_words h]
  induction h using Targeted.redirects with
  | stop command hstop =>
    rw [runOf_eq_nil.mpr hstop, args_stop hstop]
    rfl
  | word t rest ht _ ih =>
    rw [runOf_word ht, args_word ht, List.length_cons, List.length_cons, ih,
      List.countP_cons_of_neg (by simpa using not_redirects ht)]
    omega
  | redirect t u rest ht hu _ ih =>
    rw [runOf_redirect ht hu, args_redirect ht, List.length_cons, List.length_cons, ih,
      List.countP_cons_of_pos (by simpa using ht), List.countP_cons_of_neg (by simpa using not_redirects hu)]
    omega

theorem words_ne_nil (h : Targeted command) :
    words (runOf command) ≠ [] ↔ (runOf command).length ≠ 2 * (runOf command).countP (·.Redirects) := by
  have hlen := length_eq_words h
  rw [Ne, ← List.length_eq_zero_iff]
  omega

end

/-! ### What a line launches -/

namespace Pipe

/-- What the child of the `i`-th of `cnt` runs opens and executes. -/
def launched (cnt i : ℕ) (run : List Token) : Program where
  argv := (words run).map some ++ [none]
  opens := (if i = 0 then (behind .infile run).map ((.read, ·)) else []) ++
    if i = cnt - 1 then (behind .outfile run).map ((.write, ·)) else []

variable {command : List Token}

theorem foldl_record (mode : Mode) (paths : List Text) (opens : List (Mode × Text)) :
    paths.foldl (fun opens path => record opens mode path) opens = opens ++ paths.map ((mode, ·)) := by
  rw [← record_foldl, List.foldl_map]

theorem walk_eq {σ : Type} (h : Targeted command) (dupWithOpen : σ → Mode → Text → σ) (mode : Mode) (s : σ) :
    validateIOAndOpenFile dupWithOpen (mode = .read) (mode = .write) command s =
      .ok ((behind mode.type (runOf command)).foldl (fun s path => dupWithOpen s mode path) s) := by
  rw [validate_files h, files_eq_behind mode h]

theorem child_eq (h : Targeted command) (cnt i : ℕ) : child cnt i command = .ok (launched cnt i (runOf command)) := by
  have hin : (if (i == 0) = true then validateIOAndOpenFile record true false command [] else .ok []) =
      .ok (if i = 0 then (behind .infile (runOf command)).map ((.read, ·)) else []) := by
    by_cases h0 : i = 0
    · rw [if_pos (by simp [h0]), if_pos h0]
      exact (walk_eq h record .read []).trans (by rw [foldl_record]; rfl)
    · rw [if_neg (by simp [h0]), if_neg h0]
  have hout : ∀ opens, (if (i == cnt - 1) = true then validateIOAndOpenFile record false true command opens else .ok opens) =
      .ok (opens ++ if i = cnt - 1 then (behind .outfile (runOf command)).map ((.write, ·)) else []) := fun opens => by
    by_cases hlast : i = cnt - 1
    · rw [if_pos (by simp [hlast]), if_pos hlast]
      exact (walk_eq h record .write opens).trans (by rw [foldl_record]; rfl)
    · rw [if_neg (by simp [hlast]), if_neg hlast, List.append_nil]
  have hargv : getArgv command = .ok ((words (runOf command)).map some ++ [none]) := by
    rw [getArgv_eq h, args_eq_words h]
    rfl
  have hchild : child cnt i command =
      ((if (i == 0) = true then validateIOAndOpenFile record true false command [] else .ok []) >>= fun opens =>
        (if (i == cnt - 1) = true then validateIOAndOpenFile record false true command opens else .ok opens) >>= fun opens =>
          getArgv command >>= fun argv => .ok ⟨argv, opens⟩) := by
    unfold child
    generalize (i == 0) = first, (i == cnt - 1) = last
    cases first <;> cases last <;> rfl
  rw [hchild, hin, ok_bind, hout, ok_bind, hargv]
  rfl

theorem children_launched (cnt : ℕ) : ∀ (i : ℕ) (commands : List (List Token)), (∀ command ∈ commands, Targeted command) →
    children cnt i commands = .ok (commands.mapIdx fun j command => launched cnt (i + j) (runOf command))
  | _, [], _ => rfl
  | i, command :: rest, h => by
    have ih := children_launched cnt (i + 1) rest fun c hc => h c (List.mem_cons_of_mem _ hc)
    unfold children
    rw [child_eq (h command (List.mem_cons_self ..)), ok_bind, ih, ok_bind, List.mapIdx_cons]
    simp only [Nat.add_assoc, Nat.add_comm 1]
    rfl

section

variable {text : List Char} {commands : List (List Token)} {cnt : ℕ}

theorem runs_of_launch (h : exec (tokenizerInit text) = .ok (.launch commands cnt)) :
    commands.map runOf = runs (tokenizerInit text).head ∧ cnt = (runs (tokenizerInit text).head).length := by
  obtain ⟨out, hout, hverdict⟩ := exec_eq (tokenizerInit text) rfl
  obtain rfl : out = .launch commands cnt := Except.ok.inj (hout.symm.trans h)
  have hnil : (tokenizerInit text).head ≠ [] := fun hn => absurd (hverdict.nothing.mpr hn) nofun
  have hmal : ¬ Malformed (runs (tokenizerInit text).head) := fun hn => absurd ((hverdict.syntaxError hnil).mpr hn) nofun
  cases hverdict.launch hnil hmal
  exact ⟨(splitOnP_starts _).symm, rfl⟩

theorem interpret_launch (h : exec (tokenizerInit text) = .ok (.launch commands cnt)) :
    interpret (tokenizerInit text) = .ok (.launch (commands.mapIdx fun i command => launched cnt i (runOf command))) := by
  obtain ⟨-, -, hfit⟩ := fit_of_launch h
  have hchildren := children_launched cnt 0 commands fun c hc => (hfit c hc).1
  unfold interpret
  rw [h, ok_bind]
  simp only [hchildren, Nat.zero_add]
  rfl

/-- **Arguments and files of an accepted pipeline.** Every walk ends without a fault, with the words of its run or with the
targets of one kind of redirect; the children launch each run with its words, and open at most the target of `<` in
the first run and that of `>` in the last one. -/
theorem pipeline_launches (h : exec (tokenizerInit text) = .ok (.launch commands cnt)) :
    interpret (tokenizerInit text) =
      .ok (.launch ((runs (tokenizerInit text).head).mapIdx (launched (runs (tokenizerInit text).head).length))) ∧
    (∀ run ∈ runs (tokenizerInit text).head, (behind .infile run).length ≤ 1 ∧ (behind .outfile run).length ≤ 1) ∧
    commands.map runOf = runs (tokenizerInit text).head ∧
    ∀ command ∈ commands, getArgc command = .ok (words (runOf command)).length ∧
      getArgv command = .ok ((words (runOf command)).map some ++ [none]) ∧
      ∀ {σ : Type} (dupWithOpen : σ → Mode → Text → σ) (s : σ),
        validateIOAndOpenFile dupWithOpen true false command s =
          .ok ((behind .infile (runOf command)).foldl (fun s path => dupWithOpen s .read path) s) ∧
        validateIOAndOpenFile dupWithOpen false true command s =
          .ok ((behind .outfile (runOf command)).foldl (fun s path => dupWithOpen s .write path) s) := by
  obtain ⟨hruns, rfl⟩ := runs_of_launch h
  obtain ⟨-, -, hfit⟩ := fit_of_launch h
  refine ⟨?_, fun run hrun => ?_, hruns, fun command hc => ?_⟩
  · rw [interpret_launch h, ← hruns]
    congr 2
    exact List.ext_getElem? fun i => by rw [List.getElem?_mapIdx, List.getElem?_mapIdx, List.getElem?_map, Option.map_map]; rfl
  · rw [← hruns] at hrun
    obtain ⟨command, hc, rfl⟩ := List.mem_map.mp hrun
    have hone : ∀ mode : Mode, (behind mode.type (runOf command)).length ≤ 1 := fun mode => by
      rw [← files_eq_behind mode (hfit command hc).1]
      exact (hfit command hc).2 mode
    exact ⟨hone .read, hone .write⟩
  · have htargeted := (hfit command hc).1
    refine ⟨?_, ?_, fun dupWithOpen s => ⟨walk_eq htargeted dupWithOpen .read s, walk_eq htargeted dupWithOpen .write s⟩⟩
    · rw [getArgc, argcLoop_eq htargeted, Nat.zero_add, args_eq_words htargeted]
    · rw [getArgv_eq htargeted, args_eq_words htargeted]
      rfl

end

theorem pipeline_launches_two : interpret (tokenizerInit "cat < a x | wc > b -c
".toList) =
    .ok (.launch [⟨[some ['c', 'a', 't'], some ['x'], none], [(.read, ['a'])]⟩,
      ⟨[some ['w', 'c'], some ['-', 'c'], none], [(.write, ['b'])]⟩]) := by
  have hexec : exec (tokenizerInit "cat < a x | wc > b -c
".toList) =
      .ok (.launch (starts (tokenizerInit "cat < a x | wc > b -c
".toList).head) 2) := by decide +kernel
  exact (pipeline_launches hexec).1.trans (by decide +kernel)

end Pipe

/-! ### A name to execute -/

/-- `*argv` is not null. -/
def Program.Named (p : Program) : Prop := ∃ name, p.argv.head? = some (some name)

theorem named_filled {done : List Text} {k : ℕ} {opens : List (Mode × Text)} :
    Program.Named ⟨filled done (k + 1), opens⟩ ↔ done ≠ [] := by
  cases done with
  | nil => simp [Program.Named, filled, List.replicate_succ]
  | cons x xs => simp [Program.Named, filled]

theorem named_launched {cnt i : ℕ} {run : List Token} : (Pipe.launched cnt i run).Named ↔ words run ≠ [] :=
  @named_filled (words run) 0 (Pipe.launched cnt i run).opens

/-- **`execvp` has a name to execute** unless a run is nothing but redirects and their targets: then twice its redirects are
all its tokens. -/
theorem argv_named (text : List Char) :
    (∀ programs, Pipe.interpret (Pipe.tokenizerInit text) = .ok (.launch programs) →
      ((∀ p ∈ programs, p.Named) ↔
        ∀ run ∈ runs (Pipe.tokenizerInit text).head, run.length ≠ 2 * run.countP (·.Redirects))) ∧
    (∀ programs, Io.interpret (Io.tokenizerInit text) = .ok (.launch programs) →
      ((∀ p ∈ programs, p.Named) ↔
        (Io.tokenizerInit text).head.length ≠ 2 * (Io.tokenizerInit text).head.countP (·.Redirects))) := by
  constructor
  · intro programs h
    obtain ⟨commands, cnt, hexec⟩ : ∃ commands cnt, Pipe.exec (Pipe.tokenizerInit text) = .ok (.launch commands cnt) := by
      obtain ⟨out, hout, -⟩ := Pipe.exec_eq (Pipe.tokenizerInit text) rfl
      unfold Pipe.interpret at h
      rw [hout, ok_bind] at h
      cases out with
      | nothing => cases h
      | syntaxError => cases h
      | launch commands cnt => exact ⟨commands, cnt, hout⟩
    obtain ⟨hruns, -⟩ := Pipe.runs_of_launch hexec
    obtain ⟨-, -, hfit⟩ := Pipe.fit_of_launch hexec
    rw [Pipe.interpret_launch hexec] at h
    cases h
    rw [← hruns, List.forall_mem_map]
    constructor
    · intro hnamed command hc
      obtain ⟨i, hi⟩ := List.mem_iff_getElem?.mp hc
      have hp := hnamed (Pipe.launched cnt i (runOf command)) (List.mem_iff_getElem?.mpr ⟨i, by simp [hi]⟩)
      exact (words_ne_nil (hfit command hc).1).mp (named_launched.mp hp)
    · intro hwords p hp
      obtain ⟨i, hi⟩ := List.mem_iff_getElem?.mp hp
      rw [List.getElem?_mapIdx] at hi
      obtain ⟨command, hcommand, rfl⟩ := Option.map_eq_some_iff.mp hi
      have hc := List.mem_of_getElem? hcommand
      exact named_launched.mpr ((words_ne_nil (hfit command hc).1).mpr (hwords command hc))
  · intro programs h
    have hpipe := Io.no_pipe text
    have heq : Io.tokenizerInit text = ⟨(Io.tokenizerInit text).head.length, (Io.tokenizerInit text).head⟩ := rfl
    generalize (Io.tokenizerInit text).head = command at hpipe heq ⊢
    rw [heq] at h
    by_cases hnil : command = []
    · rw [hnil] at h
      cases h
    by_cases href : Refused true true false false command
    · rw [Io.interpret_refused hnil hpipe href] at h
      cases h
    · have htargeted := targeted_of_run command (by rw [runOf_single hpipe]; exact fun hn => href (Or.inl hn))
      rw [Io.interpret_accepted hnil hpipe href] at h
      cases h
      have hwords := words_ne_nil htargeted
      rw [← args_eq_words htargeted, runOf_single hpipe] at hwords
      rw [List.forall_mem_singleton, ← hwords]
      exact named_filled

theorem argv_named_words : (∀ p ∈ [Pipe.launched 1 0 (Io.tokenizerInit "wc < a\n".toList).head], p.Named) ∧
    (∀ p ∈ [Io.program (Io.tokenizerInit "wc < a\n".toList).head], p.Named) := by
  have h := argv_named "wc < a\n".toList
  exact ⟨(h.1 _ (by decide +kernel)).mpr (by decide +kernel), (h.2 _ (by decide +kernel)).mpr (by decide +kernel)⟩

/-- A redirect and its target are a line. -/
theorem argv_unnamed : Pipe.interpret (Pipe.tokenizerInit "> f\n".toList) = .ok (.launch [⟨[none], [(.write, ['f'])]⟩]) ∧
    Io.interpret (Io.tokenizerInit "> f\n".toList) = .ok (.launch [⟨[none], [(.write, ['f'])]⟩]) ∧
    ¬ Program.Named ⟨[none], [(.write, ['f'])]⟩ := by
  refine ⟨by decide +kernel, by decide +kernel, ?_⟩
  rintro ⟨name, h⟩
  cases h

end Bash
end OsLabs
