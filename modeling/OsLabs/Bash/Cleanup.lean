/-
# Freeing the arguments

When `execvp` fails, the child of `io` frees as many pointers of `argv` as its line has tokens. `argv` has a slot
for every word that is an argument, one for the target of a `<`, which `CheckIOAndOpenFiles` counts as well, and
one for the null pointer. A `<` and its target are two tokens and take up two of these slots; a `>` and its target
are two tokens and have none.

Key theorem: `argv_in_bounds`.
-/
import OsLabs.Bash.Output

namespace OsLabs
namespace Bash
namespace Io

/-- The loop that frees, `n` times from the index `i` on. -/
def freeLoop (argv : Argv) : ℕ → ℕ → Except Fault Unit
  | _, 0 => .ok ()
  | i, n + 1 => if i < argv.length then freeLoop argv (i + 1) n else .error .bounds

theorem freeLoop_eq (argv : Argv) : ∀ n i : ℕ, i ≤ argv.length →
    freeLoop argv i n = if i + n ≤ argv.length then .ok () else .error .bounds
  | 0, i, hi => (if_pos hi).symm
  | n + 1, i, hi => by
    unfold freeLoop
    by_cases hlt : i < argv.length
    · rw [if_pos hlt, freeLoop_eq argv n (i + 1) hlt, Nat.add_right_comm]
      rfl
    · rw [if_neg hlt, if_neg (by omega)]

theorem freeArgv_eq_loop (argv : Argv) (n : ℕ) : freeArgv argv n = freeLoop argv 0 n := by
  rw [freeLoop_eq argv n 0 (Nat.zero_le _), Nat.zero_add]
  rfl

variable {command : List Token}

theorem any_outfile : (command.any fun t => t.type = .outfile) = false ↔ ∀ t ∈ command, t.type ≠ .outfile := by
  rw [List.any_eq_false]
  simp only [decide_eq_true_iff]

/-- **The slots of `argv`.** On a line that passes `CheckSyntax`, `GetArgv` stores within the `argc + 1` slots, and the loop
that frees stays within them if and only if the line has no `>`; so `Exec` does if and only if it has none, some target
cannot be opened, or `execvp` succeeds. -/
theorem argv_in_bounds (hpipe : ∀ t ∈ command, t.type ≠ .pipe)
    (hcheck : checkSyntax ⟨command.length, command⟩ = false) :
    (∃ argc opens argv, checkIOAndOpenFiles record ⟨command.length, command⟩ [] = .ok (argc, opens) ∧
      getArgv ⟨command.length, command⟩ argc = .ok argv ∧ argv.length = argc + 1 ∧
      (freeLoop argv 0 command.length = .ok () ↔ ∀ t ∈ command, t.type ≠ .outfile)) ∧
    ∀ (opens : Mode → Text → Bool) (image : Image),
      (∃ reply, exec ⟨command.length, command⟩ opens image = .ok reply) ↔
        (∀ t ∈ command, t.type ≠ .outfile) ∨ (∃ x ∈ targets command, opens x.1 x.2 = false) ∨ image ≠ .failed := by
  obtain ⟨htargeted, hin, -⟩ := targeted_of_check hpipe hcheck
  constructor
  · refine ⟨(args command).length + reads command, targets command, filled (args command) (reads command + 1), ?_,
      argvLoop_eq htargeted hpipe [] (reads command + 1), ?_, ?_⟩
    · rw [checkIOAndOpenFiles, openLoop_eq htargeted hpipe, Nat.zero_add, record_foldl, List.nil_append]
    · rw [length_filled, Nat.add_assoc]
    · rw [← freeArgv_eq_loop, freeArgv_line htargeted hpipe hin, ← any_outfile]
      cases command.any fun t => t.type = .outfile
      · exact iff_of_true rfl rfl
      · exact iff_of_false nofun nofun
  · intro opens image
    by_cases hnil : command = []
    · rw [hnil]
      exact iff_of_true ⟨_, rfl⟩ (Or.inl fun t ht => absurd ht List.not_mem_nil)
    have hopens : ((targets command).all fun x => opens x.1 x.2) = false ↔ ∃ x ∈ targets command, opens x.1 x.2 = false := by
      rw [List.all_eq_false]
      simp only [Bool.not_eq_true]
    rw [exec_accepted hnil hpipe hcheck, ← any_outfile, ← hopens]
    cases (targets command).all fun x => opens x.1 x.2 with
    | false => exact iff_of_true ⟨_, rfl⟩ (Or.inr (Or.inl rfl))
    | true =>
      cases image with
      | failed =>
        cases command.any fun t => t.type = .outfile with
        | false => exact iff_of_true ⟨_, rfl⟩ (Or.inl rfl)
        | true => simp
      | _ => exact iff_of_true ⟨_, rfl⟩ (Or.inr (Or.inr nofun))

/-- `<` alone. -/
theorem argv_in_bounds_read : ∃ reply, exec (tokenizerInit "foo x < a\n".toList) (fun _ _ => true) .failed = .ok reply :=
  ((argv_in_bounds (no_pipe "foo x < a\n".toList) (by decide +kernel)).2 (fun _ _ => true) .failed).mpr
    (Or.inl (by decide +kernel))

/-- There is no `foo`: four tokens, and three slots. -/
theorem argv_overrun : checkSyntax (tokenizerInit "foo x > a\n".toList) = false ∧
    exec (tokenizerInit "foo x > a\n".toList) (fun _ _ => true) .failed = .error .bounds := by
  decide +kernel

end Io
end Bash
end OsLabs
