/-
# The jobserver ends

In a tree in which nothing is refused, with 1 to 65536 tokens and if no `execl` fails. Whoever has a token can go on, or
waits for a command, and those go on and end; so a process that is blocked in `acquire` is not blocked for ever. All
others wait for children, and the last process that is alive has none. When `main` has ended there
is no process any more, so nothing is left to launch and nobody has a token.
-/
import OsLabs.Jobserver.Launches

namespace OsLabs
namespace Jobserver

open Processes Run

/-- The user's program that runs in the process. -/
def Proc.ran (p : Proc) : Multiset Path :=
  match p.pc with
  | .command prog => {p.file prog}
  | _ => 0

/-- A watcher waits for a command, or for one that has ended. -/
def Watching (ps : List Proc) : Prop :=
  ∀ (i c : ℕ) (q : Proc) (prog : String), ps[i]? = some q → q.pc = .waitChild c prog →
    ∃ p, ps[c]? = some p ∧ (p.pc.isCommand = true ∨ p.pc = .exited)

/-- What every step keeps if nothing is refused. -/
structure Orderly (root : Dir) (k : ℕ) (s : State) : Prop where
  tokens : Tokens k s
  shared : Shared root s
  ends : s.launched = s.finished + total Proc.ran s.procs
  watching : Watching s.procs
  main : 0 < s.procs.length

section

variable {s s' : State} {root : Dir} {k i : ℕ} {p p' q : Proc} {child : Option Proc} {ok : Bool}

theorem Watching.next (h : Watching s.procs) (hp : s.procs[i]? = some p)
    (hself : ∀ c prog, p'.pc = .waitChild c prog → c = s.procs.length ∧ ∃ q, child = some q ∧ q.pc.isCommand = true)
    (hchild : ∀ q, child = some q → ∀ c prog, q.pc ≠ .waitChild c prog)
    (hgoes : p.pc.isCommand = true ∨ p.pc = .exited → p'.pc.isCommand = true ∨ p'.pc = .exited) :
    Watching (next s.procs i p' child) := by
  intro j c q prog hq hpc
  rcases next_cases hq with ⟨rfl, rfl⟩ | ⟨hji, hq⟩ | ⟨rfl, hchildq⟩
  · obtain ⟨rfl, r, rfl, hcmd⟩ := hself c prog hpc
    exact ⟨r, next_child, Or.inl hcmd⟩
  · obtain ⟨r, hr, hstate⟩ := h j c q prog hq hpc
    by_cases hci : c = i
    · subst hci
      rw [hp] at hr
      cases hr
      exact ⟨p', next_self hp, hgoes hstate⟩
    · exact ⟨r, next_other hci hr, hstate⟩
  · exact absurd hpc (hchild q hchildq c prog)

theorem Steps.watching (h : Steps s i p ok s') (hw : Watching s.procs) (hp : s.procs[i]? = some p)
    (hok : ∀ prog, p.pc = .execl prog → ok = true) : Watching s'.procs := by
  cases h with
  | quiet h =>
    refine hw.next hp (fun c prog hpc => ?_) nofun fun hstate => ?_
    · cases h <;> simp at hpc
    · cases h <;> simp_all [PC.isCommand]
  | forks h =>
    refine hw.next hp (fun c prog hpc => ?_) (fun q hq c prog => ?_) fun hstate => ?_
    · cases h with
      | subdir => simp at hpc
      | watcher => simp at hpc
      | command =>
        cases hpc
        exact ⟨rfl, _, rfl, rfl⟩
    · cases hq
      cases h <;> simp
    · cases h <;> simp_all [PC.isCommand]
  | launch h => exact hw.next hp (by simp) nofun fun _ => Or.inl rfl
  | fail h hfail => exact absurd (hok _ h) (by simp [hfail])
  | finish h => exact hw.next hp (by simp) nofun fun _ => Or.inr rfl
  | post h | acquire h | release h => exact hw.next hp (by simp) nofun (by simp [h, PC.isCommand])

theorem Quiet.ran (h : Quiet s p p') : p'.ran = p.ran := by cases h <;> simp [Proc.ran, *]

theorem Forks.ran (h : Forks s i p p' q) : p'.ran + q.ran = p.ran := by cases h <;> simp [Proc.ran, *]

/-- Every program that is launched has ended or runs. -/
theorem Steps.ends (h : Steps s i p ok s') (hend : s.launched = s.finished + total Proc.ran s.procs)
    (hp : s.procs[i]? = some p) (hok : ∀ prog, p.pc = .execl prog → ok = true) :
    s'.launched = s'.finished + total Proc.ran s'.procs := by
  cases h with
  | quiet h =>
    rw [State.goes, total_goes Proc.ran _ hp h.ran]
    exact hend
  | @forks p' q h =>
    rw [State.forks, total_forks Proc.ran hp h.ran]
    exact hend
  | @post left h =>
    refine hend.trans (total_goes Proc.ran (p.goto (.semInit left)) hp ?_ ▸ rfl)
    simp [Proc.ran, h]
  | @acquire prog todo subPids watchPids h =>
    refine hend.trans (total_goes Proc.ran (p.goto (.fork prog todo subPids watchPids)) hp ?_ ▸ rfl)
    simp [Proc.ran, h]
  | release h =>
    refine hend.trans (total_goes Proc.ran (p.goto .exited) hp ?_ ▸ rfl)
    simp [Proc.ran, h]
  | @launch prog h =>
    have := total_next Proc.ran (p.goto (.command prog)) none hp
    simp only [Proc.ran, h, Proc.goto_pc, add_zero, Option.toList_none, total_nil] at this
    show p.file prog ::ₘ s.launched = s.finished + total Proc.ran (next s.procs i _ none)
    rw [hend, ← Multiset.singleton_add, add_comm, add_assoc]
    exact congrArg _ this.symm
  | fail h hfail => exact absurd (hok _ h) (by simp [hfail])
  | @finish prog h =>
    have := total_next Proc.ran (p.goto .exited) none hp
    simp only [Proc.ran, h, Proc.goto_pc, add_zero, Option.toList_none, total_nil] at this
    show s.launched = p.file prog ::ₘ s.finished + total Proc.ran (next s.procs i _ none)
    rw [hend, ← Multiset.singleton_add, add_comm {p.file prog}, add_assoc, add_comm {p.file prog}]
    exact congrArg _ this.symm

theorem Orderly.step (h : Orderly root k s) (hp : s.procs[i]? = some p) (hs : Steps s i p ok s')
    (hok : ∀ prog, p.pc = .execl prog → ok = true) : Orderly root k s' := by
  refine ⟨h.tokens.step hp hs hok, h.shared.step hp hs, hs.ends h.ends hp hok, hs.watching h.watching hp hok, ?_⟩
  have hmain := h.main
  cases hs <;> simp only [State.goes, State.forks, next_length] <;> omega

theorem init_orderly (hroot : Smooth root) (k : ℕ) : Orderly root k (init root k) := by
  refine ⟨init_tokens root k, init_shared hroot k, rfl, fun i c q prog hq hpc => ?_, Nat.one_pos⟩
  cases i with
  | zero =>
    cases hq
    cases hpc
  | succ i => simp [init] at hq

/-! ### Somebody can go on -/

/-- Some process can take a step. -/
def Enabled (s : State) : Prop := ∃ i s', Jobserver.step s ⟨i, true⟩ = .ok s'

theorem Enabled.of_stepOf (hp : s.procs[i]? = some p) (h : stepOf s i p true = .ok s') : Enabled s :=
  ⟨i, s', (step_eq hp).trans h⟩

theorem le_total {w : Proc → ℕ} (hp : s.procs[i]? = some p) : w p ≤ total w s.procs :=
  List.single_le_sum (fun _ _ => Nat.zero_le _) _ (List.mem_map_of_mem (List.mem_of_getElem? hp))

/-- The pipe has room for the byte of a process that has a token. -/
theorem Tokens.room (h : Tokens k s) (hp : s.procs[i]? = some p) (htoken : 0 < p.token.card) : s.bytes < k := by
  have hle : p.token.card ≤ total (fun q => q.token.card) s.procs := le_total (w := fun q => q.token.card) hp
  have hconserved := h.conserved
  rw [h.held, card_total] at hconserved
  omega

/-- Whoever has a token can go on, or its command can. -/
theorem Orderly.holder (h : Orderly root k s) (hcap : k ≤ CAPACITY) (hp : s.procs[i]? = some p)
    (htoken : 0 < p.token.card) : Enabled s := by
  have hroom := h.tokens.room hp htoken
  cases hpc : p.pc with
  | fork | watcher => exact .of_stepOf hp (by rw [stepOf, hpc])
  | release prog => exact .of_stepOf hp (by rw [stepOf, hpc]; simp only [State.write, if_pos (hroom.trans_le hcap)]; rfl)
  | waitChild c prog =>
    obtain ⟨q, hq, hcmd | hexited⟩ := h.watching i c p prog hp hpc
    · cases hqpc : q.pc with
      | execl | command => exact .of_stepOf hq (by rw [stepOf, hqpc])
      | _ => simp [hqpc, PC.isCommand] at hcmd
    · exact .of_stepOf hp (by rw [stepOf, hpc]; exact if_pos (exited_iff.mpr ⟨q, hq, hexited⟩))
  | _ => simp [Proc.token, hpc] at htoken

/-- A reader is blocked only while others have the tokens. -/
theorem Orderly.acquires (h : Orderly root k s) (hk : 1 ≤ k) (hcap : k ≤ CAPACITY) (hempty : s.bytes = 0) :
    Enabled s := by
  have hconserved := h.tokens.conserved
  by_cases hcard : s.unmatched.card = 0
  · obtain ⟨i, p, hp, hleft⟩ := exists_of_total_pos Proc.left s.procs (by omega)
    cases hpc : p.pc with
    | semInit left =>
      cases left with
      | zero => simp [Proc.left, hpc] at hleft
      | succ left => exact .of_stepOf hp (by rw [stepOf, hpc]; exact if_pos (by omega))
    | _ => simp [Proc.left, hpc] at hleft
  · rw [h.tokens.held, card_total] at hcard
    obtain ⟨i, p, hp, htoken⟩ := exists_of_total_pos _ _ (Nat.pos_of_ne_zero hcard)
    exact h.holder hcap hp htoken

/-- **No deadlock.** As long as `main` has not ended, some process can go on. -/
theorem Orderly.enabled (h : Orderly root k s) (hk : 1 ≤ k) (hcap : k ≤ CAPACITY) (hmain : s.exited 0 = false) :
    Enabled s := by
  obtain ⟨r, hroot⟩ : ∃ r, s.procs[0]? = some r := ⟨_, List.getElem?_eq_getElem h.main⟩
  have halive : r.Alive := fun hn => by
    rw [exited_iff.mpr ⟨r, hroot, hn⟩] at hmain
    cases hmain
  obtain ⟨j, q, hq, hqa, hdead⟩ := h.tokens.waited.exists_last hroot halive
  have hwait : ∀ c ∈ q.awaits, s.exited c = true := fun c hc => by
    obtain ⟨r, hr, hra⟩ := hdead c hc
    exact exited_iff.mpr ⟨r, hr, not_not.mp hra⟩
  cases hpc : q.pc with
  | semInit left =>
    cases left with
    | zero => exact .of_stepOf hq (by rw [stepOf, hpc])
    | succ left =>
      have hle := le_total (w := Proc.left) hq
      have hconserved := h.tokens.conserved
      have hlt : s.bytes < CAPACITY := by
        simp only [Proc.left, hpc] at hle
        omega
      exact .of_stepOf hq (by rw [stepOf, hpc]; exact if_pos hlt)
  | dfs =>
    by_cases ho : q.cwd.opens = true
    · exact .of_stepOf hq (by rw [stepOf, hpc]; exact if_pos ho)
    · exact .of_stepOf hq (by rw [stepOf, hpc]; exact if_neg ho)
  | subdirs todo => cases todo <;> exact .of_stepOf hq (by rw [stepOf, hpc])
  | acquire todo =>
    cases todo with
    | nil => exact .of_stepOf hq (by rw [stepOf, hpc])
    | cons prog todo =>
      by_cases hbytes : 0 < s.bytes
      · exact .of_stepOf hq (by rw [stepOf, hpc]; simp only [State.read, if_pos hbytes]; rfl)
      · exact h.acquires hk hcap (by omega)
  | wait subPids watchPids =>
    have hwait : ∀ c ∈ subPids ++ watchPids, s.exited c = true := by simpa [Proc.awaits, hpc] using hwait
    cases subPids with
    | cons c subPids => exact .of_stepOf hq (by rw [stepOf, hpc]; exact if_pos (hwait c (by simp)))
    | nil =>
      cases watchPids with
      | cons c watchPids => exact .of_stepOf hq (by rw [stepOf, hpc]; exact if_pos (hwait c (by simp)))
      | nil => exact .of_stepOf hq (by rw [stepOf, hpc])
  | waitChild c prog =>
    exact .of_stepOf hq (by rw [stepOf, hpc]; exact if_pos (hwait c (by simp [Proc.awaits, hpc])))
  | release prog => exact h.holder hcap hq (by simp [Proc.token, hpc])
  | exited => exact absurd hpc hqa
  | _ => exact .of_stepOf hq (by rw [stepOf, hpc])

/-- When `main` has ended, everything has been launched and has ended, and all tokens are back. -/
theorem Orderly.complete (h : Orderly root k s) (hmain : s.exited 0 = true) :
    s.launched = root.programs false [] ∧ s.finished = root.programs false [] ∧ s.bytes = k := by
  obtain ⟨r, hr, hexited⟩ := exited_iff.mp hmain
  have hdead : ∀ p ∈ s.procs, p.pc = .exited := fun p hp => by
    obtain ⟨i, hi⟩ := List.mem_iff_getElem?.mp hp
    exact not_not.mp (h.tokens.waited.all_dead hr (not_not.mpr hexited) i p hi)
  have htodo : total Proc.todo s.procs = 0 := total_eq_zero fun p hp => by simp [Proc.todo, hdead p hp]
  have hran : total Proc.ran s.procs = 0 := total_eq_zero fun p hp => by simp [Proc.ran, hdead p hp]
  have hleft : total Proc.left s.procs = 0 := total_eq_zero fun p hp => by simp [Proc.left, hdead p hp]
  have htoken : total Proc.token s.procs = 0 := total_eq_zero fun p hp => by simp [Proc.token, hdead p hp]
  have hlaunched : s.launched = root.programs false [] := by
    have := h.shared.launches
    rwa [htodo, add_zero] at this
  refine ⟨hlaunched, ?_, ?_⟩
  · have := h.ends
    rw [hran, add_zero] at this
    rw [← this, hlaunched]
  · have := h.tokens.conserved
    rwa [h.tokens.held, htoken, hleft] at this

end

/-- Before `main` has ended the processes are not stuck, and then every program of the tree has been launched as often as
it is there, each has ended, and the pipe holds its `k` bytes. -/
def Completes (root : Dir) (k : ℕ) (s : State) : Prop :=
  if s.exited 0 then s.launched = root.programs true [] ∧ s.finished = root.programs true [] ∧ s.bytes = k
  else Enabled s

/-- **Completion.** In a tree in which nothing refuses `chdir` or `opendir`, with as many tokens as the pipe takes, in
every interleaving in which no `execl` fails. -/
theorem jobserver_completes {root : Dir} (hroot : Open root) {k : ℕ} (hk : 1 ≤ k) (hcap : k ≤ CAPACITY) (es : List Event)
    (hes : Along step Execs (init root k) es) :
    Sat (Completes root k) (fun _ => True) (run step (init root k) es) := by
  have hstep : ∀ s e, Orderly root k s → Execs s e → Sat (Orderly root k) (fun _ => True) (step s e) := fun s e h he => by
    cases hs : step s e with
    | error x => trivial
    | ok s' =>
      obtain ⟨p, hp, hsteps⟩ := step_steps hs
      exact h.step hp hsteps fun prog hpc => he p prog hp hpc
  refine (run_sat hstep es (init_orderly hroot.smooth k) hes).mono (fun s h => ?_) fun _ => id
  unfold Completes
  split_ifs with hmain
  · rw [← hroot.programs_eq]
    exact h.complete hmain
  · exact h.enabled hk hcap (by simpa using hmain)

/-- A directory with a program, and with a directory that has another one. -/
def nested : Dir := ⟨true, [.dir "d" true true [.reg "b" false true false], .reg "a" true false false, .other "link"]⟩

theorem nested_open : Open nested := by
  refine ⟨rfl, ?_, ?_⟩
  · simp [nested, Dir.subdirs, scan, isDots, Entry.name]
  · simp only [nested, Dir.subdirs, scan, isDots, Entry.name]
    rintro sub hsub
    simp at hsub
    subst hsub
    exact ⟨rfl, by simp [Dir.subdirs, scan, isDots, Entry.name], by simp [Dir.subdirs, scan, isDots, Entry.name]⟩

theorem jobserver_completes_nested :
    Sat (Completes nested 1) (fun _ => True) (run step (init nested 1)
      (schedule true [(0, 7), (2, 1), (3, 2), (2, 2), (1, 5), (4, 1), (5, 2), (4, 2), (1, 3), (0, 4)])) :=
  jobserver_completes nested_open le_rfl (by decide) _
    (along_mono (fun _ _ h _ _ _ _ => h) _ (by decide +kernel : Along step (fun _ e => e.ok = true) _ _))

end Jobserver
end OsLabs
