/-
# The semaphore of the jobserver

Between `acquire` and `release` a token belongs to the process that runs `dfs`, and from the fork on to the
watcher, which gives it back when its command has ended. So the bytes in the pipe and the processes with a token
are `k` together, and each command runs under a watcher of its own.

This holds as long as no `execl` fails. The child of a watcher whose `execl` has failed goes on behind the call,
into the code of the watcher, and calls `release` too.
-/
import OsLabs.Jobserver.Machine

namespace OsLabs
namespace Jobserver

open Processes Run

/-! ### Parents and children -/

/-- The children for which a process has still to wait. -/
def Proc.awaits (p : Proc) : List ℕ :=
  match p.pc with
  | .subdirs _ _ subPids => subPids
  | .acquire _ subPids watchPids | .fork _ _ subPids watchPids | .wait subPids watchPids => subPids ++ watchPids
  | .waitChild c _ => [c]
  | _ => []

abbrev Proc.Alive (p : Proc) : Prop := p.pc ≠ .exited

abbrev Waited (ps : List Proc) : Prop := Family Proc.parent Proc.awaits Proc.Alive ps

section

variable {s s' : State} {i c : ℕ} {p p' child : Proc} {ok : Bool}

theorem exited_dead (h : s.exited c = true) {q : Proc} (hq : s.procs[c]? = some q) : ¬ q.Alive := by
  obtain ⟨r, hr, hpc⟩ := exited_iff.mp h
  rw [hq] at hr
  cases hr
  exact not_not.mpr hpc

theorem Quiet.waited (h : Quiet s p p') (hw : Waited s.procs) (hp : s.procs[i]? = some p) :
    Waited (s.goes i p').procs := by
  have hkeep : p.Alive → p'.parent = p.parent → (∀ c ∈ p.awaits, c ∈ p'.awaits ∨ s.exited c = true) →
      (∀ c ∈ p'.awaits, c ∈ p.awaits) → (¬ p'.Alive → p'.awaits = []) → Waited (s.goes i p').procs :=
    fun ha hpar hkeep hsub hend => hw.next hp ha hpar
      (fun c hc => (hkeep c hc).imp_right fun hex q hq => exited_dead hex hq) (fun c hc => Or.inl (hsub c hc)) hend nofun
  -- `waitpid` returns for the first one
  have hfirst : ∀ {c : ℕ} {rest : List ℕ}, p.awaits = c :: rest → p'.awaits = rest → s.exited c = true →
      ∀ c' ∈ p.awaits, c' ∈ p'.awaits ∨ s.exited c' = true := fun hold hnew hc c' hc' => by
    rw [hold] at hc'
    rcases List.mem_cons.mp hc' with rfl | hc'
    · exact Or.inr hc
    · exact Or.inl (hnew ▸ hc')
  cases h with
  | dfs h | scan h | waitNone h =>
    exact hkeep (by simp [Proc.Alive, h]) rfl (by simp [Proc.awaits, h]) (by simp [Proc.awaits]) (by simp)
  | chdir h => exact hkeep (by simp [Proc.Alive, h]) (by simp) (by simp [Proc.awaits, h]) (by simp [Proc.awaits]) (by simp)
  | crash h | done h =>
    exact hkeep (by simp [Proc.Alive, h]) rfl (by simp [Proc.awaits, h]) (by simp [Proc.awaits]) (by simp [Proc.awaits])
  | forked h | started h =>
    exact hkeep (by simp [Proc.Alive, h]) rfl (by simp +contextual [Proc.awaits, h]) (by simp [Proc.awaits, h]) (by simp)
  | waitSub h hc | waitWatch h hc =>
    exact hkeep (by simp [Proc.Alive, h]) rfl (hfirst (by rw [Proc.awaits, h]; rfl) rfl hc)
      (by simp +contextual [Proc.awaits, h]) (by simp)
  | waitChild h hc =>
    refine hkeep (by simp [Proc.Alive, h]) rfl (fun c' hc' => Or.inr ?_) (by simp [Proc.awaits]) (by simp)
    simp only [Proc.awaits, h, List.mem_singleton] at hc'
    exact hc' ▸ hc

theorem Forks.waited (h : Forks s i p p' child) (hw : Waited s.procs) (hp : s.procs[i]? = some p) :
    Waited (s.forks i p' child).procs := by
  cases h with
  | subdir h =>
    refine hw.next hp (by simp [Proc.Alive, h]) rfl (fun c hc => Or.inl ?_) (fun c hc => ?_) (by simp) fun q hq => ?_
    · simp_all [Proc.awaits]
    · simpa [Proc.awaits, h] using hc
    · cases hq
      simp [Proc.awaits]
  | watcher h =>
    refine hw.next hp (by simp [Proc.Alive, h]) rfl (fun c hc => Or.inl ?_) (fun c hc => ?_) (by simp) fun q hq => ?_
    · simp only [Proc.awaits, h, Proc.goto_pc, List.mem_append] at hc ⊢
      tauto
    · simp only [Proc.awaits, h, Proc.goto_pc, List.mem_append, List.mem_singleton] at hc ⊢
      simp only [Option.isSome_some, true_and]
      tauto
    · cases hq
      simp [Proc.awaits]
  | command h =>
    refine hw.next hp (by simp [Proc.Alive, h]) rfl (by simp [Proc.awaits, h]) (fun c hc => ?_) (by simp) fun q hq => ?_
    · simpa [Proc.awaits, h] using hc
    · cases hq
      simp [Proc.awaits]

/-- A process that awaits nobody and goes on, or ends. -/
theorem Waited.goes (hw : Waited s.procs) (hp : s.procs[i]? = some p) (ha : p.Alive) {pc : PC}
    (hold : p.awaits = []) (hnew : (p.goto pc).awaits = []) : Waited (s.goes i (p.goto pc)).procs :=
  hw.next hp ha rfl (by simp [hold]) (by simp [hnew]) (fun _ => hnew) nofun

theorem Steps.waited (h : Steps s i p ok s') (hw : Waited s.procs) (hp : s.procs[i]? = some p) : Waited s'.procs := by
  cases h with
  | quiet h => exact h.waited hw hp
  | forks h => exact h.waited hw hp
  | post h | release h | launch h | fail h | finish h =>
    exact hw.goes hp (by simp [Proc.Alive, h]) (by simp [Proc.awaits, h]) rfl
  | acquire h =>
    exact hw.next hp (by simp [Proc.Alive, h]) rfl (by simp +contextual [Proc.awaits, h]) (by simp [Proc.awaits, h])
      (by simp) nofun

theorem init_waited (root : Dir) (k : ℕ) : Waited (init root k).procs := by
  have hmain : ∀ (i : ℕ) (p : Proc), (init root k).procs[i]? = some p → i = 0 ∧ p.awaits = [] := fun i p hp => by
    cases i with
    | zero => cases hp; exact ⟨rfl, rfl⟩
    | succ i => simp [init] at hp
  exact ⟨fun c p hp _ hc => absurd (hmain c p hp).1 hc, fun i p hp c hc => by simp [(hmain i p hp).2] at hc,
    fun i p hp _ => (hmain i p hp).2⟩

end

/-! ### Tokens -/

/-- The program for which the process has a token. -/
def Proc.token (p : Proc) : Multiset Path :=
  match p.pc with
  | .fork prog _ _ _ | .watcher prog | .waitChild _ prog | .release prog => {p.file prog}
  | _ => 0

/-- What `sem_init` has still to write. -/
def Proc.left (p : Proc) : ℕ :=
  match p.pc with
  | .semInit left => left
  | _ => 0

/-- The process is to be, or is, a user's command. -/
def PC.isCommand : PC → Bool
  | .execl _ | .command _ => true
  | _ => false

def PC.isRunning : PC → Bool
  | .command _ => true
  | _ => false

/-- How many of the user's commands run. -/
def State.running (s : State) : ℕ := total (fun p => if p.pc.isRunning = true then 1 else 0) s.procs

/-- A command is awaited by a watcher of its own. -/
def Attended (ps : List Proc) : Prop :=
  ∀ (c : ℕ) (p : Proc), ps[c]? = some p → p.pc.isCommand = true →
    ∃ q prog, ps[p.parent]? = some q ∧ q.pc = .waitChild c prog

/-- What every step keeps that is not a failing `execl`. -/
structure Tokens (k : ℕ) (s : State) : Prop where
  waited : Waited s.procs
  conserved : s.bytes + s.unmatched.card + total Proc.left s.procs = k
  held : s.unmatched = total Proc.token s.procs
  attended : Attended s.procs
  succeeded : ∀ p ∈ s.procs, ∀ prog, p.pc ≠ .waitNone prog

section

variable {s s' : State} {i k : ℕ} {p p' : Proc} {child : Option Proc} {ok : Bool}

theorem Attended.next (h : Attended s.procs) (hw : Waited s.procs) (hp : s.procs[i]? = some p)
    (hself : p'.pc.isCommand = true → p.pc.isCommand = true ∧ p'.parent = p.parent)
    (hwait : ∀ c prog, p.pc = .waitChild c prog → s.exited c = true)
    (hchild : ∀ q, child = some q → q.pc.isCommand = true →
      q.parent = i ∧ ∃ prog, p'.pc = .waitChild s.procs.length prog) :
    Attended (next s.procs i p' child) := by
  intro c q hq hcmd
  rcases next_cases hq with ⟨rfl, rfl⟩ | ⟨hci, hq⟩ | ⟨rfl, hchildq⟩
  · obtain ⟨hcmd, hpar⟩ := hself hcmd
    obtain ⟨r, prog, hr, hpc⟩ := h c p hp hcmd
    have hlt := (hw.later _ r hr c (by simp [Proc.awaits, hpc])).1
    rw [hpar]
    exact ⟨r, prog, next_other (by omega) hr, hpc⟩
  · obtain ⟨r, prog, hr, hpc⟩ := h c q hq hcmd
    by_cases hri : q.parent = i
    · rw [hri, hp] at hr
      cases hr
      have halive : q.Alive := fun hn => by simp [hn, PC.isCommand] at hcmd
      exact absurd halive (exited_dead (hwait c prog hpc) hq)
    · exact ⟨r, prog, next_other hri hr, hpc⟩
  · obtain ⟨hpar, prog, hpc⟩ := hchild q hchildq hcmd
    rw [hpar]
    exact ⟨p', prog, next_self hp, hpc⟩

theorem Steps.attended (h : Steps s i p ok s') (hw : Waited s.procs) (ha : Attended s.procs)
    (hp : s.procs[i]? = some p) : Attended s'.procs := by
  cases h with
  | quiet h =>
    refine ha.next hw hp (fun hcmd => ?_) (fun c prog hpc => ?_) nofun
    · cases h <;> simp [PC.isCommand] at hcmd
    · cases h <;> simp_all
  | forks h =>
    refine ha.next hw hp (fun hcmd => ?_) (fun c prog hpc => ?_) fun q hq hcmd => ?_
    · cases h <;> simp [PC.isCommand] at hcmd
    · cases h <;> simp_all
    · cases hq
      cases h with
      | subdir => simp [PC.isCommand] at hcmd
      | watcher => simp [PC.isCommand] at hcmd
      | command => exact ⟨rfl, _, rfl⟩
  | launch h => exact ha.next hw hp (fun _ => ⟨by simp [h, PC.isCommand], rfl⟩) (by simp [h]) nofun
  | post h | acquire h | release h | fail h | finish h =>
    exact ha.next hw hp (by simp [PC.isCommand]) (by simp [h]) nofun

theorem Quiet.left (h : Quiet s p p') : p'.left = p.left := by cases h <;> simp [Proc.left, *]

theorem Quiet.token (h : Quiet s p p') (hn : ∀ prog, p.pc ≠ .waitNone prog) : p'.token = p.token := by
  cases h with
  | waitNone h => exact absurd h (hn _)
  | _ => simp [Proc.token, Proc.file, *]

theorem Quiet.succeeds (h : Quiet s p p') (prog : String) : p'.pc ≠ .waitNone prog := by cases h <;> simp

theorem Forks.left {q : Proc} (h : Forks s i p p' q) : p'.left + q.left = p.left := by cases h <;> simp [Proc.left, *]

theorem Forks.token {q : Proc} (h : Forks s i p p' q) : p'.token + q.token = p.token := by
  cases h <;> simp [Proc.token, Proc.file, *]

theorem Forks.succeeds {q : Proc} (h : Forks s i p p' q) (prog : String) :
    p'.pc ≠ .waitNone prog ∧ q.pc ≠ .waitNone prog := by cases h <;> simp

/-- The process has its token, and nobody else has it. -/
theorem Tokens.held_cons (h : Tokens k s) (p' : Proc) (hp : s.procs[i]? = some p) {f : Path} (hf : p.token = {f}) (hp' : p'.token = 0) :
    s.unmatched = f ::ₘ total Proc.token (next s.procs i p' none) := by
  have := total_next Proc.token p' none hp
  rw [hf, hp'] at this
  rw [h.held, ← Multiset.singleton_add, add_comm, this]
  simp

theorem Tokens.step (h : Tokens k s) (hp : s.procs[i]? = some p) (hs : Steps s i p ok s')
    (hok : ∀ prog, p.pc = .execl prog → ok = true) : Tokens k s' := by
  have hwaited := hs.waited h.waited hp
  have hattended := hs.attended h.waited h.attended hp
  have hconserved := h.conserved
  have hgoes : ∀ pc, (∀ prog, pc ≠ .waitNone prog) → ∀ q ∈ next s.procs i (p.goto pc) none, ∀ prog, q.pc ≠ .waitNone prog :=
    fun _ hpc => next_forall h.succeeded hpc nofun
  cases hs with
  | @quiet p' hq =>
    have hleft := total_goes Proc.left p' hp hq.left
    have htoken := total_goes Proc.token p' hp (hq.token (h.succeeded p (List.mem_of_getElem? hp)))
    exact ⟨hwaited, by rw [State.goes, hleft, hconserved], h.held.trans htoken.symm, hattended,
      next_forall h.succeeded hq.succeeds nofun⟩
  | @forks p' q hf =>
    have hleft := total_forks Proc.left hp hf.left
    have htoken := total_forks Proc.token hp hf.token
    refine ⟨hwaited, by rw [State.forks, hleft, hconserved], h.held.trans htoken.symm, hattended,
      next_forall h.succeeded (fun prog => (hf.succeeds prog).1) ?_⟩
    rintro q ⟨⟩
    exact fun prog => (hf.succeeds prog).2
  | @post left hpc =>
    have hleft : s.bytes + 1 + total Proc.left (next s.procs i (p.goto (.semInit left)) none) =
        s.bytes + total Proc.left s.procs :=
      total_conserve hp (by simp only [Proc.left, hpc, Proc.goto_pc, Option.toList_none, total_nil]; omega)
    have htoken := total_goes Proc.token (p.goto (.semInit left)) hp (by simp [Proc.token, hpc])
    refine ⟨hwaited, ?_, h.held.trans htoken.symm, hattended, hgoes _ (by simp)⟩
    simp only [State.goes]
    omega
  | @acquire prog todo subPids watchPids hpc hbytes =>
    have hleft := total_goes Proc.left (p.goto (.fork prog todo subPids watchPids)) hp
      (by simp [Proc.left, hpc])
    have htoken := total_next Proc.token (p.goto (.fork prog todo subPids watchPids)) none hp
    refine ⟨hwaited, ?_, ?_, hattended, hgoes _ (by simp)⟩
    · simp only [State.goes, hleft, Multiset.card_cons]
      omega
    · simp only [Proc.token, hpc, Proc.goto_pc, add_zero, Option.toList_none, total_nil] at htoken
      show p.file prog ::ₘ s.unmatched = total Proc.token (next s.procs i _ none)
      rw [h.held, ← Multiset.singleton_add, add_comm]
      exact htoken.symm
  | @release prog hpc hfull =>
    have hleft := total_goes Proc.left (p.goto .exited) hp (by simp [Proc.left, hpc])
    have hcons := h.held_cons (p.goto .exited) hp (f := p.file prog) (by simp [Proc.token, hpc]) (by simp [Proc.token])
    refine ⟨hwaited, ?_, ?_, hattended, hgoes _ (by simp)⟩
    · simp only [State.goes, hleft]
      rw [hcons, Multiset.card_cons] at hconserved
      rw [hcons, Multiset.erase_cons_head]
      omega
    · show s.unmatched.erase _ = _
      rw [hcons, Multiset.erase_cons_head]
      rfl
  | @launch prog hpc =>
    have hleft := total_goes Proc.left (p.goto (.command prog)) hp (by simp [Proc.left, hpc])
    have htoken := total_goes Proc.token (p.goto (.command prog)) hp (by simp [Proc.token, hpc])
    exact ⟨hwaited, by rw [State.goes, hleft, hconserved], h.held.trans htoken.symm, hattended, hgoes _ (by simp)⟩
  | fail hpc hfail => exact absurd (hok _ hpc) (by simp [hfail])
  | @finish prog hpc =>
    have hleft := total_goes Proc.left (p.goto .exited) hp (by simp [Proc.left, hpc])
    have htoken := total_goes Proc.token (p.goto .exited) hp (by simp [Proc.token, hpc])
    exact ⟨hwaited, by rw [State.goes, hleft, hconserved], h.held.trans htoken.symm, hattended, hgoes _ (by simp)⟩

theorem init_tokens (root : Dir) (k : ℕ) : Tokens k (init root k) := by
  refine ⟨init_waited root k, by simp [init, Proc.left], by simp [init, Proc.token], fun c p hp hcmd => ?_, by simp [init]⟩
  cases c with
  | zero =>
    cases hp
    exact absurd hcmd nofun
  | succ c => simp [init] at hp

/-- Each command that runs has a watcher of its own that waits for it. -/
theorem Tokens.running_le (h : Tokens k s) : s.running ≤ s.unmatched.card := by
  let G (q : Proc) : Prop := ∃ c prog, q.pc = .waitChild c prog
  let partner (c : ℕ) : ℕ := ((s.procs[c]?).map Proc.parent).getD 0
  have hrun : ∀ p : Proc, p.pc.isRunning = true → p.pc.isCommand = true := fun p => by
    cases p.pc <;> simp [PC.isRunning, PC.isCommand]
  have hpartner : ∀ {c : ℕ} {p : Proc}, s.procs[c]? = some p → partner c = p.parent := fun hp => by
    simp [partner, hp]
  classical
  calc s.running ≤ total (fun q => if G q then 1 else 0) s.procs := by
        refine total_le_of_partner partner (fun c p hp hr => ?_) fun c d p q hp hq hr hr' heq => ?_
        · obtain ⟨r, prog, hget, hpc⟩ := h.attended c p hp (hrun p hr)
          exact ⟨r, by rwa [hpartner hp], c, prog, hpc⟩
        · obtain ⟨r, prog, hget, hpc⟩ := h.attended c p hp (hrun p hr)
          obtain ⟨r', prog', hget', hpc'⟩ := h.attended d q hq (hrun q hr')
          rw [hpartner hp, hpartner hq] at heq
          rw [heq, hget'] at hget
          cases hget
          rw [hpc] at hpc'
          cases hpc'
          rfl
    _ ≤ total (fun q => q.token.card) s.procs := total_le_total (fun q => by
        split_ifs with hG
        · obtain ⟨c, prog, hpc⟩ := hG
          simp [Proc.token, hpc]
        · exact Nat.zero_le _) _
    _ = s.unmatched.card := by rw [h.held, card_total]

end

/-- If the step calls `execl`, the call does not return. -/
def Execs (s : State) (e : Event) : Prop := ∀ p prog, s.procs[e.pid]? = some p → p.pc = .execl prog → e.ok = true

theorem tokens_step {k : ℕ} (s : State) (e : Event) (h : Tokens k s) (he : Execs s e) :
    Sat (Tokens k) (fun _ => True) (step s e) := by
  cases hs : step s e with
  | ok s' =>
    obtain ⟨p, hp, hsteps⟩ := step_steps hs
    exact h.step hp hsteps fun prog hpc => he p prog hp hpc
  | error x => trivial

/-- No more than `k` tokens are there, and no more commands run at the same time. -/
def Limited (k : ℕ) (s : State) : Prop := s.bytes + s.unmatched.card ≤ k ∧ s.running ≤ k

instance (k : ℕ) : DecidablePred (Limited k) := fun _ => inferInstanceAs (Decidable (_ ∧ _))

theorem Tokens.limited {k : ℕ} {s : State} (h : Tokens k s) : Limited k s := by
  have hconserved := h.conserved
  have hrunning := h.running_le
  exact ⟨by omega, by omega⟩

/-- **The limit.** In every tree, in every interleaving of the processes in which no `execl` fails, the bytes in the
pipe and the programs that are acquired and not released are at most `k`, and at most `k` commands run. -/
theorem semaphore_limited (root : Dir) (k : ℕ) (es : List Event) (h : Along step Execs (init root k) es) :
    Sat (Limited k) (fun _ => True) (run step (init root k) es) :=
  (run_sat tokens_step es (init_tokens root k) h).mono (fun _ h => h.limited) fun _ => id

/-- A directory with three programs. -/
def three : Dir := ⟨true, [.reg "a" true true true, .reg "b" true true true, .reg "c" true true true]⟩

/-- Each of the processes takes so many steps, one after the other. -/
def schedule (ok : Bool) (turns : List (ℕ × ℕ)) : List Event :=
  turns.flatMap fun turn => List.replicate turn.2 ⟨turn.1, ok⟩

/-- The first program is launched and ends, and then the next one. -/
theorem semaphore_limited_one :
    Sat (Limited 1) (fun _ => True) (run step (init three 1) (schedule true [(0, 6), (1, 1), (2, 2), (1, 2), (0, 2), (3, 1)])) :=
  semaphore_limited three 1 _ (along_mono (fun _ _ h _ _ _ _ => h) _ (by decide +kernel : Along step (fun _ e => e.ok = true) _ _))

/-- The first `execl` fails: the pipe holds two bytes, and the other two programs run at the same time. -/
theorem exec_fails :
    (run step (init three 1) (schedule false [(0, 6), (1, 1), (2, 3), (1, 2)])).toOption.map State.bytes = some 2 ∧
      (run step (init three 1) (schedule false [(0, 6), (1, 1), (2, 3), (1, 2)] ++
        schedule true [(0, 2), (3, 1), (4, 1), (0, 2), (5, 1), (6, 1)])).toOption.map State.running = some 2 := by
  decide +kernel

end Jobserver
end OsLabs
