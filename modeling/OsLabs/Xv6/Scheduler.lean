/-
# The scheduler is fair

The scheduler of a processor goes round the table and takes up its round where it was when a process comes back. So while a process is
`RUNNABLE` no processor picks more than `NPROC` processes, whatever the others do: each pick brings it nearer to that process.

Key definitions: `cursor`, `picks`.
Key theorem: `picks_le`.
-/
import OsLabs.Xv6.Family

namespace OsLabs
namespace Xv6
namespace Ptable

open Function (update)
open Alarm (NPROC ProcState initproc)
open Run (Sat run Along along_cons_ok)

variable {ι : Type} [DecidableEq ι] {s s' : State ι} {c : ι} {p : Fin NPROC}

/-- The entry at which the scheduler looks next. -/
def cursor : Cpu → ℕ
  | .scheduler => 0
  | .scan n => n
  | .run q => q + 1
  | .enter q => q + 1
  | .leave q => q + 1

/-- How far it is from there to `p`. -/
def distance (p : Fin NPROC) (x : Cpu) : ℕ := if cursor x ≤ p then p - cursor x else NPROC + p - cursor x

/-- The event is a pick of the processor `c`. -/
def Picks (c : ι) (s : State ι) (e : ι × Act) : Prop :=
  e.1 = c ∧ e.2 = .turn ∧ ∃ q : Fin NPROC, s.cpu c = .scan q ∧ (s.procs q).state = .runnable

instance (c : ι) (s : State ι) (e : ι × Act) : Decidable (Picks c s e) := inferInstanceAs (Decidable (_ ∧ _ ∧ _))

/-- How many processes `c` picks in a run. -/
def picks (c : ι) : State ι → List (ι × Act) → ℕ
  | _, [] => 0
  | s, e :: es => (if Picks c s e then 1 else 0) +
    match step s e with
    | .ok s' => picks c s' es
    | .error _ => 0

theorem update_cursor (cpu : ι → Cpu) {c : ι} (x : Cpu) (h : cursor x = cursor (cpu c)) (d : ι) :
    cursor (update cpu c x d) = cursor (cpu d) := by
  rw [Function.update_apply]
  split_ifs with hd
  · rw [h, hd]
  · rfl

/-! On the stack of a process the cursor stays. -/

theorem acquire_cursor (hc : s.cpu c = .run p) (d : ι) : cursor ((acquire s c p).cpu d) = cursor (s.cpu d) :=
  update_cursor s.cpu (.enter p) (by rw [hc]; rfl) d

theorem release_cursor (hc : cursor (s.cpu c) = p + 1) (d : ι) : cursor ((release s c p).cpu d) = cursor (s.cpu d) :=
  update_cursor s.cpu (.run p) hc.symm d

theorem sched_cursor (hc : cursor (s.cpu c) = p + 1) (x : Slot) (d : ι) : cursor ((sched s c p x).cpu d) = cursor (s.cpu d) :=
  update_cursor s.cpu (.leave p) hc.symm d

theorem wait_cursor (hc : cursor (s.cpu c) = p + 1) (d : ι) : cursor ((wait s c p).cpu d) = cursor (s.cpu d) := by
  unfold wait
  cases first fun q => (s.procs q).parent = some p ∧ (s.procs q).state = .zombie with
  | some q => exact update_cursor s.cpu (.run p) hc.symm d
  | none =>
    dsimp only
    split_ifs
    · exact release_cursor hc d
    · exact sched_cursor hc _ d

theorem exit_cursor (hc : cursor (s.cpu c) = p + 1) (d : ι) : cursor ((exit s c p).cpu d) = cursor (s.cpu d) := by
  have hleave := update_cursor s.cpu (.leave p) hc.symm d
  unfold exit
  cases (s.procs p).parent <;> dsimp only <;> split_ifs <;> exact hleave

omit [DecidableEq ι] in
theorem forks_cpu (s : State ι) (p : Fin NPROC) (page : Option ℕ) : (forks s p page).cpu = s.cpu := by
  unfold forks
  cases (s.procs p).task <;> cases page <;> dsimp only <;> (try split_ifs) <;> rfl

theorem act_cursor {a : Act} (hc : s.cpu c = .run p) (h : act s c p a = .ok s') (d : ι) : cursor (s'.cpu d) = cursor (s.cpu d) := by
  have hacq := acquire_cursor hc d
  have hpos : cursor ((acquire s c p).cpu c) = p + 1 := by
    rw [acquire_cpu]
    rfl
  have hrelease : ∀ t : State ι, t.cpu = (acquire s c p).cpu → cursor ((release t c p).cpu d) = cursor (s.cpu d) := fun t ht => by
    rw [release_cursor (by rw [ht]; exact hpos), ht, hacq]
  unfold act at h
  cases a with
  | yield =>
    obtain rfl := Except.ok.inj h
    split_ifs
    · exact (sched_cursor hpos _ d).trans hacq
    · rfl
  | forks page =>
    obtain rfl := Except.ok.inj h
    rw [forks_cpu]
  | turn | wakeup n =>
    dsimp only at h
    split_ifs at h <;> obtain rfl := Except.ok.inj h <;> rfl
  | sleep n =>
    dsimp only at h
    split_ifs at h <;> obtain rfl := Except.ok.inj h
    · exact (sched_cursor hpos _ d).trans hacq
    · rfl
  | wait =>
    dsimp only at h
    split_ifs at h <;> obtain rfl := Except.ok.inj h
    · exact (wait_cursor hpos d).trans hacq
    · rfl
  | exit =>
    dsimp only at h
    split_ifs at h <;> obtain rfl := Except.ok.inj h
    · exact (exit_cursor hpos d).trans hacq
    · rfl
  | kill pid =>
    dsimp only at h
    split_ifs at h <;> obtain rfl := Except.ok.inj h
    · exact hrelease _ (kill_cpu _ pid)
    · rfl
  | fork =>
    dsimp only at h
    split_ifs at h <;> obtain rfl := Except.ok.inj h
    · exact hrelease _ (fork_cpu _ p)
    · rfl

/-! ### The round -/

theorem distance_lt (p : Fin NPROC) {x : Cpu} (h : cursor x ≤ NPROC) : distance p x < NPROC := by
  have hp := p.isLt
  unfold distance
  split_ifs <;> omega

theorem distance_congr {x y : Cpu} (h : cursor x = cursor y) : distance p x = distance p y := by
  unfold distance
  rw [h]

/-- The next entry, unless this one is `p`. -/
theorem distance_succ {x y : Cpu} (hx : cursor x < NPROC) (hp : cursor x ≠ p) (hy : cursor y = cursor x + 1) :
    distance p y + 1 ≤ distance p x := by
  have hlt := p.isLt
  unfold distance
  rw [hy]
  split_ifs <;> omega

/-- Outside of the loop of `scheduler`. -/
theorem turn_cursor (hc : ∀ n, s.cpu c ≠ .scan n) (h : turn s c = .ok s') (d : ι) : cursor (s'.cpu d) = cursor (s.cpu d) := by
  unfold turn at h
  cases hcpu : s.cpu c with
  | scan n => exact absurd hcpu (hc n)
  | scheduler =>
    rw [hcpu] at h
    obtain rfl := Except.ok.inj h
    split_ifs
    · exact update_cursor s.cpu (.scan 0) (by rw [hcpu]; rfl) d
    · rfl
  | run q =>
    rw [hcpu] at h
    obtain rfl := Except.ok.inj h
    rfl
  | enter q =>
    have hpos : cursor (s.cpu c) = q + 1 := by rw [hcpu]; rfl
    rw [hcpu] at h
    dsimp only at h
    cases hk : (s.procs q).cont with
    | forkret | yield | sleep | wait =>
      rw [hk] at h
      obtain rfl := Except.ok.inj h
      first
        | exact release_cursor hpos d
        | exact wait_cursor (s := clear s q) hpos d
    | exit =>
      rw [hk] at h
      cases h
  | leave q =>
    rw [hcpu] at h
    obtain rfl := Except.ok.inj h
    exact update_cursor s.cpu (.scan (q + 1)) (by rw [hcpu]; rfl) d

theorem distance_scheduler (p : Fin NPROC) {n : ℕ} (hn : n = NPROC) : distance p .scheduler = distance p (.scan n) := by
  have hp := p.isLt
  have h0 : cursor .scheduler = 0 := rfl
  have h1 : cursor (.scan n) = n := rfl
  unfold distance
  split_ifs <;> omega

/-- A processor in the loop comes nearer to a runnable process with each pick of another one. -/
theorem scan_distance {n : ℕ} (hc : s.cpu c = .scan n) (hp : (s.procs p).state = .runnable) (hn : n ≤ NPROC)
    (h : turn s c = .ok s') (hp' : (s'.procs p).state = .runnable) :
    distance p (s'.cpu c) + (if Picks c s (c, .turn) then 1 else 0) ≤ distance p (s.cpu c) ∧ cursor (s'.cpu c) ≤ NPROC := by
  unfold turn at h
  rw [hc] at h
  dsimp only at h
  have hother : ∀ hlt : n < NPROC, (s.procs ⟨n, hlt⟩).state ≠ .runnable → ¬ Picks c s (c, .turn) := by
    rintro hlt hstate ⟨-, -, q, hq, hrun⟩
    obtain rfl := Cpu.scan.inj (hc.symm.trans hq)
    exact hstate hrun
  split_ifs at h with hlt hrun <;> obtain rfl := Except.ok.inj h
  · -- Another one is picked.
    have hne : n ≠ p := by
      rintro rfl
      simp [set_procs] at hp'
    have hdist := distance_succ (p := p) (x := .scan n) (y := .enter ⟨n, hlt⟩) hlt hne rfl
    dsimp only
    rw [Function.update_self, hc]
    refine ⟨le_trans ?_ hdist, hlt⟩
    split_ifs <;> omega
  · have hne : n ≠ p := by
      rintro rfl
      exact hrun hp
    have hdist := distance_succ (p := p) (x := .scan n) (y := .scan (n + 1)) hlt hne rfl
    dsimp only
    rw [Function.update_self, hc, if_neg (hother hlt hrun)]
    exact ⟨by omega, hlt⟩
  · have hpick : ¬ Picks c s (c, .turn) := by
      rintro ⟨-, -, q, hq, -⟩
      obtain rfl := Cpu.scan.inj (hc.symm.trans hq)
      exact hlt q.isLt
    dsimp only
    rw [Function.update_self, hc, if_neg hpick]
    exact ⟨(distance_scheduler p (by omega)).le, Nat.zero_le _⟩

/-- The processors are within the table. -/
def Bounded (s : State ι) : Prop := ∀ c, cursor (s.cpu c) ≤ NPROC

theorem turn_cpu {d : ι} (hd : d ≠ c) (h : turn s c = .ok s') : cursor (s'.cpu d) = cursor (s.cpu d) := by
  by_cases hc : ∃ n, s.cpu c = .scan n
  · obtain ⟨n, hc⟩ := hc
    unfold turn at h
    rw [hc] at h
    dsimp only at h
    split_ifs at h <;> obtain rfl := Except.ok.inj h <;> exact congrArg cursor (Function.update_of_ne hd ..)
  · exact turn_cursor (not_exists.mp hc) h d

/-- A step, whoever makes it. -/
theorem step_distance {e : ι × Act} (hp : (s.procs p).state = .runnable) (hbound : Bounded s) (h : step s e = .ok s')
    (hp' : (s'.procs p).state = .runnable) (c : ι) :
    distance p (s'.cpu c) + (if Picks c s e then 1 else 0) ≤ distance p (s.cpu c) ∧ cursor (s'.cpu c) ≤ NPROC := by
  obtain ⟨d, a⟩ := e
  -- Where nothing is picked and the cursor stays.
  have hsame : ¬ Picks c s (d, a) → cursor (s'.cpu c) = cursor (s.cpu c) →
      distance p (s'.cpu c) + (if Picks c s (d, a) then 1 else 0) ≤ distance p (s.cpu c) ∧ cursor (s'.cpu c) ≤ NPROC := by
    intro hpick hcur
    rw [if_neg hpick, hcur]
    exact ⟨(distance_congr hcur).le, hbound c⟩
  cases a with
  | turn =>
    by_cases hdc : c = d
    · obtain rfl := hdc
      by_cases hc : ∃ n, s.cpu c = .scan n
      · obtain ⟨n, hc⟩ := hc
        have hn := hbound c
        rw [hc] at hn
        exact scan_distance hc hp hn h hp'
      · have hpick : ¬ Picks c s (c, .turn) := by
          rintro ⟨-, -, q, hq, -⟩
          exact hc ⟨q, hq⟩
        exact hsame hpick (turn_cursor (not_exists.mp hc) h c)
    · exact hsame (fun hpick => hdc hpick.1.symm) (turn_cpu hdc h)
  | wakeup n =>
    refine hsame (fun hpick => by simpa using hpick.2.1) ?_
    obtain rfl := Except.ok.inj h
    split_ifs <;> rfl
  | _ =>
    refine hsame (fun hpick => by simpa using hpick.2.1) ?_
    unfold step at h
    dsimp only at h
    cases hd : s.cpu d with
    | run q =>
      rw [hd] at h
      exact act_cursor hd h c
    | _ =>
      rw [hd] at h
      obtain rfl := Except.ok.inj h
      rfl

theorem bounded_micro (h : Bounded s) (hstep : Micro s s') : Bounded s' := by
  have hmove : ∀ {c : ι} {x : Cpu}, cursor x ≤ NPROC → ∀ d, cursor (update s.cpu c x d) ≤ NPROC := fun {c x} hx d => by
    rw [Function.update_apply]
    split_ifs
    · exact hx
    · exact h d
  cases hstep with
  | acquire | rest => exact hmove (Nat.zero_le _)
  | skip _ hn => exact hmove hn
  | @grab c p | @release c p | @pick c _ p | @leave c p | @switch c p => exact hmove p.isLt
  | clear | wakeup | kill | adopt | reap | fork => exact h
  | forks hc hforks => cases hforks <;> exact h

theorem picks_le_distance (p : Fin NPROC) (c : ι) : ∀ {s : State ι} (es : List (ι × Act)), Bounded s →
    Along step (fun s _ => (s.procs p).state = .runnable) s es → picks c s es ≤ distance p (s.cpu c) + 1
  | _, [], _, _ => Nat.zero_le _
  | s, e :: es, hbound, halong => by
    unfold picks
    cases hs : step s e with
    | error x =>
      dsimp only
      split_ifs <;> omega
    | ok s' =>
      dsimp only
      rw [along_cons_ok hs] at halong
      by_cases hp' : (s'.procs p).state = .runnable
      · have hnear := (step_distance halong.1 hbound hs hp' c).1
        have hrest := picks_le_distance p c es (fun d => (step_distance halong.1 hbound hs hp' d).2) halong.2
        omega
      · -- The last event of the run.
        cases es with
        | nil =>
          show _ + 0 ≤ _
          split_ifs <;> omega
        | cons e' es' => exact absurd halong.2.1 hp'

/-- **No process starves.** From any state that a run reaches, while a process is runnable each processor picks at most `NPROC` processes, that
one included, whatever happens. -/
theorem picks_le (page : ℕ) (es : List (ι × Act)) (p : Fin NPROC) (c : ι) :
    Sat (fun s => ∀ fs : List (ι × Act), Along step (fun s _ => (s.procs p).state = .runnable) s fs → picks c s fs ≤ NPROC)
      (· = .initExiting) (run step (boot page) es) := by
  have hboot : Bounded (boot page : State ι) := fun c => Nat.zero_le _
  refine (run_inv page hboot (fun _ _ _ h hmicro => bounded_micro h hmicro) es).mono (fun s ⟨_, h⟩ fs hfs => ?_) fun _ => id
  exact (picks_le_distance p c fs h hfs).trans (distance_lt p (h c))

end Ptable
end Xv6
end OsLabs
