/-
# The logs together are the stream

In every state in which the log has been opened, the files in their places, with the buffer behind the current one, hold
the chunks that have been written, one list for each rotation. Signals and flushes do not change this, and
every step of the program keeps it.

Key definitions: `Running`, `Collected`.
-/
import OsLabs.Logger.Rotation

namespace OsLabs
namespace Logger

open Run
open Function (update)

/-- The place that is empty, of `n` files. -/
def hole (n : ℕ) : PC → ℕ
  | .shift i _ _ => i.toNat + 1
  | .close _ | .reopen _ => 0
  | _ => n

/-- The chunk that has been read and not been written. -/
def pending : PC → List (List Byte)
  | .check buff | .shift _ _ buff | .close buff | .reopen buff | .clear buff | .puts buff => [buff]
  | _ => []

/-- What `max_idx` is with `n` files, and where the loop of `rotate` is. -/
def Indexed (f : Path) (n : ℕ) (maxIdx : ℤ) : PC → Prop
  | .shift i nxt _ => (maxIdx + 1 = n ∧ n ≤ INT_MAX) ∧ ∃ m : ℕ, i = m ∧ m < n ∧ nxt = numbered f (m + 1)
  | .close _ | .reopen _ => maxIdx + 1 = n ∧ n ≤ INT_MAX
  | _ => maxIdx + 2 = n ∧ n ≤ INT_MAX + 1

/-- The log has been opened; `rest` are the inodes of the older files. -/
structure Running (f : Path) (old stream : List Byte) (s : State) (rest : List ℕ) : Prop where
  chain : Chain (s.fs.dir ∘ place f) (s.log :: rest) (hole (s.log :: rest).length s.pc)
  nodup : (s.log :: rest).Nodup
  texts : text old s.track = (s.fs.data s.log ++ s.buf) :: rest.map s.fs.data
  account : s.track.reverse.flatten ++ pending s.pc ++ chunks s.input = chunks stream
  indexed : Indexed f (s.log :: rest).length s.maxIdx s.pc
  opened : s.pc ≠ .start ∧ s.pc ≠ .opening
  ended : s.pc = .closing ∨ s.pc = .done → s.input = []
  closed : (∃ buff, s.pc = .reopen buff) ∨ s.pc = .done → s.buf = []

/-- The log has not been opened yet, or the process has been killed, or the log is open. -/
inductive Inv (f : Path) (fs : Fs) (stream : List Byte) (s : State) : Prop
  | waits (hpc : s.pc = .start ∨ s.pc = .opening) (hfs : s.fs = fs) (hinput : s.input = stream) (hbuf : s.buf = [])
      (hindex : s.maxIdx = -1) (htrack : s.track = [[]])
  | killed (hpc : s.pc = .killed)
  | runs (rest : List ℕ) (h : Running f ((fs.read f).getD []) stream s rest)

section

variable {f : Path} {old stream : List Byte} {s : State} {rest : List ℕ}

theorem text_ne_nil {t : List Byte} {ts : List (List Byte)} {track : List (List (List Byte))}
    (h : text old track = t :: ts) : track ≠ [] := by
  rintro rfl
  cases h

theorem Running.flush (h : Running f old stream s rest) (n : ℕ) :
    Running f old stream { s with fs := s.fs.append s.log (s.buf.take n), buf := s.buf.drop n } rest := by
  refine ⟨h.chain, h.nodup, ?_, h.account, h.indexed, h.opened, h.ended, fun hpc => ?_⟩
  · have hnotin : s.log ∉ rest := (List.nodup_cons.mp h.nodup).1
    have hrest : rest.map (update s.fs.data s.log (s.fs.data s.log ++ s.buf.take n)) = rest.map s.fs.data :=
      List.map_congr_left fun i hi => Function.update_of_ne (ne_of_mem_of_not_mem hi hnotin) _ _
    show text old s.track = (update s.fs.data s.log _ s.log ++ s.buf.drop n) :: rest.map (update s.fs.data s.log _)
    rw [hrest, Function.update_self, List.append_assoc, List.take_append_drop]
    exact h.texts
  · rw [h.closed hpc]
    exact List.drop_nil

/-- `fclose` flushes all. -/
theorem Running.fclose (h : Running f old stream s rest) :
    Running f old stream { s with fs := s.fs.append s.log s.buf, buf := [] } rest := by
  have hflush := h.flush s.buf.length
  rwa [List.take_length, List.drop_length] at hflush

/-- A step that only goes on. -/
theorem Running.goto (h : Running f old stream s rest) {pc : PC} (needRotate : Bool)
    (hhole : hole (s.log :: rest).length pc = hole (s.log :: rest).length s.pc) (hpending : pending pc = pending s.pc)
    (hindexed : Indexed f (s.log :: rest).length s.maxIdx pc) (hopened : pc ≠ .start ∧ pc ≠ .opening)
    (hended : pc = .closing ∨ pc = .done → s.input = []) (hclosed : (∃ buff, pc = .reopen buff) ∨ pc = .done → s.buf = []) :
    Running f old stream { s with pc := pc, needRotate := needRotate } rest :=
  ⟨by simpa only [hhole] using h.chain, h.nodup, h.texts, by simpa only [hpending] using h.account, hindexed, hopened,
    hended, hclosed⟩

theorem rename_place (f : Path) {fs : Fs} {cur nxt : Path} {m i : ℕ} (hcur : entry cur = place f m)
    (hnxt : entry nxt = place f (m + 1)) (hget : fs.dir (place f m) = some i) (hfree : fs.dir (place f (m + 1)) = none) :
    (fs.rename cur nxt).dir ∘ place f = update (update (fs.dir ∘ place f) m none) (m + 1) (some i) := by
  have hmove : ∃ hold, fs.rename cur nxt = fs.move (entry cur) (entry nxt) i hold := by
    unfold Fs.rename
    split
    · next hnone =>
      rw [hcur, hget] at hnone
      cases hnone
    · next j hsome =>
      have hij : i = j := by
        rw [hcur, hget] at hsome
        exact Option.some.inj hsome
      subst hij
      rw [if_neg (by rw [hnxt, hfree]; exact (Option.some_ne_none i).symm)]
      exact ⟨hsome, rfl⟩
  obtain ⟨hold, hmove⟩ := hmove
  rw [hmove]
  show update (update fs.dir (entry cur) none) (entry nxt) (some i) ∘ place f = _
  rw [hcur, hnxt, Function.update_comp_eq_of_injective _ (place_injective f),
    Function.update_comp_eq_of_injective _ (place_injective f)]

/-- The file in front of the hole is renamed. -/
theorem rename_chain {fs : Fs} {inos : List ℕ} {cur nxt : Path} {m : ℕ} (h : Chain (fs.dir ∘ place f) inos (m + 1))
    (hlt : m < inos.length) (hcur : entry cur = place f m) (hnxt : entry nxt = place f (m + 1)) :
    Chain ((fs.rename cur nxt).dir ∘ place f) inos m := by
  have hi : inos[m]? = some inos[m] := List.getElem?_eq_getElem hlt
  have hget : fs.dir (place f m) = some inos[m] := by
    have := h m
    rwa [if_pos (Nat.lt_succ_self m), hi] at this
  have hfree : fs.dir (place f (m + 1)) = none := by
    have := h (m + 1)
    rwa [if_neg (by omega), if_pos rfl] at this
  rw [rename_place f hcur hnxt hget hfree]
  exact h.rename hi

/-- A rename in the loop of `rotate` or behind it. -/
theorem Running.rename (h : Running f old stream s rest) {m : ℕ} {nxt cur : Path} {b : List Byte} {pc : PC}
    (hpc : s.pc = .shift m nxt b) (hcur : entry cur = place f m) (hhole : hole (s.log :: rest).length pc = m)
    (hpending : pending pc = [b]) (hindexed : Indexed f (s.log :: rest).length s.maxIdx pc)
    (hopened : pc ≠ .start ∧ pc ≠ .opening) (hgoes : pc ≠ .closing ∧ pc ≠ .done ∧ ∀ b, pc ≠ .reopen b) :
    Running f old stream { s with fs := s.fs.rename cur nxt, pc := pc } rest := by
  have hchain := h.chain
  have hindex := h.indexed
  rw [hpc] at hchain hindex
  obtain ⟨-, m', hm, hlt, hnxt⟩ := hindex
  obtain rfl : m = m' := by exact_mod_cast hm
  have hchain : Chain (s.fs.dir ∘ place f) (s.log :: rest) (m + 1) := by simpa [hole] using hchain
  have hnext : entry nxt = place f (m + 1) := by
    rw [hnxt]
    rfl
  refine ⟨?_, h.nodup, ?_, ?_, hindexed, hopened, fun hn => ?_, fun hn => ?_⟩
  · show Chain ((s.fs.rename cur nxt).dir ∘ place f) (s.log :: rest) (hole (s.log :: rest).length pc)
    rw [hhole]
    exact rename_chain hchain hlt hcur hnext
  · show text old s.track = ((s.fs.rename cur nxt).data s.log ++ s.buf) :: rest.map (s.fs.rename cur nxt).data
    rw [Fs.rename_data]
    exact h.texts
  · have haccount := h.account
    rw [hpc] at haccount
    show s.track.reverse.flatten ++ pending pc ++ chunks s.input = chunks stream
    rw [hpending]
    exact haccount
  · exact absurd hn (not_or.mpr ⟨hgoes.1, hgoes.2.1⟩)
  · exact absurd hn (not_or.mpr ⟨fun ⟨buff, hb⟩ => hgoes.2.2 buff hb, hgoes.2.1⟩)

/-- `fopen` after a rotation: a new file comes to the first place. -/
theorem Running.reopen (h : Running f old stream s rest) {b : List Byte} (hpc : s.pc = .reopen b) :
    Running f old stream { s with
      fs := (s.fs.fopen f).1, log := (s.fs.fopen f).2, track := [] :: s.track, pc := .clear b } (s.log :: rest) := by
  have hchain := h.chain
  have hindex := h.indexed
  rw [hpc] at hchain hindex
  have hchain : Chain (s.fs.dir ∘ place f) (s.log :: rest) 0 := hchain
  have hfree : s.fs.dir (entry f) = none := by
    have := hchain 0
    rwa [if_neg (by omega), if_pos rfl] at this
  have hopen := Fs.fopen_none hfree
  have hfresh : ∀ i ∈ s.log :: rest, i ≠ s.fs.fresh := fun i hi => by
    obtain ⟨m, hm⟩ := hchain.mem hi
    exact (s.fs.used _ i hm).ne
  have hdata : ∀ i ∈ s.log :: rest, (s.fs.create (entry f)).data i = s.fs.data i := fun i hi =>
    Function.update_of_ne (hfresh i hi) _ _
  rw [hopen]
  refine ⟨?_, List.nodup_cons.mpr ⟨fun hn => hfresh _ hn rfl, h.nodup⟩, ?_, ?_, ?_, by simp, by simp, by simp⟩
  · show Chain (update s.fs.dir (place f 0) (some s.fs.fresh) ∘ place f) (s.fs.fresh :: s.log :: rest) _
    rw [Function.update_comp_eq_of_injective _ (place_injective f)]
    exact hchain.cons s.fs.fresh
  · have hempty : (s.fs.create (entry f)).data s.fs.fresh = [] := Function.update_self _ _ _
    have hbuf := h.closed (Or.inl ⟨b, hpc⟩)
    have htexts := h.texts
    rw [hbuf, List.append_nil] at htexts
    show text old ([] :: s.track) = ((s.fs.create (entry f)).data s.fs.fresh ++ s.buf) ::
      (s.log :: rest).map (s.fs.create (entry f)).data
    rw [text_push (text_ne_nil htexts), htexts, hempty, hbuf, List.map_congr_left hdata]
    rfl
  · have haccount := h.account
    rw [hpc] at haccount
    simpa [pending] using haccount
  · have hindex : s.maxIdx + 1 = ((s.log :: rest).length : ℤ) ∧ ((s.log :: rest).length : ℤ) ≤ INT_MAX := hindex
    show s.maxIdx + 2 = ((s.fs.fresh :: s.log :: rest).length : ℤ) ∧ ((s.fs.fresh :: s.log :: rest).length : ℤ) ≤ INT_MAX + 1
    have hlen : (s.fs.fresh :: s.log :: rest).length = (s.log :: rest).length + 1 := List.length_cons
    omega

/-- `fputs`. -/
theorem Running.puts (h : Running f old stream s rest) (hnul : (0 : Byte) ∉ stream) {b : List Byte} (hpc : s.pc = .puts b) :
    Running f old stream { s with buf := s.buf ++ cstring b, track := record b s.track, pc := .reading } rest := by
  have hchain := h.chain
  have hindex := h.indexed
  have haccount := h.account
  rw [hpc] at hchain hindex haccount
  have hmem : b ∈ chunks stream := by
    rw [← haccount]
    simp [pending]
  have hb : (0 : Byte) ∉ b := fun hn => hnul (by
    rw [← chunks_flatten stream]
    exact List.mem_flatten_of_mem hmem hn)
  refine ⟨hchain, h.nodup, ?_, ?_, hindex, by simp, by simp, by simp⟩
  · show text old (record b s.track) = (s.fs.data s.log ++ (s.buf ++ cstring b)) :: _
    rw [cstring_eq hb, ← List.append_assoc]
    exact text_record h.texts
  · show (record b s.track).reverse.flatten ++ pending .reading ++ chunks s.input = chunks stream
    rw [record_flatten (text_ne_nil h.texts), ← haccount]
    simp [pending]

/-- `fgets`, with something to read. -/
theorem Running.gets (h : Running f old stream s rest) (hpc : s.pc = .reading) (hinput : s.input ≠ []) :
    Running f old stream { s with input := (fgets ROOM s.input).2, pc := .check (fgets ROOM s.input).1 } rest := by
  have hchain := h.chain
  have hindex := h.indexed
  have haccount := h.account
  rw [hpc] at hchain hindex haccount
  refine ⟨hchain, h.nodup, h.texts, ?_, hindex, by simp, by simp, by simp⟩
  rw [← haccount, chunks_cons hinput]
  simp [pending]

/-- The start of `rotate`. -/
theorem Running.rotate (h : Running f old stream s rest) {b : List Byte} (hpc : s.pc = .check b)
    (hint : s.maxIdx + 2 ≤ INT_MAX) :
    Running f old stream { s with
      maxIdx := s.maxIdx + 1, pc := .shift (s.maxIdx + 1) (numbered f (s.maxIdx + 2)) b } rest := by
  have hchain := h.chain
  have hindex := h.indexed
  have haccount := h.account
  rw [hpc] at hchain hindex haccount
  have hindex : s.maxIdx + 2 = ((s.log :: rest).length : ℤ) := hindex.1
  have hlen : (s.log :: rest).length = rest.length + 1 := List.length_cons
  have hwhere : Indexed f (s.log :: rest).length (s.maxIdx + 1) (.shift (s.maxIdx + 1) (numbered f (s.maxIdx + 2)) b) :=
    ⟨⟨by omega, by omega⟩, rest.length, by omega, by omega, by rw [show s.maxIdx + 2 = (rest.length : ℤ) + 1 by omega]⟩
  refine ⟨?_, h.nodup, h.texts, haccount, hwhere, by simp, by simp, by simp⟩
  show Chain _ _ ((s.maxIdx + 1).toNat + 1)
  rwa [show (s.maxIdx + 1).toNat + 1 = (s.log :: rest).length by omega]

/-- The first `fopen`. -/
theorem Running.open {fs : Fs} (hplace : ∀ m, fs.dir (place f (m + 1)) = none) (hfs : s.fs = fs) (hinput : s.input = stream)
    (hbuf : s.buf = []) (hindex : s.maxIdx = -1) (htrack : s.track = [[]]) :
    Running f ((fs.read f).getD []) stream { s with
      fs := (s.fs.fopen f).1, log := (s.fs.fopen f).2, pc := .reading } [] := by
  have hread : fs.read f = (fs.dir (entry f)).map fs.data := rfl
  have hfopen : ∃ i, (fs.fopen f).2 = i ∧ (fs.fopen f).1.dir ∘ place f = update (fs.dir ∘ place f) 0 (some i) ∧
      (fs.fopen f).1.data i = (fs.read f).getD [] := by
    rw [hread]
    cases hdir : fs.dir (entry f) with
    | some i =>
      rw [Fs.fopen_some hdir]
      refine ⟨i, rfl, ?_, rfl⟩
      show fs.dir ∘ place f = _
      rw [← hdir]
      exact (Function.update_eq_self 0 (fs.dir ∘ place f)).symm
    | none =>
      rw [Fs.fopen_none hdir]
      exact ⟨fs.fresh, rfl, Function.update_comp_eq_of_injective _ (place_injective f) 0 _, Function.update_self _ _ _⟩
  obtain ⟨i, hlog, hdir, hdata⟩ := hfopen
  rw [hfs]
  refine ⟨?_, List.nodup_singleton _, ?_, ?_, ?_, by simp, by simp, by simp⟩
  · show Chain ((fs.fopen f).1.dir ∘ place f) [(fs.fopen f).2] 1
    rw [hdir, hlog]
    intro m
    cases m with
    | zero => simp
    | succ m =>
      rw [Function.update_of_ne (Nat.succ_ne_zero m), if_neg (by omega)]
      split_ifs with hm
      · exact hplace m
      · rw [List.getElem?_eq_none (by simp; omega)]
        exact hplace m
  · show text _ s.track = [(fs.fopen f).1.data (fs.fopen f).2 ++ s.buf]
    rw [hlog, hdata, htrack, hbuf]
    simp [text]
  · simp [htrack, hinput, pending]
  · show s.maxIdx + 2 = 1 ∧ (1 : ℤ) ≤ INT_MAX + 1
    exact ⟨by omega, by decide⟩

variable {fs : Fs}

/-- A signal or a flush. -/
theorem Inv.interrupt (h : Inv f fs stream s) {e : Event} (he : e ≠ .run) :
    Sat (Inv f fs stream) (fun x => x = .exited) (step f s e) := by
  cases e with
  | run => exact absurd rfl he
  | hup =>
    cases h with
    | waits hpc hfs hinput hbuf hindex htrack =>
      rcases hpc with hpc | hpc
      · simp only [step, hpc]
        exact .killed rfl
      · simp only [step, hpc]
        exact .waits (Or.inr rfl) hfs hinput hbuf hindex htrack
    | killed hpc =>
      simp only [step, hpc]
      rfl
    | runs rest h =>
      have hgoto := h.goto true rfl rfl h.indexed h.opened h.ended h.closed
      simp only [step]
      split
      · exact .killed rfl
      · rfl
      · rfl
      · exact .runs rest hgoto
  | flush n =>
    cases h with
    | waits hpc hfs hinput hbuf hindex htrack =>
      have hsame : { s with fs := s.fs.append s.log (s.buf.take n), buf := s.buf.drop n } = s := by
        rw [hbuf, List.take_nil, List.drop_nil, Fs.append, List.append_nil, Function.update_eq_self]
        show { s with buf := [] } = s
        rw [← hbuf]
      rcases hpc with hpc | hpc <;>
        · simp only [step, hpc]
          rw [← hpc, hsame]
          exact .waits (by simp [hpc]) hfs hinput hbuf hindex htrack
    | killed hpc =>
      simp only [step, hpc]
      rfl
    | runs rest h =>
      simp only [step]
      split
      · rfl
      · rfl
      · exact .runs rest (h.flush n)

/-- A step of the program. -/
theorem Inv.run (h : Inv f fs stream s) (hrel : Relative f) (hplace : ∀ m, fs.dir (place f (m + 1)) = none)
    (hnul : (0 : Byte) ∉ stream) :
    Sat (Inv f fs stream) (fun x => x = .overflow → s.track.length = 2 ^ 31) (runStep f s) := by
  cases h with
  | waits hpc hfs hinput hbuf hindex htrack =>
    rcases hpc with hpc | hpc
    · rw [runStep, hpc]
      exact .waits (Or.inr rfl) hfs hinput hbuf hindex htrack
    · rw [runStep, hpc]
      exact .runs [] (.open hplace hfs hinput hbuf hindex htrack)
  | killed hpc =>
    rw [runStep, hpc]
    exact nofun
  | runs rest h =>
    have hindex := h.indexed
    cases hpc : s.pc with
    | start => exact absurd hpc h.opened.1
    | opening => exact absurd hpc h.opened.2
    | reading =>
      rw [hpc] at hindex
      simp only [runStep, hpc]
      split_ifs with hinput
      · exact .runs rest (h.goto s.needRotate (by rw [hpc]; rfl) (by rw [hpc]; rfl) hindex (by simp) (fun _ => hinput) (by simp))
      · exact .runs rest (h.gets hpc hinput)
    | check b =>
      rw [hpc] at hindex
      simp only [runStep, hpc]
      split_ifs with hrotate hint
      · intro _
        have hlen := congrArg List.length h.texts
        rw [text_length, List.length_cons, List.length_map] at hlen
        have hindex : s.maxIdx + 2 = ((s.log :: rest).length : ℤ) ∧ ((s.log :: rest).length : ℤ) ≤ INT_MAX + 1 := hindex
        rw [List.length_cons] at hindex
        unfold INT_MAX at hint hindex
        omega
      · exact .runs rest (h.rotate hpc (by omega))
      · exact .runs rest (h.goto s.needRotate (by rw [hpc]; rfl) (by rw [hpc]; rfl) hindex (by simp) (by simp) (by simp))
    | shift i nxt b =>
      rw [hpc] at hindex
      obtain ⟨hmax, m, rfl, hlt, -⟩ := hindex
      simp only [runStep, hpc]
      split_ifs with hm
      · obtain rfl : m = 0 := by exact_mod_cast hm
        exact .runs rest (h.rename hpc (entry_inDir hrel) rfl rfl hmax (by simp) (by simp))
      · obtain ⟨n, rfl⟩ : ∃ n, m = n + 1 := Nat.exists_eq_succ_of_ne_zero (by exact_mod_cast hm)
        have hn : ((n + 1 : ℕ) : ℤ) - 1 = n := by omega
        refine .runs rest (h.rename hpc rfl ?_ rfl ⟨hmax, n, hn, by omega, by push_cast; rfl⟩ (by simp) (by simp))
        rw [hn]
        rfl
    | close b =>
      rw [hpc] at hindex
      simp only [runStep, hpc]
      exact .runs rest (h.fclose.goto s.needRotate (by rw [hpc]; rfl) (by rw [hpc]; rfl) hindex (by simp) (by simp) (fun _ => rfl))
    | reopen b =>
      simp only [runStep, hpc]
      exact .runs _ (h.reopen hpc)
    | clear b =>
      rw [hpc] at hindex
      simp only [runStep, hpc]
      exact .runs rest (h.goto false (by rw [hpc]; rfl) (by rw [hpc]; rfl) hindex (by simp) (by simp) (by simp))
    | puts b =>
      simp only [runStep, hpc]
      exact .runs rest (h.puts hnul hpc)
    | closing =>
      rw [hpc] at hindex
      simp only [runStep, hpc]
      exact .runs rest (h.fclose.goto s.needRotate (by rw [hpc]; rfl) (by rw [hpc]; rfl) hindex (by simp)
        (fun _ => h.ended (Or.inl hpc)) (fun _ => rfl))
    | done | killed =>
      simp only [runStep, hpc]
      exact nofun

end

/-- The files, of which the log and `k` older ones are there, hold what has been written to them: the log has the bytes since
the last rotation, `f.i` those between two of them, each cut is between two chunks, and together they are what was in the
log and the stream. -/
structure Collected (f : Path) (fs : Fs) (stream : List Byte) (k : ℕ) (s : State) : Prop where
  rotations : s.track.length = k + 1
  files : ∀ m, s.fs.dir (place f m) ≠ none ↔ m ≤ k
  texts : ∀ m, (s.fs.dir (place f m)).map s.fs.data = (text ((fs.read f).getD []) s.track)[m]?
  cuts : s.track.reverse.flatten = chunks stream
  whole : ((List.range (k + 1)).reverse.map fun m => ((s.fs.dir (place f m)).map s.fs.data).getD []).flatten =
    (fs.read f).getD [] ++ stream

theorem Running.collected {f : Path} {fs : Fs} {stream : List Byte} {s : State} {rest : List ℕ}
    (h : Running f ((fs.read f).getD []) stream s rest) (hpc : s.pc = .done) :
    Collected f fs stream rest.length s := by
  have hchain := h.chain
  have haccount := h.account
  have hinput := h.ended (Or.inr hpc)
  have htexts := h.texts
  rw [h.closed (Or.inr hpc), List.append_nil] at htexts
  rw [hpc] at hchain haccount
  have hdir : ∀ m, s.fs.dir (place f m) = (s.log :: rest)[m]? := Chain.last hchain
  have hread : ∀ m, (s.fs.dir (place f m)).map s.fs.data = (text ((fs.read f).getD []) s.track)[m]? := fun m => by
    rw [hdir, htexts, ← List.map_cons, List.getElem?_map]
  have hlen : (text ((fs.read f).getD []) s.track).length = rest.length + 1 := by
    rw [htexts, List.length_cons, List.length_map]
  have hcuts : s.track.reverse.flatten = chunks stream := by
    rw [← haccount, hinput, chunks_nil]
    simp [pending]
  refine ⟨by rw [← text_length, hlen], fun m => ?_, hread, hcuts, ?_⟩
  · rw [hdir]
    simp only [ne_eq, List.getElem?_eq_none_iff, List.length_cons]
    omega
  · have hmap : (List.range (rest.length + 1)).map (fun m => ((s.fs.dir (place f m)).map s.fs.data).getD []) =
        text ((fs.read f).getD []) s.track := by
      refine List.ext_getElem (by simp [hlen]) fun m hm hm' => ?_
      simp [hread, List.getElem?_eq_getElem hm']
    rw [List.map_reverse, hmap, text_flatten (text_ne_nil htexts), hcuts, chunks_flatten]

/-- **Collection.** Whatever the stream without a NUL, the relative name of the log and the files that are there (but for `f.1`,
`f.2`, ...), and wherever signals and flushes come: when the program ends, the files hold the stream, in order. The only fault
is the overflow of `max_idx`, in the rotation after 2^31 - 1 others. -/
theorem logs_collected (f : Path) (hrel : Relative f) (fs : Fs) (hplace : ∀ m, fs.dir (place f (m + 1)) = none)
    (stream : List Byte) (hnul : (0 : Byte) ∉ stream) (es : List Event) :
    Sat (fun s => s.pc = .done → ∃ k, Collected f fs stream k s) (fun _ => True) (run (step f) (init fs stream) es) ∧
      Along (step f) (fun s e => Sat (fun _ => True) (fun x => x = .overflow → s.track.length = 2 ^ 31) (step f s e))
        (init fs stream) es := by
  have hinit : Inv f fs stream (init fs stream) := .waits (Or.inl rfl) rfl rfl rfl rfl rfl
  have hstep : ∀ s e, Inv f fs stream s →
      Sat (Inv f fs stream) (fun x => x = .overflow → s.track.length = 2 ^ 31) (step f s e) := fun s e h => by
    cases e with
    | run => exact h.run hrel hplace hnul
    | hup => exact (h.interrupt (e := .hup) nofun).mono (fun _ => id) (by rintro x rfl; exact nofun)
    | flush n => exact (h.interrupt (e := .flush n) nofun).mono (fun _ => id) (by rintro x rfl; exact nofun)
  constructor
  · refine (run_sat (fun s e h _ => (hstep s e h).mono (fun _ => id) fun _ _ => trivial) es hinit (along_true es _)).mono
      (fun s h hpc => ?_) fun _ => id
    cases h with
    | waits hstart => rcases hstart with hstart | hstart <;> rw [hpc] at hstart <;> cases hstart
    | killed hkilled =>
      rw [hpc] at hkilled
      cases hkilled
    | runs rest h => exact ⟨rest.length, h.collected hpc⟩
  · refine along_inv (P := fun _ _ => True) (fun s e h _ => ?_) es hinit (along_true es _)
    exact ⟨(hstep s e h).mono (fun _ _ => trivial) fun _ => id, (hstep s e h).mono (fun _ => id) fun _ _ => trivial⟩

/-- An empty directory. -/
def noFiles : Fs := ⟨fun _ => none, fun _ => [], 0, fun _ _ => nofun⟩

/-- Two lines, with a rotation between them. -/
def twoLines : List Event := List.replicate 4 .run ++ [.hup] ++ List.replicate 10 .run

theorem logs_collected_two :
    Sat (fun s => s.pc = .done → ∃ k, Collected ['l'] noFiles [97, 10, 98] k s) (fun _ => True)
      (run (step ['l']) (init noFiles [97, 10, 98]) twoLines) :=
  (logs_collected ['l'] (by decide) noFiles (fun _ => rfl) [97, 10, 98] (by decide) twoLines).1

/-- It ends with a file `l.1` behind the log. -/
example : (run (step ['l']) (init noFiles [97, 10, 98]) twoLines).toOption.map
    (fun s => (s.fs.read ['l'], s.fs.read ['l', '.', '1'])) = some (some [98], some [97, 10]) := by
  decide +kernel

end Logger
end OsLabs
