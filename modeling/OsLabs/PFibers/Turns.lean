/-
# Fibers by turns

Any number of fibers, each with its record and its stack, on one CPU. The running fiber works as it likes outside what the
others own, makes a fiber, or stops, by a `FiberYield` or at a tick, and another one goes on. Of each fiber that does not
run the world knows how it was stopped, or what `malloc` returned for it; the invariant is that its record and its stack
show this.

Key definitions: `World`, `Step`, `Good`.
Key theorems: `fiber_continues`, `red_zone_kept`, `control_flags`.
-/
import OsLabs.PFibers.Activation
import OsLabs.PFibers.RedZone

namespace OsLabs
namespace PFibers
namespace Registers

open Memory
open Function (update)
open Relation (ReflTransGen)

/-- What a fiber that does not run goes on with: the blocks of a new one and the memory that `FiberSpawn` found, or the
registers of its stop. -/
inductive Status (V : Type)
  | absent
  | fresh (N : Allocated) (m : Mem)
  | stopped (how : Switch) (c : Cpu V)

structure World (ι V : Type) where
  cpu : Cpu V
  running : ι
  area : ι → Area
  status : ι → Status V

section

variable {ι V : Type} {tramp : Word}

namespace World

variable (w : World ι V)

def Waits (i : ι) : Prop := i ≠ w.running ∧ w.status i ≠ .absent

def Live (i : ι) : Prop := i = w.running ∨ w.status i ≠ .absent

variable [DecidableEq ι]

def spawn (tramp f args cur : Word) (i : ι) (N : Allocated) : World ι V :=
  { w with
    cpu := { w.cpu with mem := FiberSpawn tramp f args cur N w.cpu.mem }
    area := update w.area i N.area
    status := update w.status i (.fresh N w.cpu.mem) }

def switch (how : Switch) (j : ι) (junk : Mem) : World ι V :=
  { w with
    cpu := transfer how (w.area w.running) (w.area j) junk w.cpu
    running := j
    status := update (update w.status w.running (.stopped how (atStop how w.cpu))) j .absent }

end World

inductive Step [DecidableEq ι] (tramp : Word) : World ι V → World ι V → Prop
  | work (w : World ι V) (c : Cpu V) (h : ∀ i, w.Waits i → ∀ x, (w.area i).Owns x → c.mem x = w.cpu.mem x) :
      Step tramp w { w with cpu := c }
  | spawn (w : World ι V) (f args cur : Word) (i : ι) (N : Allocated) (hi : ¬ w.Live i)
      (h : ∀ j, w.Live j → ∀ x, N.Takes x → ¬ (w.area j).Owns x) : Step tramp w (w.spawn tramp f args cur i N)
  | free (w : World ι V) (i : ι) : Step tramp w { w with status := update w.status i .absent }
  | switch (w : World ι V) (how : Switch) (j : ι) (junk : Mem) (hj : w.Waits j)
      (h : Leaves how (w.area w.running) (w.area j) w.cpu) : Step tramp w (w.switch how j junk)

/-- The record and the stack of a fiber show how it goes on. -/
def Status.Shown (tramp : Word) (A : Area) (m : Mem) : Status V → Prop
  | .absent => True
  | .fresh N m₀ => A = N.area ∧ Ready tramp N m₀ m
  | .stopped how c => Saved A m c ∧ (how = .tick → Marked A m c)

theorem Status.Shown.congr {A : Area} {m m' : Mem} {s : Status V} (h : s.Shown tramp A m)
    (hm : s ≠ .absent → ∀ x, A.Owns x → m' x = m x) : s.Shown tramp A m' := by
  cases s with
  | absent => trivial
  | fresh N m₀ =>
    obtain ⟨rfl, hready⟩ := h
    exact ⟨rfl, hready.congr (hm (by simp))⟩
  | stopped how c =>
    obtain ⟨hs, ht⟩ := h
    exact ⟨hs.congr (hm (by simp)), fun hhow => (ht hhow).congr (hm (by simp))⟩

theorem Status.Shown.parked {A : Area} {m : Mem} : ∀ {s : Status V}, s.Shown tramp A m → s ≠ .absent → A.Parked m
  | .absent, _, hne => absurd rfl hne
  | .fresh _ _, ⟨hA, h⟩, _ => hA ▸ h.parked
  | .stopped _ _, h, _ => h.1.parked

structure Good (tramp : Word) (w : World ι V) : Prop where
  apart : ∀ i j, w.Live i → w.Live j → i ≠ j → (w.area i).Apart (w.area j)
  shown : ∀ i, i ≠ w.running → (w.status i).Shown tramp (w.area i) w.cpu.mem

variable {w w' : World ι V}

theorem World.Waits.live {i : ι} (h : w.Waits i) : w.Live i := Or.inr h.2

theorem Good.parked (h : Good tramp w) {i : ι} (hi : w.Waits i) : (w.area i).Parked w.cpu.mem := (h.shown i hi.1).parked hi.2

theorem Good.start (h : ∀ i, i ≠ w.running → w.status i = .absent) : Good tramp w := by
  have hlive : ∀ i, w.Live i → i = w.running := fun i hi => by
    by_contra hne
    exact hi.elim hne fun hs => hs (h i hne)
  refine ⟨fun i j hi hj hne => absurd ((hlive i hi).trans (hlive j hj).symm) hne, fun i hi => ?_⟩
  rw [h i hi]
  trivial

theorem Good.work (hw : Good tramp w) {c : Cpu V} (h : ∀ i, w.Waits i → ∀ x, (w.area i).Owns x → c.mem x = w.cpu.mem x) :
    Good tramp { w with cpu := c } := by
  exact ⟨hw.apart, fun i hi => (hw.shown i hi).congr fun hs => h i ⟨hi, hs⟩⟩

variable [DecidableEq ι]

section

variable {f args cur : Word} {N : Allocated} {how : Switch} {junk : Mem} {i j : ι}

theorem World.spawn_self : (w.spawn tramp f args cur i N).area i = N.area ∧
    (w.spawn tramp f args cur i N).status i = .fresh N w.cpu.mem :=
  ⟨Function.update_self _ _ _, Function.update_self _ _ _⟩

theorem World.spawn_ne (h : j ≠ i) : (w.spawn tramp f args cur i N).area j = w.area j ∧
    (w.spawn tramp f args cur i N).status j = w.status j :=
  ⟨Function.update_of_ne h _ _, Function.update_of_ne h _ _⟩

theorem World.switch_stopped (h : w.running ≠ j) : (w.switch how j junk).status w.running = .stopped how (atStop how w.cpu) :=
  (Function.update_of_ne h _ _).trans (Function.update_self _ _ _)

theorem World.switch_ne (h : i ≠ j) (hr : i ≠ w.running) : (w.switch how j junk).status i = w.status i :=
  (Function.update_of_ne h _ _).trans (Function.update_of_ne hr _ _)

end

theorem Good.spawn (hw : Good tramp w) {f args cur : Word} {i : ι} {N : Allocated}
    (h : ∀ j, w.Live j → ∀ x, N.Takes x → ¬ (w.area j).Owns x) : Good tramp (w.spawn tramp f args cur i N) := by
  have hlive : ∀ j, j ≠ i → (w.spawn tramp f args cur i N).Live j → w.Live j := fun j hj hl =>
    hl.imp_right fun hs => by rwa [(World.spawn_ne hj).2] at hs
  refine ⟨fun j k hj hk hne => ?_, fun j hj => ?_⟩
  · by_cases hji : j = i
    · rw [hji] at hne ⊢
      rw [World.spawn_self.1, (World.spawn_ne hne.symm).1]
      exact fun x hx => h k (hlive k hne.symm hk) x (N.takes_of_owns hx)
    · rw [(World.spawn_ne hji).1]
      by_cases hki : k = i
      · rw [hki, World.spawn_self.1]
        exact fun x hx hN => h j (hlive j hji hj) x (N.takes_of_owns hN) hx
      · rw [(World.spawn_ne hki).1]
        exact hw.apart j k (hlive j hji hj) (hlive k hki hk) hne
  · by_cases hji : j = i
    · rw [hji, World.spawn_self.1, World.spawn_self.2]
      exact ⟨rfl, FiberSpawn_ready⟩
    · rw [(World.spawn_ne hji).1, (World.spawn_ne hji).2]
      exact (hw.shown j hj).congr fun hs x hx => FiberSpawn_frame fun hN => h j (Or.inr hs) x hN hx

theorem Good.free (hw : Good tramp w) (i : ι) : Good tramp { w with status := update w.status i .absent } := by
  have hlive : ∀ j, World.Live { w with status := update w.status i .absent } j → w.Live j := fun j hj =>
    hj.imp_right fun hs hn => hs (by
      show update w.status i .absent j = _
      by_cases hji : j = i
      · rw [hji, Function.update_self]
      · rw [Function.update_of_ne hji, hn])
  refine ⟨fun j k hj hk => hw.apart j k (hlive j hj) (hlive k hk), fun j hj => ?_⟩
  show (update w.status i .absent j).Shown tramp _ _
  by_cases hji : j = i
  · rw [hji, Function.update_self]
    trivial
  · rw [Function.update_of_ne hji]
    exact hw.shown j hj

theorem Good.switch (hw : Good tramp w) {how : Switch} {j : ι} {junk : Mem} (hj : w.Waits j)
    (h : Leaves how (w.area w.running) (w.area j) w.cpu) : Good tramp (w.switch how j junk) := by
  have hrun : w.Live w.running := Or.inl rfl
  have hBA := hw.apart j w.running hj.live hrun hj.1
  have hlive : ∀ i, (w.switch how j junk).Live i → w.Live i := fun i hi => by
    by_cases hir : i = w.running
    · exact Or.inl hir
    · rcases hi with rfl | hs
      · exact hj.live
      · by_cases hij : i = j
        · exact hij ▸ hj.live
        · exact Or.inr (by rwa [World.switch_ne hij hir] at hs)
  refine ⟨fun i k hi hk => hw.apart i k (hlive i hi) (hlive k hk), fun i (hi : i ≠ j) => ?_⟩
  by_cases hir : i = w.running
  · rw [hir, World.switch_stopped hj.1.symm]
    exact ⟨transfer_saved hBA h (hw.parked hj), fun hhow => by subst hhow; exact transfer_marked h⟩
  · rw [World.switch_ne hi hir]
    exact (hw.shown i hir).congr fun hs x hx => transfer_frame hBA h (hw.parked hj)
      (hw.apart i _ (Or.inr hs) hrun hir x hx) (hw.apart i j (Or.inr hs) hj.live hi x hx)

/-- The first activation of a fiber. -/
theorem Good.begins (hw : Good tramp w) {how : Switch} {i : ι} (junk : Mem) (hi : w.Waits i)
    (h : Leaves how (w.area w.running) (w.area i) w.cpu) {N : Allocated} {m : Mem} (hs : w.status i = .fresh N m) :
    (w.switch how i junk).cpu.rip = tramp ∧ (w.switch how i junk).cpu.reg .rsp = N.rsp + 8 ∧
      (w.switch how i junk).cpu.flags &&& how.flags = load64 m (N.fiber.toNat + FLAGS) &&& how.flags := by
  have hBA := hw.apart i w.running hi.live (Or.inl rfl) hi.1
  have hshown := hw.shown i hi.1
  rw [hs] at hshown
  obtain ⟨hA, hready⟩ := hshown
  show (transfer how _ (w.area i) junk w.cpu).rip = tramp ∧ (transfer how _ (w.area i) junk w.cpu).reg .rsp = N.rsp + 8 ∧
    (transfer how _ (w.area i) junk w.cpu).flags &&& how.flags = _
  rw [hA] at hBA h ⊢
  exact hready.begins hBA h

theorem Good.step (hw : Good tramp w) (h : Step tramp w w') : Good tramp w' := by
  cases h with
  | work c h => exact hw.work h
  | spawn f args cur i N hi h => exact hw.spawn h
  | free i => exact hw.free i
  | switch how j junk hj h => exact hw.switch hj h

theorem Good.run (hw : Good tramp w) (h : ReflTransGen (Step tramp) w w') : Good tramp w' := by
  induction h with
  | refl => exact hw
  | tail _ h ih => exact ih.step h

end

/-! ### A world with two fibers -/

/-- `Main`, and a memory full of `fill`. -/
def alone (fill : Byte) : World Bool Unit where
  cpu := { reg := fun r => if r = .rsp then 0x18000 else 7, rip := 0x400, flags := 0x246, vec := (), mem := fun _ => fill }
  running := false
  area := fun _ => { ctx := 0x1000, lo := 0x10000, hi := 0x20000, apart := by decide, fits := by decide }
  status := fun _ => .absent

def other : Allocated where
  fiber := 0x30000
  stack := 0x40000
  apart := by decide
  fits := by decide

def spawned (fill : Byte) : World Bool Unit := (alone fill).spawn 0x500 1 2 0x1000 true other

theorem spawned_run (fill : Byte) : ReflTransGen (Step 0x500) (alone fill) (spawned fill) := by
  refine ReflTransGen.single (Step.spawn _ _ _ _ _ _ ?_ fun j _ x hx hA => ?_)
  · rintro (h | h)
    · exact absurd h (by simp [alone])
    · exact h rfl
  · have hN : (0x30000 ≤ x ∧ x < 0x30000 + FIBER) ∨ (0x40000 ≤ x ∧ x < 0x40000 + FIBER_STACK_SIZE) := hx
    have hM : (0x1000 ≤ x ∧ x < 0x1000 + SIZE) ∨ (0x10000 ≤ x ∧ x < 0x20000) := hA
    have hlayout := layout
    omega

theorem spawned_waits (fill : Byte) : (spawned fill).Waits true := by
  refine ⟨by simp [spawned, alone, World.spawn], ?_⟩
  rw [spawned, World.spawn_self.2]
  exact fun h => by cases h

theorem spawned_leaves (fill : Byte) :
    Leaves .tick ((spawned fill).area (spawned fill).running) ((spawned fill).area true) (spawned fill).cpu :=
  ⟨by decide +revert, by decide +revert⟩

/-- The new fiber, after a tick, at its call of `SwitchFiberContext`. -/
def taken : World Bool Unit :=
  let w := (spawned 0).switch .tick true fun _ => 0xFF
  { w with cpu := { w.cpu with reg := fun r => match r with | .rdi => 0x30000 | .rsi => 0x1000 | .rsp => 0x4FFF0 | _ => 9 } }

theorem taken_run : ReflTransGen (Step 0x500) (alone 0) taken :=
  ((spawned_run 0).tail (Step.switch _ .tick true _ (spawned_waits 0) (spawned_leaves 0))).tail
    (Step.work _ _ fun _ _ _ _ => rfl)

theorem taken_stopped : taken.status false = .stopped .tick (spawned 0).cpu := rfl

theorem taken_waits : taken.Waits false := ⟨by decide, fun h => by cases taken_stopped.symm.trans h⟩

theorem taken_leaves : Leaves .yield (taken.area taken.running) (taken.area false) taken.cpu := ⟨rfl, rfl, by decide, by decide⟩

/-! ### Going on, in every run -/

section

variable {ι V : Type} [DecidableEq ι] {tramp : Word} {w w' : World ι V}

/-- However a fiber was stopped and however it goes on, it has its registers, and of its flags those that the resuming side loads; a new one is
at `FiberTrampoline`. -/
theorem fiber_continues (h0 : ∀ i, i ≠ w.running → w.status i = .absent) (hrun : ReflTransGen (Step tramp) w w') {how : Switch}
    {j : ι} (junk : Mem) (hj : w'.Waits j) (h : Leaves how (w'.area w'.running) (w'.area j) w'.cpu) :
    (∀ how₀ c, w'.status j = .stopped how₀ c → Resumed how c (w'.switch how j junk).cpu) ∧
      (∀ N m, w'.status j = .fresh N m → (w'.switch how j junk).cpu.rip = tramp ∧
        ((w'.switch how j junk).cpu.reg .rsp).toNat % 16 = 8) := by
  have hw' : Good tramp w' := (Good.start h0).run hrun
  refine ⟨fun how₀ c hs => ?_, fun N m hs => ?_⟩
  · have hBA := hw'.apart j w'.running hj.live (Or.inl rfl) hj.1
    have hshown := hw'.shown j hj.1
    rw [hs] at hshown
    exact hshown.1.resumed (transfer_resumes hBA h (hw'.parked hj))
  · have hbegins := hw'.begins junk hj h hs
    have hrsp := N.toNat_rsp
    have hfits := N.fits.2
    have hsize : FIBER_STACK_SIZE = 65536 := rfl
    rw [hbegins.2.1, toNat_add8 (by omega)]
    exact ⟨hbegins.1, by omega⟩

theorem fiber_continues_main : Resumed .yield (alone 0).cpu (taken.switch .yield false fun _ => 0).cpu := by
  have hres := (fiber_continues (fun _ _ => rfl) taken_run (fun _ => 0) taken_waits taken_leaves).1 _ _ taken_stopped
  exact ⟨hres.reg, hres.rip, hres.flags⟩

/-- `Main` with ID set. -/
def identified : World Bool Unit := { spawned 0 with cpu := { (spawned 0).cpu with flags := 0x200246 } }

/-- The new fiber, after a tick, with ID and NT clear. -/
def unidentified : World Bool Unit :=
  let w := identified.switch .tick true fun _ => 0xFF
  { w with cpu := { w.cpu with reg := fun r => if r = .rsp then 0x4FFF0 else 9, flags := 0x202 } }

theorem unidentified_run : ReflTransGen (Step 0x500) (alone 0) unidentified := by
  have hset : ReflTransGen (Step 0x500) (alone 0) identified := (spawned_run 0).tail (Step.work _ _ fun _ _ _ _ => rfl)
  have hwaits : identified.Waits true := spawned_waits 0
  have hleaves : Leaves .tick (identified.area identified.running) (identified.area true) identified.cpu := spawned_leaves 0
  exact (hset.tail (Step.switch _ .tick true _ hwaits hleaves)).tail (Step.work _ _ fun _ _ _ _ => rfl)

/-- The return from the signal does not load ID: `Main` goes on with that of the fiber that the tick has interrupted. -/
theorem flags_lost : ReflTransGen (Step 0x500) (alone 0) unidentified ∧ unidentified.Waits false ∧
    Leaves .tick (unidentified.area unidentified.running) (unidentified.area false) unidentified.cpu ∧
    unidentified.status false = .stopped .tick identified.cpu ∧ identified.cpu.flags = 0x200246 ∧
    (unidentified.switch .tick false fun _ => 0).cpu.flags = 0x246 := by
  refine ⟨unidentified_run, ⟨by decide, fun h => ?_⟩, ⟨by decide, by decide⟩, rfl, rfl, by decide +kernel⟩
  have hstopped : unidentified.status false = .stopped .tick identified.cpu := rfl
  rw [hstopped] at h
  cases h

/-- A fiber that a tick has interrupted finds its stack from the red zone on, and its vector registers, if it keeps there
itself what is put there. -/
theorem red_zone_kept (h0 : ∀ i, i ≠ w.running → w.status i = .absent) (hrun : ReflTransGen (Step tramp) w w') {how : Switch}
    {j : ι} (junk : Mem) (hj : w'.Waits j) (h : Leaves how (w'.area w'.running) (w'.area j) w'.cpu) {c : Cpu V}
    (hs : w'.status j = .stopped .tick c) :
    ((∀ x, (c.reg .rsp).toNat - 128 ≤ x → x < (w'.area j).hi → (w'.switch how j junk).cpu.mem x = c.mem x) ∧
        (w'.switch how j junk).cpu.vec = c.vec) ↔
      (load64 c.mem ((c.reg .rsp).toNat - 8) = c.rip ∧
        (how = .yield → load64 c.mem ((c.reg .rsp).toNat - 16) = c.flags)) ∧ w'.cpu.vec = c.vec := by
  have hw' : Good tramp w' := (Good.start h0).run hrun
  have hBA := hw'.apart j w'.running hj.live (Or.inl rfl) hj.1
  have hshown := hw'.shown j hj.1
  rw [hs] at hshown
  have hmarked := hshown.2 rfl
  have hroom := hmarked.room
  have hfinds : ∀ x, (c.reg .rsp).toNat - 128 ≤ x → x < (w'.area j).hi →
      (w'.switch how j junk).cpu.mem x = found how c x := fun x hlo hhi => hmarked.finds hshown.1 hBA h hlo hhi
  have hvec : (w'.switch how j junk).cpu.vec = w'.cpu.vec := transfer_vec
  rw [hvec, ← found_iff (A := w'.area j) (by omega) hroom.2]
  exact and_congr_left' (forall_congr' fun x => forall_congr' fun hlo => forall_congr' fun hhi => by rw [hfinds x hlo hhi])

theorem red_zone_kept_main :
    ((∀ x, ((spawned 0).cpu.reg .rsp).toNat - 128 ≤ x → x < (taken.area false).hi →
        (taken.switch .yield false fun _ => 0).cpu.mem x = (spawned 0).cpu.mem x) ∧
        (taken.switch .yield false fun _ => 0).cpu.vec = (spawned 0).cpu.vec) ↔
      (load64 (spawned 0).cpu.mem (((spawned 0).cpu.reg .rsp).toNat - 8) = (spawned 0).cpu.rip ∧
        (Switch.yield = .yield → load64 (spawned 0).cpu.mem (((spawned 0).cpu.reg .rsp).toNat - 16) = (spawned 0).cpu.flags)) ∧
        taken.cpu.vec = (spawned 0).cpu.vec :=
  red_zone_kept (fun _ _ => rfl) taken_run (fun _ => 0) taken_waits taken_leaves taken_stopped

/-- `Main` has a zero in the word below `rsp`, and finds a byte of its `rip` there. -/
theorem red_zone_lost : ReflTransGen (Step 0x500) (alone 0) taken ∧ taken.Waits false ∧
    Leaves .yield (taken.area taken.running) (taken.area false) taken.cpu ∧
    taken.status false = .stopped .tick (spawned 0).cpu ∧ (spawned 0).cpu.reg .rsp = 0x18000 ∧
    (spawned 0).cpu.mem (0x18000 - 7) = 0 ∧ (taken.switch .yield false fun _ => 0).cpu.mem (0x18000 - 7) = 4 :=
  ⟨taken_run, taken_waits, taken_leaves, taken_stopped, rfl, by decide +kernel, by decide +kernel⟩

/-! ### Beginning, in two runs -/

/-- TF, DF and AC. -/
abbrev CONTROL : Word := 0x40500

theorem control_eq {how : Switch} {a b : Word} (h : a &&& how.flags = b &&& how.flags) : a &&& CONTROL = b &&& CONTROL := by
  have hcontrol : CONTROL &&& how.flags = CONTROL := by cases how <;> rfl
  rw [← and_and_of_subset hcontrol, h, and_and_of_subset hcontrol]

/-- What two new fibers at the same place begin with: the same, but for the flags, which are what `malloc` returned. -/
theorem control_flags {w₁ w₁' w₂ w₂' : World ι V} (h1 : ∀ i, i ≠ w₁.running → w₁.status i = .absent)
    (h2 : ∀ i, i ≠ w₂.running → w₂.status i = .absent) (hrun₁ : ReflTransGen (Step tramp) w₁ w₁')
    (hrun₂ : ReflTransGen (Step tramp) w₂ w₂') {how₁ how₂ : Switch} {i j : ι} (junk₁ junk₂ : Mem) (hi : w₁'.Waits i)
    (hj : w₂'.Waits j) (hl₁ : Leaves how₁ (w₁'.area w₁'.running) (w₁'.area i) w₁'.cpu)
    (hl₂ : Leaves how₂ (w₂'.area w₂'.running) (w₂'.area j) w₂'.cpu) {N : Allocated} {m₁ m₂ : Mem}
    (hs₁ : w₁'.status i = .fresh N m₁) (hs₂ : w₂'.status j = .fresh N m₂) :
    ((w₁'.switch how₁ i junk₁).cpu.rip = (w₂'.switch how₂ j junk₂).cpu.rip ∧
      (w₁'.switch how₁ i junk₁).cpu.reg .rsp = (w₂'.switch how₂ j junk₂).cpu.reg .rsp ∧
      (w₁'.switch how₁ i junk₁).cpu.flags &&& CONTROL = 0 ∧ (w₂'.switch how₂ j junk₂).cpu.flags &&& CONTROL = 0) ↔
    (load64 m₁ (N.fiber.toNat + FLAGS) &&& CONTROL = 0 ∧ load64 m₂ (N.fiber.toNat + FLAGS) &&& CONTROL = 0) := by
  have hbegins₁ := ((Good.start h1).run hrun₁).begins junk₁ hi hl₁ hs₁
  have hbegins₂ := ((Good.start h2).run hrun₂).begins junk₂ hj hl₂ hs₂
  rw [hbegins₁.1, hbegins₂.1, hbegins₁.2.1, hbegins₂.2.1, control_eq hbegins₁.2.2, control_eq hbegins₂.2.2]
  exact ⟨fun h => h.2.2, fun h => ⟨rfl, rfl, h⟩⟩

end

theorem control_flags_zero :
    (((spawned 0).switch .tick true fun _ => 0).cpu.rip = ((spawned 0xBE).switch .tick true fun _ => 0).cpu.rip ∧
      ((spawned 0).switch .tick true fun _ => 0).cpu.reg .rsp = ((spawned 0xBE).switch .tick true fun _ => 0).cpu.reg .rsp ∧
      ((spawned 0).switch .tick true fun _ => 0).cpu.flags &&& CONTROL = 0 ∧
      ((spawned 0xBE).switch .tick true fun _ => 0).cpu.flags &&& CONTROL = 0) ↔
    (load64 (fun _ => 0) (other.fiber.toNat + FLAGS) &&& CONTROL = 0 ∧
      load64 (fun _ => 0xBE) (other.fiber.toNat + FLAGS) &&& CONTROL = 0) :=
  control_flags (fun _ _ => rfl) (fun _ _ => rfl) (spawned_run 0) (spawned_run 0xBE) (fun _ => 0) (fun _ => 0)
    (spawned_waits 0) (spawned_waits 0xBE) (spawned_leaves 0) (spawned_leaves 0xBE) rfl rfl

/-- A record full of 0xBE begins with DF and AC set. -/
theorem control_flags_filled : ReflTransGen (Step 0x500) (alone 0xBE) (spawned 0xBE) ∧ (spawned 0xBE).Waits true ∧
    Leaves .tick ((spawned 0xBE).area (spawned 0xBE).running) ((spawned 0xBE).area true) (spawned 0xBE).cpu ∧
    (spawned 0xBE).status true = .fresh other (fun _ => 0xBE) ∧
    ((spawned 0xBE).switch .tick true fun _ => 0).cpu.flags &&& CONTROL = 0x40400 ∧
    ((spawned 0).switch .tick true fun _ => 0).cpu.flags &&& CONTROL = 0 :=
  ⟨spawned_run 0xBE, spawned_waits 0xBE, spawned_leaves 0xBE, rfl, by decide +kernel, by decide +kernel⟩

end Registers
end PFibers
end OsLabs
