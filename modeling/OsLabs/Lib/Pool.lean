/-
# Parties with a resource each

Parties come and go in places, and each has a pointer: to null, or to a resource that it has obtained from a free list.
It gives the resource back once, before it leaves, and does not use the pointer after that; but the pointer itself stays
where it is until the place is taken again.

While this protocol is kept, the log of what is done with resources is sound, and each resource that is leased has one party
that points to it and has not given it back (`Inv`). A second pointer can only be left over from a party that has (`Alone`).

Key definitions: `Pool`, `Step`, `Inv`, `Alone`.
Key theorem: `Step.inv`.
-/
import OsLabs.Lib.Lease

namespace OsLabs
namespace Parties

open Lease
open Function (update)

/-- A party has a number; the flag says that it has given its resource back. -/
structure Pool (ι R : Type*) where
  party : ι → Option (ℕ × Bool)
  ptr : ι → R
  next : ℕ
  free : List R
  /-- What has been taken from the free list by others than the parties. -/
  others : List R
  log : List (Use ℕ R)

variable {ι R : Type*}

/-- What the protocol keeps, with the ledger of the leases. -/
structure Inv [DecidableEq R] (null : R) (Valid : R → Prop) (p : Pool ι R) (L : Ledger ℕ R) : Prop where
  replayed : replay p.log = some L
  owner : ∀ r n, L r = some n ↔ r ≠ null ∧ ∃ i, p.party i = some (n, false) ∧ p.ptr i = r
  distinct : ∀ i j n b c, p.party i = some (n, b) → p.party j = some (n, c) → i = j
  fresh : ∀ i n b, p.party i = some (n, b) → n < p.next
  nodup : (p.free ++ p.others).Nodup
  valid : ∀ r ∈ p.free ++ p.others, Valid r
  leased : ∀ r n, L r = some n → Valid r ∧ r ∉ p.free ++ p.others

/-- Each resource that is leased has one pointer, those of the parties counted that have given theirs back. -/
def Alone (null : R) (p : Pool ι R) : Prop :=
  ∀ i n, p.party i = some (n, false) → p.ptr i ≠ null → ∀ j, p.party j ≠ none → p.ptr j = p.ptr i → j = i

section

variable [DecidableEq R] {null : R} {Valid : R → Prop} {p : Pool ι R} {L : Ledger ℕ R} {i : ι} {n : ℕ}

theorem Inv.lease (h : Inv null Valid p L) (hi : p.party i = some (n, false)) (hne : p.ptr i ≠ null) :
    L (p.ptr i) = some n := (h.owner _ _).mpr ⟨hne, i, hi, rfl⟩

/-- What is free is not leased. -/
theorem Inv.free_none (h : Inv null Valid p L) {r : R} (hr : r ∈ p.free) : L r = none := by
  cases hl : L r with
  | none => rfl
  | some n => exact absurd (List.mem_append_left _ hr) (h.leased r n hl).2

theorem Inv.uses (h : Inv null Valid p L) (hi : p.party i = some (n, false)) (hne : p.ptr i ≠ null) :
    Inv null Valid { p with log := p.log ++ [.uses n (p.ptr i)] } L :=
  ⟨replay_uses h.replayed (h.lease hi hne), h.owner, h.distinct, h.fresh, h.nodup, h.valid, h.leased⟩

theorem Inv.take (h : Inv null Valid p L) {r : R} {rest : List R} (hfree : p.free = r :: rest) :
    Inv null Valid { p with free := rest, others := r :: p.others } L := by
  have hmem : ∀ v, v ∈ rest ++ r :: p.others ↔ v ∈ p.free ++ p.others := fun v => by
    rw [hfree, List.mem_append, List.mem_cons, List.mem_append, List.mem_cons]
    tauto
  have hperm : (rest ++ r :: p.others).Perm (p.free ++ p.others) := by
    rw [hfree]
    exact List.perm_middle
  exact ⟨h.replayed, h.owner, h.distinct, h.fresh, hperm.nodup_iff.mpr h.nodup, fun v hv => h.valid v ((hmem v).mp hv),
    fun v n hv => ⟨(h.leased v n hv).1, fun hn => (h.leased v n hv).2 ((hmem v).mp hn)⟩⟩

theorem Inv.give (h : Inv null Valid p L) {r : R} (hr : r ∈ p.others) :
    Inv null Valid { p with free := r :: p.free, others := p.others.erase r } L := by
  have hperm : (r :: p.free ++ p.others.erase r).Perm (p.free ++ p.others) := by
    calc List.Perm _ (p.free ++ r :: p.others.erase r) := List.perm_middle.symm
      List.Perm _ (p.free ++ p.others) := (List.perm_cons_erase hr).symm.append_left _
  exact ⟨h.replayed, h.owner, h.distinct, h.fresh, hperm.nodup_iff.mpr h.nodup,
    fun v hv => h.valid v (hperm.mem_iff.mp hv),
    fun v n hv => ⟨(h.leased v n hv).1, fun hn => (h.leased v n hv).2 (hperm.mem_iff.mp hn)⟩⟩

end

variable [DecidableEq ι]

/-! ### Left-over pointers -/

section

variable {null : R} {p q : Pool ι R} {i : ι} {n : ℕ}

theorem party_of_update {party : ι → Option (ℕ × Bool)} {v x : Option (ℕ × Bool)} {i j : ι} (h : update party i v j = x) :
    (j = i ∧ v = x) ∨ (j ≠ i ∧ party j = x) := by
  by_cases hj : j = i
  · rw [hj, Function.update_self] at h
    exact Or.inl ⟨hj, h⟩
  · rw [Function.update_of_ne hj] at h
    exact Or.inr ⟨hj, h⟩

theorem Alone.enter (h : Alone null p) {m : ℕ} (hparty : q.party = update p.party i (some (m, false)))
    (hptr : q.ptr = update p.ptr i null) : Alone null q := by
  intro j n hj hne k hk heq
  rw [hptr] at hne heq
  rw [hparty] at hj hk
  have hji : j ≠ i := fun hn => hne (by rw [hn, Function.update_self])
  have hki : k ≠ i := fun hn => hne (by rw [← heq, hn, Function.update_self])
  rw [Function.update_of_ne hji] at hj hne heq
  rw [Function.update_of_ne hki] at hk heq
  exact h j n hj hne k hk heq

theorem Alone.skip (h : Alone null p) (hi : p.party i = none) (hparty : q.party = p.party)
    (hptr : q.ptr = update p.ptr i null) : Alone null q := by
  intro j n hj hne k hk heq
  rw [hptr] at hne heq
  rw [hparty] at hj hk
  have hji : j ≠ i := fun hn => hne (by rw [hn, Function.update_self])
  have hki : k ≠ i := fun hn => hk (by rw [hn, hi])
  rw [Function.update_of_ne hji] at hne heq
  rw [Function.update_of_ne hki] at heq
  exact h j n hj hne k hk heq

theorem Alone.less (h : Alone null p) {x : Option (ℕ × Bool)} (hx : ∀ m, x ≠ some (m, false)) (hi : p.party i ≠ none)
    (hparty : q.party = update p.party i x) (hptr : q.ptr = p.ptr) : Alone null q := by
  intro j n hj hne k hk heq
  rw [hptr] at hne heq
  rw [hparty] at hj hk
  rcases party_of_update hj with ⟨-, hnew⟩ | ⟨-, hold⟩
  · exact absurd hnew (hx n)
  · refine h j n hold hne k ?_ heq
    by_cases hki : k = i
    · rw [hki]
      exact hi
    · rwa [Function.update_of_ne hki] at hk

/-- A resource that is obtained is alone exactly if no pointer to it was left over. -/
theorem Alone.obtains_iff (h : Alone null p) {r : R} (hr : r ≠ null) (hi : p.party i = some (n, false))
    (hparty : q.party = p.party) (hptr : q.ptr = update p.ptr i r) :
    Alone null q ↔ ∀ j, j ≠ i → p.party j ≠ none → p.ptr j ≠ r := by
  constructor
  · intro hq j hji hj heq
    apply hji
    refine hq i n (by rw [hparty, hi]) (by rw [hptr, Function.update_self]; exact hr) j (by rw [hparty]; exact hj) ?_
    rw [hptr, Function.update_self, Function.update_of_ne hji, heq]
  · intro hnone j m hj hne k hk heq
    rw [hptr] at hne heq
    rw [hparty] at hj hk
    by_cases hji : j = i
    · by_contra hkj
      rw [hji] at hkj heq
      rw [Function.update_self, Function.update_of_ne hkj] at heq
      exact hnone k hkj hk heq
    · rw [Function.update_of_ne hji] at hne heq
      by_cases hki : k = i
      · rw [hki, Function.update_self] at heq
        exact absurd heq.symm (hnone j hji fun hn => Option.some_ne_none _ (hj.symm.trans hn))
      · rw [Function.update_of_ne hki] at heq
        exact h j m hj hne k hk heq

end

/-! ### The protocol -/

variable [DecidableEq R]

/-- A step of the protocol, with the place that obtains a resource, if it is that, and the resource. -/
inductive Step (null : R) : Option (ι × R) → Pool ι R → Pool ι R → Prop
  | enter {p i} : p.party i = none → Step null none p
      { p with party := update p.party i (some (p.next, false)), ptr := update p.ptr i null, next := p.next + 1 }
  /-- A place is taken and left at once. -/
  | skip {p i} : p.party i = none → Step null none p { p with ptr := update p.ptr i null, next := p.next + 1 }
  | obtains {p i n r rest} : p.party i = some (n, false) → p.ptr i = null → p.free = r :: rest → Step null (some (i, r)) p
      { p with ptr := update p.ptr i r, free := rest, log := p.log ++ [.obtains n r] }
  | uses {p i n} : p.party i = some (n, false) → p.ptr i ≠ null → Step null none p { p with log := p.log ++ [.uses n (p.ptr i)] }
  | frees {p i n} : p.party i = some (n, false) → p.ptr i ≠ null → Step null none p
      { p with party := update p.party i (some (n, true)), free := p.ptr i :: p.free, log := p.log ++ [.frees n (p.ptr i)] }
  /-- There is nothing to give back. -/
  | closes {p i n} : p.party i = some (n, false) → p.ptr i = null → Step null none p
      { p with party := update p.party i (some (n, true)) }
  | leaves {p i n} : p.party i = some (n, true) → Step null none p { p with party := update p.party i none }
  | take {p r rest} : p.free = r :: rest → Step null none p { p with free := rest, others := r :: p.others }
  | give {p r} : r ∈ p.others → Step null none p { p with free := r :: p.free, others := p.others.erase r }

section

variable {null : R} {Valid : R → Prop} {p q : Pool ι R} {L : Ledger ℕ R} {i : ι} {n : ℕ}

theorem Inv.enter (h : Inv null Valid p L) (hi : p.party i = none) : Inv null Valid
    { p with party := update p.party i (some (p.next, false)), ptr := update p.ptr i null, next := p.next + 1 } L := by
  refine ⟨h.replayed, fun r m => ?_, fun j k m b c hj hk => ?_, fun j m b hj => ?_, h.nodup, h.valid, h.leased⟩
  · rw [h.owner]
    apply and_congr_right
    intro hr
    dsimp only
    constructor
    · rintro ⟨j, hj, hptr⟩
      have hne : j ≠ i := fun hn => by
        rw [hn, hi] at hj
        cases hj
      exact ⟨j, by rw [Function.update_of_ne hne, hj], by rw [Function.update_of_ne hne, hptr]⟩
    · rintro ⟨j, hj, hptr⟩
      have hne : j ≠ i := fun hn => by
        rw [hn, Function.update_self] at hptr
        exact hr hptr.symm
      rw [Function.update_of_ne hne] at hj hptr
      exact ⟨j, hj, hptr⟩
  · dsimp only at hj hk
    have hold : ∀ {j : ι} {m : ℕ} {b : Bool}, p.party j = some (m, b) → m ≠ p.next := fun hj => (h.fresh _ _ _ hj).ne
    rcases party_of_update hj with ⟨hji, hnew⟩ | ⟨-, hj'⟩ <;> rcases party_of_update hk with ⟨hki, hnew'⟩ | ⟨-, hk'⟩
    · rw [hji, hki]
    · cases hnew
      exact absurd rfl (hold hk')
    · cases hnew'
      exact absurd rfl (hold hj')
    · exact h.distinct _ _ _ _ _ hj' hk'
  · dsimp only at hj
    rcases party_of_update hj with ⟨-, hj⟩ | ⟨-, hj⟩
    · cases hj
      exact Nat.lt_succ_self _
    · exact (h.fresh _ _ _ hj).trans (Nat.lt_succ_self _)

theorem Inv.skip (h : Inv null Valid p L) (hi : p.party i = none) :
    Inv null Valid { p with ptr := update p.ptr i null, next := p.next + 1 } L := by
  refine ⟨h.replayed, fun r m => ?_, h.distinct, fun j m b hj => (h.fresh j m b hj).trans (Nat.lt_succ_self _), h.nodup, h.valid,
    h.leased⟩
  rw [h.owner]
  apply and_congr_right
  intro hr
  apply exists_congr
  intro j
  apply and_congr_right
  intro hj
  have hne : j ≠ i := fun hn => by
    rw [hn, hi] at hj
    cases hj
  show _ ↔ update p.ptr i null j = r
  rw [Function.update_of_ne hne]

theorem Inv.obtains (h : Inv null Valid p L) (hnull : ¬ Valid null) {r : R} {rest : List R} (hi : p.party i = some (n, false))
    (hptr : p.ptr i = null) (hfree : p.free = r :: rest) : Inv null Valid
      { p with ptr := update p.ptr i r, free := rest, log := p.log ++ [.obtains n r] } (update L r (some n)) := by
  have hmem : r ∈ p.free := by
    rw [hfree]
    exact List.mem_cons_self
  have hvalid := h.valid r (List.mem_append_left _ hmem)
  have hnone := h.free_none hmem
  have hne : r ≠ null := fun hn => hnull (hn ▸ hvalid)
  have hnodup : (r :: (rest ++ p.others)).Nodup := by
    have := h.nodup
    rwa [hfree] at this
  have hsub : ∀ v ∈ rest ++ p.others, v ∈ p.free ++ p.others := fun v hv => by
    rw [hfree]
    exact List.mem_cons_of_mem _ hv
  refine ⟨replay_obtains h.replayed hnone, fun q m => ?_, h.distinct, h.fresh, (List.nodup_cons.mp hnodup).2,
    fun v hv => h.valid v (hsub v hv), fun q m hq => ?_⟩
  · by_cases hq : q = r
    · rw [hq, Function.update_self]
      constructor
      · intro hm
        cases hm
        exact ⟨hne, i, hi, Function.update_self ..⟩
      · rintro ⟨-, j, hj, hjptr⟩
        by_cases hji : j = i
        · rw [hji] at hj
          have hj : p.party i = some (m, false) := hj
          rw [hi] at hj
          cases hj
          rfl
        · have hjptr : update p.ptr i r j = r := hjptr
          rw [Function.update_of_ne hji] at hjptr
          have hlease := (h.owner r m).mpr ⟨hne, j, hj, hjptr⟩
          rw [hnone] at hlease
          cases hlease
    · rw [Function.update_of_ne hq, h.owner]
      apply and_congr_right
      intro hqn
      apply exists_congr
      intro j
      apply and_congr_right
      intro hj
      show _ ↔ update p.ptr i r j = q
      by_cases hji : j = i
      · rw [hji, Function.update_self, hptr]
        exact iff_of_false (Ne.symm hqn) (Ne.symm hq)
      · rw [Function.update_of_ne hji]
  · by_cases hqr : q = r
    · rw [hqr]
      exact ⟨hvalid, (List.nodup_cons.mp hnodup).1⟩
    · rw [Function.update_of_ne hqr] at hq
      exact ⟨(h.leased q m hq).1, fun hn => (h.leased q m hq).2 (hsub q hn)⟩

/-- A party that has given its resource back holds none. -/
theorem owner_gives (h : Inv null Valid p L) (hi : p.party i = some (n, false)) {r : R}
    (hr : r ≠ p.ptr i ∨ p.ptr i = null) (m : ℕ) :
    L r = some m ↔ r ≠ null ∧ ∃ j, update p.party i (some (n, true)) j = some (m, false) ∧ p.ptr j = r := by
  rw [h.owner]
  apply and_congr_right
  intro hne
  apply exists_congr
  intro j
  by_cases hji : j = i
  · rw [hji, Function.update_self, hi]
    have hptr : p.ptr i ≠ r := fun hn => hr.elim (fun hr => hr hn.symm) fun hr => hne (hn.symm.trans hr)
    exact iff_of_false (fun hn => hptr hn.2) fun hn => hptr hn.2
  · rw [Function.update_of_ne hji]

theorem distinct_gives (h : Inv null Valid p L) (hi : p.party i = some (n, false)) (j k : ι) (m : ℕ) (b c : Bool)
    (hj : update p.party i (some (n, true)) j = some (m, b)) (hk : update p.party i (some (n, true)) k = some (m, c)) : j = k := by
  have hold : ∀ {j : ι} {m : ℕ} {b : Bool}, update p.party i (some (n, true)) j = some (m, b) →
      ∃ b', p.party j = some (m, b') := fun {j m b} hj => by
    rcases party_of_update hj with ⟨rfl, hnew⟩ | ⟨-, hold⟩
    · cases hnew
      exact ⟨false, hi⟩
    · exact ⟨b, hold⟩
  obtain ⟨b', hj'⟩ := hold hj
  obtain ⟨c', hk'⟩ := hold hk
  exact h.distinct _ _ _ _ _ hj' hk'

theorem fresh_gives (h : Inv null Valid p L) (hi : p.party i = some (n, false)) (j : ι) (m : ℕ) (b : Bool)
    (hj : update p.party i (some (n, true)) j = some (m, b)) : m < p.next := by
  rcases party_of_update hj with ⟨-, hnew⟩ | ⟨-, hold⟩
  · cases hnew
    exact h.fresh _ _ _ hi
  · exact h.fresh _ _ _ hold

theorem Inv.closes (h : Inv null Valid p L) (hi : p.party i = some (n, false)) (hptr : p.ptr i = null) :
    Inv null Valid { p with party := update p.party i (some (n, true)) } L :=
  ⟨h.replayed, fun _ m => owner_gives h hi (Or.inr hptr) m, distinct_gives h hi, fresh_gives h hi, h.nodup, h.valid, h.leased⟩

theorem Inv.frees (h : Inv null Valid p L) (hi : p.party i = some (n, false)) (hne : p.ptr i ≠ null) : Inv null Valid
    { p with party := update p.party i (some (n, true)), free := p.ptr i :: p.free, log := p.log ++ [.frees n (p.ptr i)] }
    (update L (p.ptr i) none) := by
  have hlease := h.lease hi hne
  obtain ⟨hvalid, hout⟩ := h.leased _ _ hlease
  refine ⟨replay_frees h.replayed hlease, fun r m => ?_, distinct_gives h hi, fresh_gives h hi,
    List.nodup_cons.mpr ⟨hout, h.nodup⟩, fun v hv => ?_, fun r m hr => ?_⟩
  · by_cases hr : r = p.ptr i
    · rw [hr, Function.update_self]
      refine iff_of_false (fun hn => Option.some_ne_none m hn.symm) ?_
      rintro ⟨-, j, hj, hptr⟩
      rcases party_of_update hj with ⟨-, hnew⟩ | ⟨hji, hold⟩
      · cases hnew
      · -- two parties at one resource would be two owners
        have hlease' := h.lease hold (hptr ▸ hne)
        rw [show p.ptr j = p.ptr i from hptr, hlease] at hlease'
        cases hlease'
        exact hji (h.distinct _ _ _ _ _ hold hi)
    · rw [Function.update_of_ne hr]
      exact owner_gives h hi (Or.inl hr) m
  · rcases List.mem_cons.mp hv with rfl | hv
    · exact hvalid
    · exact h.valid v hv
  · by_cases hri : r = p.ptr i
    · rw [hri, Function.update_self] at hr
      cases hr
    · rw [Function.update_of_ne hri] at hr
      refine ⟨(h.leased r m hr).1, fun hn => ?_⟩
      rcases List.mem_cons.mp hn with hn | hn
      · exact hri hn
      · exact (h.leased r m hr).2 hn

theorem Inv.leaves (h : Inv null Valid p L) (hi : p.party i = some (n, true)) :
    Inv null Valid { p with party := update p.party i none } L := by
  have hold : ∀ {j : ι} {m : ℕ} {b : Bool}, update p.party i none j = some (m, b) → p.party j = some (m, b) :=
    fun {j m b} hj => by
      rcases party_of_update hj with ⟨-, hnew⟩ | ⟨-, hold⟩
      · cases hnew
      · exact hold
  refine ⟨h.replayed, fun r m => ?_, fun j k m b c hj hk => h.distinct _ _ _ _ _ (hold hj) (hold hk),
    fun j m b hj => h.fresh _ _ _ (hold hj), h.nodup, h.valid, h.leased⟩
  rw [h.owner]
  apply and_congr_right
  intro hne
  dsimp only
  constructor
  · rintro ⟨j, hj, hptr⟩
    have hji : j ≠ i := fun hn => by
      rw [hn, hi] at hj
      cases hj
    exact ⟨j, by rw [Function.update_of_ne hji, hj], hptr⟩
  · rintro ⟨j, hj, hptr⟩
    exact ⟨j, hold hj, hptr⟩

/-- **The protocol is sound.** -/
theorem Step.inv {l : Option (ι × R)} (hnull : ¬ Valid null) (hstep : Step null l p q) (h : Inv null Valid p L) :
    ∃ L', Inv null Valid q L' := by
  cases hstep with
  | enter hi => exact ⟨L, h.enter hi⟩
  | skip hi => exact ⟨L, h.skip hi⟩
  | obtains hi hptr hfree => exact ⟨_, h.obtains hnull hi hptr hfree⟩
  | uses hi hne => exact ⟨L, h.uses hi hne⟩
  | frees hi hne => exact ⟨_, h.frees hi hne⟩
  | closes hi hptr => exact ⟨L, h.closes hi hptr⟩
  | leaves hi => exact ⟨L, h.leaves hi⟩
  | take hfree => exact ⟨L, h.take hfree⟩
  | give hr => exact ⟨L, h.give hr⟩

/-- Only what obtains a resource can find a pointer left over. -/
theorem Step.alone (hstep : Step null none p q) (h : Alone null p) : Alone null q := by
  have hgave : ∀ {n m : ℕ}, some (n, true) ≠ some (m, false) := fun hm =>
    Bool.noConfusion (congrArg Prod.snd (Option.some.inj hm))
  have hthere : ∀ {i : ι} {x : ℕ × Bool}, p.party i = some x → p.party i ≠ none := fun hi => hi ▸ Option.some_ne_none _
  cases hstep with
  | enter hi => exact h.enter rfl rfl
  | skip hi => exact h.skip hi rfl rfl
  | uses hi hne => exact h
  | frees hi hne | closes hi hptr => exact h.less (fun _ => hgave) (hthere hi) rfl rfl
  | leaves hi => exact h.less (fun _ hm => Option.some_ne_none _ hm.symm) (hthere hi) rfl rfl
  | take hfree => exact h
  | give hr => exact h

/-! ### Several steps -/

/-- Steps of which none obtains a resource. -/
abbrev Quiet (null : R) : Pool ι R → Pool ι R → Prop := Relation.ReflTransGen (Step null none)

theorem Quiet.inv (hnull : ¬ Valid null) (hsteps : Quiet null p q) (h : Inv null Valid p L) : ∃ L', Inv null Valid q L' := by
  induction hsteps with
  | refl => exact ⟨L, h⟩
  | tail _ hstep ih =>
    obtain ⟨L', h'⟩ := ih
    exact hstep.inv hnull h'

theorem Quiet.alone (hsteps : Quiet null p q) (h : Alone null p) : Alone null q := by
  induction hsteps with
  | refl => exact h
  | tail _ hstep ih => exact hstep.alone ih

end

end Parties
end OsLabs
