/-
# The list of fibers

The `next` pointers lead from `CurrentFiber` through the list (`nodes`). Two statements change it:
`tail->next = fiber` (`Cycle.link`) and `prev->next = cur->next` (`Cycle.unlink`).

`FiberSpawn`, `FreeFinishedFibers` and `FiberYield` keep pointers into the list from one
statement to the next: `tail`, `prev`, `cur` and `to`. When the processor goes to another fiber in
between, that one may edit the list, free records and get their memory anew. `PC.Fresh` says what a statement
needs of its pointers.

Key definitions: `nodes`, `Cycle`, `PC.Fresh`.
-/
import OsLabs.Fibers.Api
import OsLabs.PFibers.Steps

namespace OsLabs
namespace PFibers
namespace Steps

open Fibers (Addr NULL Main Fiber Fault Mem)

section

variable {κ : Type}

/-- The records from `a` on, up to the one that points to `CurrentFiber`. -/
def follow (m : Mem κ) : ℕ → Addr → List Addr
  | 0, _ => []
  | n + 1, a =>
    match m.next a with
    | none => [a]
    | some b => if b = m.currentFiber then [a] else a :: follow m n b

/-- The records of the list. -/
def nodes (m : Mem κ) : List Addr := follow m m.fuel m.currentFiber

variable {m m' : Mem κ} {a b c : Addr} {r : Fiber κ} {l : List Addr}

theorem follow_eq : ∀ {n : ℕ} {a : Addr} {l : List Addr}, Links m.next (a :: l) m.currentFiber → m.currentFiber ∉ l →
    l.length < n → follow m n a = a :: l
  | n + 1, a, [], h, _, _ => by
    have hn : m.next a = some m.currentFiber := h.1
    simp [follow, hn]
  | n + 1, a, b :: l, h, hc, hlen => by
    have hn : m.next a = some b := h.1
    have hb : b ≠ m.currentFiber := fun he => hc (he ▸ List.mem_cons_self)
    have ih := follow_eq h.2 (fun hm => hc (List.mem_cons_of_mem _ hm)) (Nat.lt_of_succ_lt_succ hlen)
    simp only [follow, hn, if_neg hb, ih]

theorem mem_of_next (h : (m.next a).isSome) : a ∈ m.heap := by
  rw [Mem.next, Option.isSome_map, AList.lookup_isSome] at h
  exact h

/-- On a cycle, they are its nodes. -/
theorem nodes_of_ring (h : Ring m.next m.currentFiber l) : nodes m = m.currentFiber :: l := by
  refine follow_eq h.links (List.nodup_cons.mp h.nodup).1 ?_
  have hsub : (m.currentFiber :: l).Subperm m.heap.keys :=
    h.nodup.subperm fun a ha => AList.mem_keys.mp (mem_of_next (h.next_isSome ha))
  exact hsub.length_le

/-- The list is a cycle. -/
def Cycle (m : Mem κ) : Prop := Ring m.next m.currentFiber (nodes m).tail

theorem cycle_of_ring (h : Ring m.next m.currentFiber l) : Cycle m := by
  rw [Cycle, nodes_of_ring h]
  exact h

theorem Cycle.nodes_eq (h : Cycle m) : nodes m = m.currentFiber :: (nodes m).tail := nodes_of_ring h

theorem Cycle.current_mem (h : Cycle m) : m.currentFiber ∈ nodes m := by
  rw [h.nodes_eq]
  exact List.mem_cons_self

theorem Cycle.lookup (h : Cycle m) (ha : a ∈ nodes m) : ∃ r, m.heap.lookup a = some r := by
  rw [h.nodes_eq] at ha
  exact Mem.exists_of_mem (mem_of_next (Ring.next_isSome h ha))

theorem Cycle.next_mem (h : Cycle m) (ha : a ∈ nodes m) (hr : m.heap.lookup a = some r) : r.next ∈ nodes m := by
  rw [h.nodes_eq] at ha ⊢
  exact Ring.next_mem h ha (Fibers.next_of_lookup hr)

theorem Cycle.next_inj (h : Cycle m) (ha : a ∈ nodes m) (hb : b ∈ nodes m) (he : m.next a = m.next b) : a = b := by
  rw [h.nodes_eq] at ha hb
  exact Ring.next_inj h ha hb he

/-- The list is seen by its links. -/
theorem Cycle.congr (h : Cycle m) (hc : m'.currentFiber = m.currentFiber) (hn : ∀ a ∈ nodes m, m'.next a = m.next a) :
    Cycle m' ∧ nodes m' = nodes m := by
  have hring : Ring m'.next m'.currentFiber (nodes m).tail := by
    rw [hc]
    exact Ring.congr h fun a ha => hn a (by rwa [h.nodes_eq])
  refine ⟨cycle_of_ring hring, ?_⟩
  rw [nodes_of_ring hring, hc, ← h.nodes_eq]

/-- It is entered at another of its fibers. -/
theorem Cycle.enter (h : Cycle m) (hc : m'.currentFiber ∈ nodes m) (hn : m'.next = m.next) :
    Cycle m' ∧ ∀ a, a ∈ nodes m' ↔ a ∈ nodes m := by
  rw [h.nodes_eq] at hc
  obtain ⟨l', hl', hm⟩ := Ring.reenter h hc
  rw [← hn] at hl'
  refine ⟨cycle_of_ring hl', fun a => ?_⟩
  rw [nodes_of_ring hl', hm, ← h.nodes_eq]

/-- `tail->next = fiber;` The new fiber comes last. -/
theorem Cycle.link (h : Cycle m) {tail : Addr} (htail : tail ∈ nodes m)
    (hnext : m.next tail = some m.currentFiber) (hb : b ∉ nodes m) (hbn : m.next b = some m.currentFiber) :
    Cycle (m.put tail { r with next := b }) ∧
      ∀ a, a ∈ nodes (m.put tail { r with next := b }) ↔ a ∈ nodes m ∨ a = b := by
  have hbt : b ≠ tail := fun he => hb (he ▸ htail)
  have hlast : before m.currentFiber (nodes m).tail = tail := by
    refine h.next_inj ?_ htail ((Ring.next_before h).trans hnext.symm)
    rw [h.nodes_eq]
    exact before_mem _ _
  have hring : Ring (m.put tail { r with next := b }).next m.currentFiber ((nodes m).tail ++ [b]) := by
    refine Ring.append h (by rwa [← h.nodes_eq]) ?_ ?_ fun a ha hne => ?_
    · rw [Mem.next_put, if_neg hbt, hbn]
    · rw [hlast, Mem.next_put, if_pos rfl]
    · rw [hlast] at hne
      rw [Mem.next_put, if_neg hne]
  refine ⟨cycle_of_ring hring, fun a => ?_⟩
  rw [nodes_of_ring hring, Mem.put_currentFiber, ← List.cons_append, ← h.nodes_eq, List.mem_append, List.mem_singleton]

/-- `prev->next = cur->next;` Then `cur` is out of the list. -/
theorem Cycle.unlink (h : Cycle m) {prev : Addr} {p : Fiber κ} (hr : m.heap.lookup c = some r) (hp : m.heap.lookup prev = some p)
    (hprev : prev ∈ nodes m) (hnext : m.next prev = some c) (hc : c ≠ m.currentFiber) :
    Cycle (m.put prev { p with next := r.next }) ∧ prev ≠ c ∧
      ∀ a, a ∈ nodes (m.put prev { p with next := r.next }) ↔ a ∈ nodes m ∧ a ≠ c := by
  have hcn : c ∈ nodes m := by
    rw [Fibers.next_of_lookup hp, Option.some.injEq] at hnext
    exact hnext ▸ h.next_mem hprev hp
  have hct : c ∈ (nodes m).tail := by
    rw [h.nodes_eq] at hcn
    exact (List.mem_cons.mp hcn).resolve_left hc
  obtain ⟨l₁, l₂, hsplit⟩ := List.append_of_mem hct
  have hcy := h
  unfold Cycle at hcy
  rw [hsplit] at hcy
  have hlast : before m.currentFiber l₁ = prev := by
    refine h.next_inj ?_ hprev (hcy.next_middle.1.trans hnext.symm)
    rw [h.nodes_eq, hsplit, ← List.cons_append]
    exact List.mem_append_left _ (before_mem _ _)
  have hring : Ring (m.put prev { p with next := r.next }).next m.currentFiber (l₁ ++ l₂) := by
    refine hcy.remove ?_ fun a _ hne => ?_
    · rw [hlast, Mem.next_put, if_pos rfl, Fibers.next_of_lookup hr]
    · rw [hlast] at hne
      rw [Mem.next_put, if_neg hne]
  refine ⟨cycle_of_ring hring, hlast ▸ hcy.before_ne, fun a => ?_⟩
  have hnodup := hcy.nodup
  rw [nodes_of_ring hring, Mem.put_currentFiber, h.nodes_eq, hsplit]
  simp only [List.nodup_cons, List.nodup_append, List.mem_cons, List.mem_append] at hnodup ⊢
  constructor
  · grind
  · grind

end

/-! ### Pointers into the list -/

/-- What a statement of the fiber `a` needs of its pointers into the list. -/
def PC.Fresh (m : Mem Context) (a : Addr) : PC → Prop
  | .spawnWhile _ tail | .spawnStep _ tail => tail ∈ nodes m
  -- behind the search it is the last one before `a`
  | .spawnLink _ tail => tail ∈ nodes m ∧ m.next tail = some a
  | .freeWhile prev c => c ≠ a → c ∈ nodes m ∧ (m.finished c = true → prev ∈ nodes m ∧ m.next prev = some c)
  | .freeIf prev c => c ∈ nodes m ∧ (m.finished c = true → prev ∈ nodes m ∧ m.next prev = some c)
  | .freeUnlink prev c => m.finished c = true ∧ prev ∈ nodes m ∧ m.next prev = some c
  -- `cur` is out of the list by now
  | .freeStack prev _ | .freeFiber prev _ | .freeNext prev => prev ∈ nodes m
  | .freeMove c | .freeStep _ c => c ∈ nodes m
  | .yieldTest _ dst | .yieldSet _ dst => dst ∈ nodes m
  | _ => True

instance (m : Mem Context) (a : Addr) : DecidablePred (PC.Fresh m a)
  | .spawnWhile _ tail | .spawnStep _ tail => inferInstanceAs (Decidable (tail ∈ nodes m))
  | .spawnLink _ tail => inferInstanceAs (Decidable (tail ∈ nodes m ∧ m.next tail = some a))
  | .freeWhile prev c =>
    inferInstanceAs (Decidable (c ≠ a → c ∈ nodes m ∧ (m.finished c = true → prev ∈ nodes m ∧ m.next prev = some c)))
  | .freeIf prev c => inferInstanceAs (Decidable (c ∈ nodes m ∧ (m.finished c = true → prev ∈ nodes m ∧ m.next prev = some c)))
  | .freeUnlink prev c => inferInstanceAs (Decidable (m.finished c = true ∧ prev ∈ nodes m ∧ m.next prev = some c))
  | .freeStack prev _ | .freeFiber prev _ | .freeNext prev => inferInstanceAs (Decidable (prev ∈ nodes m))
  | .freeMove c | .freeStep _ c => inferInstanceAs (Decidable (c ∈ nodes m))
  | .yieldTest _ dst | .yieldSet _ dst => inferInstanceAs (Decidable (dst ∈ nodes m))
  | .user | .trampCall | .trampFinish | .trampYield | .trampAssert | .initTest | .initNext | .initF | .initCur | .spawnTest _ _
  | .spawnInit _ _ | .spawnMalloc _ _ | .spawnF _ _ _ | .spawnArgs _ _ | .spawnFinished _ | .spawnStack _ | .spawnRsp _
  | .spawnNext _ | .spawnTail _ | .freePrev | .freeCur _ | .yieldInit | .yieldFree | .yieldFrom | .yieldTo _ | .yieldSwitch _ _
  | .yieldEnd | .joinInit | .joinFree | .joinTest | .pushfq | .popSaved _ | .save _ | .load _ | .pushSaved | .popfq _ | .loadRsi
  | .swRet => isTrue trivial

/-- The list of fibers and its finished ones are all that it depends on. -/
theorem PC.Fresh.congr {m m' : Mem Context} {a : Addr} {p : PC} (h : p.Fresh m a) (hn : ∀ b, b ∈ nodes m' ↔ b ∈ nodes m)
    (hnext : m'.next = m.next) (hf : ∀ b, m'.finished b = m.finished b) : p.Fresh m' a := by
  unfold PC.Fresh at h ⊢
  simp only [hn, hnext, hf]
  exact h

end Steps
end PFibers
end OsLabs
