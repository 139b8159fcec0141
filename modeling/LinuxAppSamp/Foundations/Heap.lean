import Mathlib.Data.Fintype.EquivFin
import Mathlib.Logic.Function.Basic
import Mathlib.Tactic.Common

/-! # Cells from `malloc` and who owns them

A `Heap α` says which addresses are allocated and what the cells hold. `malloc` may hand out any
address that is not allocated, one that was freed before too. `store`, `load` and `free` give
`none` where the C program would touch memory that is not its own.

`Owned h holds` is the discipline under which none of this happens: every allocated cell is held by
exactly one party. The rules say what the four operations, and handing a cell over, do to it.
-/

namespace LinuxAppSamp.Memory
set_option autoImplicit false
set_option maxHeartbeats 250000

/-- `none` is not allocated, `some none` allocated and never written. -/
abbrev Heap (α : Type) : Type := ℕ → Option (Option α)

namespace Heap
variable {α : Type}

def empty : Heap α := fun _ => none

/-- Address 0 is `NULL`. -/
def malloc (h : Heap α) (p : ℕ) : Option (Heap α) :=
  if p ≠ 0 ∧ h p = none then some (Function.update h p (some none)) else none

def store (h : Heap α) (p : ℕ) (a : α) : Option (Heap α) :=
  if h p ≠ none then some (Function.update h p (some (some a))) else none

def load (h : Heap α) (p : ℕ) : Option α := (h p).join

def free (h : Heap α) (p : ℕ) : Option (Heap α) :=
  if p = 0 then some h
  else if h p ≠ none then some (Function.update h p none) else none

variable {h h' : Heap α} {p q : ℕ}

theorem malloc_inv (hm : h.malloc p = some h') :
    p ≠ 0 ∧ h p = none ∧ h' = Function.update h p (some none) := by
  obtain ⟨⟨hp, hfree⟩, hm⟩ := Option.ite_none_right_eq_some.mp hm
  exact ⟨hp, hfree, (Option.some.inj hm).symm⟩

theorem store_ok (a : α) (hp : h p ≠ none) :
    h.store p a = some (Function.update h p (some (some a))) := if_pos hp

theorem free_ok (h0 : p ≠ 0) (hp : h p ≠ none) : h.free p = some (Function.update h p none) := by
  rw [free, if_neg h0, if_pos hp]

theorem load_of_eq {a : α} (hp : h p = some (some a)) : h.load p = some a := by
  rw [load, hp]
  rfl

end Heap

/-! ## Ownership -/

section
variable {α ι : Type} {h : Heap α} {holds holds' : ι → ℕ → Prop}

structure Owned (h : Heap α) (holds : ι → ℕ → Prop) : Prop where
  live : ∀ i p, holds i p → p ≠ 0 ∧ h p ≠ none
  once : ∀ i j p, holds i p → holds j p → i = j
  none_lost : ∀ p, h p ≠ none → ∃ i, holds i p

theorem Owned.empty (hnone : ∀ i p, ¬ holds i p) : Owned (Heap.empty : Heap α) holds :=
  ⟨fun i p hp => absurd hp (hnone i p), fun i _ p hp => absurd hp (hnone i p),
    fun _ hp => absurd rfl hp⟩

theorem Owned.same (hown : Owned h holds) (hQ : ∀ i p, holds' i p ↔ holds i p) : Owned h holds' := by
  refine ⟨fun i p hp => hown.live i p ((hQ i p).mp hp), ?_, ?_⟩
  · exact fun i j p hi hj => hown.once i j p ((hQ i p).mp hi) ((hQ j p).mp hj)
  · intro p hp
    obtain ⟨i, hi⟩ := hown.none_lost p hp
    exact ⟨i, (hQ i p).mpr hi⟩

theorem Owned.malloc (hown : Owned h holds) {h' : Heap α} {p : ℕ} (hm : h.malloc p = some h') (i : ι)
    (hQ : ∀ j q, holds' j q ↔ holds j q ∨ j = i ∧ q = p) : Owned h' holds' := by
  obtain ⟨hp, hfree, rfl⟩ := Heap.malloc_inv hm
  have hne : ∀ j q, holds j q → q ≠ p := by
    intro j q hq he
    rw [he] at hq
    exact (hown.live j p hq).2 hfree
  refine ⟨?_, ?_, ?_⟩
  · intro j q hq
    obtain hq | ⟨-, rfl⟩ := (hQ j q).mp hq
    · rw [Function.update_of_ne (hne j q hq)]
      exact hown.live j q hq
    · rw [Function.update_self]
      exact ⟨hp, by simp⟩
  · intro j k q hj hk
    obtain hj | ⟨rfl, rfl⟩ := (hQ j q).mp hj
    · obtain hk | ⟨-, rfl⟩ := (hQ k q).mp hk
      · exact hown.once j k q hj hk
      · exact absurd rfl (hne j q hj)
    · obtain hk | ⟨hk, -⟩ := (hQ k q).mp hk
      · exact absurd rfl (hne k q hk)
      · exact hk.symm
  · intro q hq
    by_cases hqp : q = p
    · exact ⟨i, (hQ i q).mpr (Or.inr ⟨rfl, hqp⟩)⟩
    · rw [Function.update_of_ne hqp] at hq
      obtain ⟨j, hj⟩ := hown.none_lost q hq
      exact ⟨j, (hQ j q).mpr (Or.inl hj)⟩

theorem Owned.write (hown : Owned h holds) {p : ℕ} (c : Option α) (hp : h p ≠ none) :
    Owned (Function.update h p (some c)) holds := by
  have hiff : ∀ q, Function.update h p (some c) q ≠ none ↔ h q ≠ none := by
    intro q
    by_cases hq : q = p
    · rw [hq, Function.update_self]
      exact iff_of_true (by simp) hp
    · rw [Function.update_of_ne hq]
  refine ⟨fun i q hq => ?_, hown.once, fun q hq => hown.none_lost q ((hiff q).mp hq)⟩
  rw [hiff]
  exact hown.live i q hq

theorem Owned.free (hown : Owned h holds) (p : ℕ)
    (hQ : ∀ j q, holds' j q ↔ holds j q ∧ q ≠ p) : Owned (Function.update h p none) holds' := by
  refine ⟨?_, ?_, ?_⟩
  · intro j q hq
    obtain ⟨hq, hne⟩ := (hQ j q).mp hq
    rw [Function.update_of_ne hne]
    exact hown.live j q hq
  · exact fun j k q hj hk => hown.once j k q ((hQ j q).mp hj).1 ((hQ k q).mp hk).1
  · intro q hq
    by_cases hqp : q = p
    · rw [hqp, Function.update_self] at hq
      exact absurd rfl hq
    · rw [Function.update_of_ne hqp] at hq
      obtain ⟨j, hj⟩ := hown.none_lost q hq
      exact ⟨j, (hQ j q).mpr ⟨hj, hqp⟩⟩

/-- When the parties hold finitely many cells, `malloc` has one more. -/
theorem Owned.can_malloc (hown : Owned h holds) (l : List ℕ) (hl : ∀ i p, holds i p → p ∈ l) :
    ∃ p h', h.malloc p = some h' := by
  obtain ⟨p, hp⟩ := Infinite.exists_notMem_finset (0 :: l).toFinset
  rw [List.mem_toFinset, List.mem_cons, not_or] at hp
  have hfree : h p = none := by
    by_contra hlive
    obtain ⟨i, hi⟩ := hown.none_lost p hlive
    exact hp.2 (hl i p hi)
  exact ⟨p, _, if_pos ⟨hp.1, hfree⟩⟩

/-- Party `i` hands the cell at `p` over to party `k`. -/
theorem Owned.hand (hown : Owned h holds) {p : ℕ} {i k : ι} (hi : holds i p)
    (hQ : ∀ j q, holds' j q ↔ q ≠ p ∧ holds j q ∨ q = p ∧ j = k) : Owned h holds' := by
  refine ⟨?_, ?_, ?_⟩
  · intro j q hq
    obtain ⟨-, hq⟩ | ⟨rfl, -⟩ := (hQ j q).mp hq
    · exact hown.live j q hq
    · exact hown.live i q hi
  · intro j l q hj hl
    obtain ⟨hne, hj⟩ | ⟨rfl, rfl⟩ := (hQ j q).mp hj
    · obtain ⟨-, hl⟩ | ⟨he, -⟩ := (hQ l q).mp hl
      · exact hown.once j l q hj hl
      · exact absurd he hne
    · obtain ⟨hne, -⟩ | ⟨-, hl⟩ := (hQ l q).mp hl
      · exact absurd rfl hne
      · exact hl.symm
  · intro q hq
    by_cases hqp : q = p
    · exact ⟨k, (hQ k q).mpr (Or.inr ⟨hqp, rfl⟩)⟩
    · obtain ⟨j, hj⟩ := hown.none_lost q hq
      exact ⟨j, (hQ j q).mpr (Or.inl ⟨hqp, hj⟩)⟩

end
end LinuxAppSamp.Memory
