import Mathlib.Algebra.Group.Action.Defs
import Mathlib.Algebra.GroupWithZero.Nat
import Mathlib.Algebra.Order.BigOperators.Group.List
import Mathlib.Algebra.Order.Group.Nat
import Mathlib.Data.List.Basic
import Mathlib.Tactic.Common

/-! # The processes of a system as a list

A process that moves is an entry that is set, a new one an entry at the end (`entry_set_cases`,
`entry_snoc_cases`). `tally w l` adds the weights of the entries of `l`: how many processes are in a
section, how much work is left. `tally_set` says what one process that moves does to it, so that a
conserved quantity of a system reduces to one equation for each step.
-/

namespace LinuxAppSamp.Execution
set_option autoImplicit false
set_option maxHeartbeats 250000

variable {β : Type}

/-! ## Entries -/

theorem entry_set_cases {l : List β} {i k : ℕ} {x y : β} (h : (l.set i y)[k]? = some x) :
    (k = i ∧ x = y) ∨ (k ≠ i ∧ l[k]? = some x) := by
  by_cases hk : k = i
  · rw [hk] at h
    have hi : i < l.length := by
      have hlt := (List.getElem?_eq_some_iff.mp h).1
      rw [List.length_set] at hlt
      exact hlt
    rw [List.getElem?_set_self hi, Option.some.injEq] at h
    exact Or.inl ⟨hk, h.symm⟩
  · rw [List.getElem?_set_ne (Ne.symm hk)] at h
    exact Or.inr ⟨hk, h⟩

theorem entry_snoc_cases {l : List β} {k : ℕ} {x y : β} (h : (l ++ [y])[k]? = some x) :
    (k < l.length ∧ l[k]? = some x) ∨ (k = l.length ∧ x = y) := by
  have hk := (List.getElem?_eq_some_iff.mp h).1
  rw [List.length_append, List.length_singleton] at hk
  by_cases hlt : k < l.length
  · rw [List.getElem?_append_left hlt] at h
    exact Or.inl ⟨hlt, h⟩
  · have hlast : k = l.length := by omega
    rw [hlast, List.getElem?_concat_length, Option.some.injEq] at h
    exact Or.inr ⟨hlast, h.symm⟩

/-! ## Sums -/

def tally (w : β → ℕ) (l : List β) : ℕ := (l.map w).sum

@[simp] theorem tally_cons (w : β → ℕ) (x : β) (l : List β) :
    tally w (x :: l) = w x + tally w l := by
  rw [tally, List.map_cons, List.sum_cons, tally]

theorem tally_snoc (w : β → ℕ) (l : List β) (x : β) : tally w (l ++ [x]) = tally w l + w x := by
  rw [tally, List.map_append, List.sum_append, List.map_singleton, List.sum_singleton, tally]

theorem tally_set (w : β → ℕ) (l : List β) (i : ℕ) (x y : β) (h : l[i]? = some x) :
    tally w (l.set i y) + w x = tally w l + w y := by
  induction l generalizing i with
  | nil => cases h
  | cons z l ih =>
    cases i with
    | zero =>
      cases Option.some.inj h
      rw [List.set_cons_zero, tally_cons, tally_cons]
      omega
    | succ i =>
      have := ih i h
      rw [List.set_cons_succ, tally_cons, tally_cons]
      omega

theorem tally_append (w : β → ℕ) (l m : List β) : tally w (l ++ m) = tally w l + tally w m := by
  rw [tally, List.map_append, List.sum_append, tally, tally]

theorem tally_eraseIdx (w : β → ℕ) (l : List β) (i : ℕ) (x : β) (h : l[i]? = some x) :
    tally w (l.eraseIdx i) + w x = tally w l := by
  induction l generalizing i with
  | nil => cases h
  | cons z l ih =>
    cases i with
    | zero =>
      cases Option.some.inj h
      rw [List.eraseIdx_cons_zero, tally_cons, Nat.add_comm]
    | succ i =>
      rw [List.eraseIdx_cons_succ, tally_cons, tally_cons, Nat.add_assoc, ih i h]

theorem le_tally (w : β → ℕ) (l : List β) (x : β) (h : x ∈ l) : w x ≤ tally w l :=
  List.le_sum_of_mem (List.mem_map_of_mem h)

theorem tally_pos (w : β → ℕ) (l : List β) (h : 0 < tally w l) :
    ∃ (i : ℕ) (x : β), l[i]? = some x ∧ 0 < w x := by
  by_contra hnone
  push Not at hnone
  have hzero : ∀ y ∈ l.map w, y = 0 := by
    intro y hy
    obtain ⟨x, hx, rfl⟩ := List.mem_map.mp hy
    obtain ⟨i, hi⟩ := List.mem_iff_getElem?.mp hx
    exact Nat.le_zero.mp (hnone i x hi)
  exact Nat.ne_of_gt h (List.sum_eq_zero_iff.mpr hzero)

theorem add_le_tally (w : β → ℕ) (l : List β) (i j : ℕ) (x y : β) (hi : l[i]? = some x)
    (hj : l[j]? = some y) (hne : i ≠ j) : w x + w y ≤ tally w l := by
  induction l generalizing i j with
  | nil => cases hi
  | cons z l ih =>
    rw [tally_cons]
    cases i with
    | zero =>
      cases j with
      | zero => exact absurd rfl hne
      | succ j =>
        cases Option.some.inj hi
        have := le_tally w l y (List.mem_of_getElem? hj)
        omega
    | succ i =>
      cases j with
      | zero =>
        cases Option.some.inj hj
        have := le_tally w l x (List.mem_of_getElem? hi)
        omega
      | succ j =>
        have := ih i j hi hj (by omega)
        omega

theorem tally_mono (w v : β → ℕ) (l : List β) (h : ∀ x, w x ≤ v x) : tally w l ≤ tally v l :=
  List.sum_le_sum fun x _ => h x

theorem tally_congr (w v : β → ℕ) (l : List β) (h : ∀ x ∈ l, w x = v x) : tally w l = tally v l := by
  rw [tally, tally, List.map_congr_left h]

theorem tally_const (w : β → ℕ) (c : ℕ) (l : List β) (h : ∀ x ∈ l, w x = c) :
    tally w l = l.length * c := by
  have hsum := List.sum_eq_card_nsmul (l.map w) c (by simpa using h)
  rw [List.length_map, smul_eq_mul] at hsum
  exact hsum

theorem tally_le (w : β → ℕ) (c : ℕ) (l : List β) (h : ∀ x ∈ l, w x ≤ c) : tally w l ≤ l.length * c := by
  rw [← tally_const (fun _ => c) c l fun _ _ => rfl]
  exact List.sum_le_sum h

theorem tally_lt (w : β → ℕ) (c : ℕ) (l : List β) (h : ∀ x ∈ l, w x ≤ c) (x : β) (hx : x ∈ l)
    (hlt : w x < c) : tally w l < l.length * c := by
  rw [← tally_const (fun _ => c) c l fun _ _ => rfl]
  exact List.sum_lt_sum w (fun _ => c) h ⟨x, hx, hlt⟩

theorem tally_lt_tally (w v : β → ℕ) (l : List β) (h : ∀ x, w x ≤ v x) (x : β) (hx : x ∈ l)
    (hlt : w x < v x) : tally w l < tally v l :=
  List.sum_lt_sum w v (fun y _ => h y) ⟨x, hx, hlt⟩

end LinuxAppSamp.Execution
