import Mathlib.Data.Nat.Notation
import Mathlib.Tactic.Common

/-! # Two lists in one

`Merged as bs r`: the list `r` is made of `as` and `bs`, each in its own order. It is what a reader
sees of two parties that write to one place. A run adds at the end, so `Merged.snoc_left` and
`Merged.snoc_right` are the rules for its steps; `merges` lists the possible results, and
`merged_filter` takes any list apart by who has written what.
-/

namespace LinuxAppSamp.Execution
set_option autoImplicit false
set_option maxHeartbeats 250000

section
variable {α : Type}

inductive Merged : List α → List α → List α → Prop
  | nil : Merged [] [] []
  | left {a : α} {as bs r : List α} (h : Merged as bs r) : Merged (a :: as) bs (a :: r)
  | right {b : α} {as bs r : List α} (h : Merged as bs r) : Merged as (b :: bs) (b :: r)

theorem Merged.nil_right (as : List α) : Merged as [] as := by
  induction as with
  | nil => exact .nil
  | cons a as ih => exact .left ih

theorem Merged.nil_left (bs : List α) : Merged [] bs bs := by
  induction bs with
  | nil => exact .nil
  | cons b bs ih => exact .right ih

theorem Merged.append {as as' bs bs' r r' : List α} (h : Merged as bs r) (h' : Merged as' bs' r') :
    Merged (as ++ as') (bs ++ bs') (r ++ r') := by
  induction h with
  | nil => exact h'
  | left _ ih => exact .left ih
  | right _ ih => exact .right ih

theorem Merged.snoc_left {as bs r : List α} (h : Merged as bs r) (a : α) :
    Merged (as ++ [a]) bs (r ++ [a]) := by
  have happ := h.append (.left .nil : Merged [a] [] [a])
  rw [List.append_nil] at happ
  exact happ

theorem Merged.snoc_right {as bs r : List α} (h : Merged as bs r) (b : α) :
    Merged as (bs ++ [b]) (r ++ [b]) := by
  have happ := h.append (.right .nil : Merged [] [b] [b])
  rw [List.append_nil] at happ
  exact happ

theorem Merged.map {β : Type} (f : α → β) {as bs r : List α} (h : Merged as bs r) :
    Merged (as.map f) (bs.map f) (r.map f) := by
  induction h with
  | nil => exact .nil
  | left _ ih => exact .left ih
  | right _ ih => exact .right ih

/-! ## All results -/

def merges : List α → List α → List (List α)
  | [], bs => [bs]
  | a :: as, [] => [a :: as]
  | a :: as, b :: bs =>
    (merges as (b :: bs)).map (List.cons a) ++ (merges (a :: as) bs).map (List.cons b)

theorem merged_of_mem {as bs r : List α} (h : r ∈ merges as bs) : Merged as bs r := by
  induction as, bs using merges.induct generalizing r with
  | case1 bs =>
    rw [merges, List.mem_singleton] at h
    rw [h]
    exact .nil_left bs
  | case2 a as =>
    rw [merges, List.mem_singleton] at h
    rw [h]
    exact .nil_right (a :: as)
  | case3 a as b bs iha ihb =>
    rw [merges, List.mem_append, List.mem_map, List.mem_map] at h
    obtain ⟨r, hr, rfl⟩ | ⟨r, hr, rfl⟩ := h
    · exact .left (iha hr)
    · exact .right (ihb hr)

theorem mem_of_merged {as bs r : List α} (h : Merged as bs r) : r ∈ merges as bs := by
  induction h with
  | nil =>
    rw [merges]
    exact List.mem_singleton_self []
  | @left a as bs r h ih =>
    cases bs with
    | nil =>
      cases as with
      | nil =>
        rw [merges, List.mem_singleton] at ih
        rw [merges, List.mem_singleton, ih]
      | cons a' as =>
        rw [merges, List.mem_singleton] at ih
        rw [merges, List.mem_singleton, ih]
    | cons b bs =>
      rw [merges]
      exact List.mem_append_left _ (List.mem_map_of_mem ih)
  | @right b as bs r h ih =>
    cases as with
    | nil =>
      rw [merges, List.mem_singleton] at ih ⊢
      rw [ih]
    | cons a as =>
      rw [merges]
      exact List.mem_append_right _ (List.mem_map_of_mem ih)

/-! ## Taking a result apart -/

theorem merged_filter (p : α → Bool) (r : List α) :
    Merged (r.filter p) (r.filter fun a => !p a) r := by
  induction r with
  | nil => exact .nil
  | cons a r ih =>
    cases ha : p a with
    | true =>
      rw [List.filter_cons_of_pos ha, List.filter_cons_of_neg (by simp [ha])]
      exact .left ih
    | false =>
      rw [List.filter_cons_of_neg (by simp [ha]), List.filter_cons_of_pos (by simp [ha])]
      exact .right ih

end
end LinuxAppSamp.Execution
