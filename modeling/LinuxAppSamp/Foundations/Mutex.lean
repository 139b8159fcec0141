import LinuxAppSamp.Foundations.Tally

/-! # A mutex and those inside

`Guards owner inside`: the owner of the mutex is the one party that is inside a section it guards.
`Guards.unique` is mutual exclusion, and `Guards.move` what a step of one party has to show.
-/

namespace LinuxAppSamp.Execution
set_option autoImplicit false
set_option maxHeartbeats 250000

section
variable {ι β : Type}

def Guards (owner : Option ι) (inside : ι → Prop) : Prop := ∀ i, owner = some i ↔ inside i

variable {owner owner' : Option ι} {P Q : ι → Prop}

theorem Guards.unique (h : Guards owner P) {i j : ι} (hi : P i) (hj : P j) : i = j :=
  Option.some.inj (((h i).mpr hi).symm.trans ((h j).mpr hj))

theorem Guards.not_inside (h : Guards owner P) (hfree : owner = none) (i : ι) : ¬ P i := by
  intro hi
  cases hfree.symm.trans ((h i).mpr hi)

theorem Guards.free_or (h : Guards owner P) : owner = none ∨ ∃ i, owner = some i ∧ P i := by
  cases ho : owner with
  | none => exact Or.inl rfl
  | some i => exact Or.inr ⟨i, rfl, (h i).mp ho⟩

theorem Guards.same (h : Guards owner P) (hQ : ∀ i, Q i ↔ P i) : Guards owner Q :=
  fun i => (h i).trans (hQ i).symm

/-- One party moves: it enters the section, leaves it, or does neither. -/
theorem Guards.move (h : Guards owner P) (i : ι) (hother : ∀ j, j ≠ i → (Q j ↔ P j))
    (henter : ¬ P i → Q i → owner = none ∧ owner' = some i)
    (hleave : P i → ¬ Q i → owner' = none) (hstay : (P i ↔ Q i) → owner' = owner) :
    Guards owner' Q := by
  intro j
  by_cases hj : j = i
  · rw [hj]
    by_cases hP : P i
    · by_cases hQ : Q i
      · rw [hstay (iff_of_true hP hQ)]
        exact iff_of_true ((h i).mpr hP) hQ
      · rw [hleave hP hQ]
        exact iff_of_false (by simp) hQ
    · by_cases hQ : Q i
      · rw [(henter hP hQ).2]
        exact iff_of_true rfl hQ
      · rw [hstay (iff_of_false hP hQ)]
        exact iff_of_false (fun ho => hP ((h i).mp ho)) hQ
  · rw [hother j hj]
    by_cases hP : P i
    · have hnot : ¬ P j := fun hPj => hj (h.unique hPj hP)
      by_cases hQ : Q i
      · rw [hstay (iff_of_true hP hQ)]
        exact h j
      · rw [hleave hP hQ]
        exact iff_of_false (by simp) hnot
    · by_cases hQ : Q i
      · obtain ⟨hfree, howner⟩ := henter hP hQ
        rw [howner]
        exact iff_of_false (fun ho => hj (Option.some.inj ho).symm) (h.not_inside hfree j)
      · rw [hstay (iff_of_false hP hQ)]
        exact h j

/-! ## Parties in a list -/

/-- The party in place `i` of `l` is at a point of `C`. -/
def At (C : β → Prop) (l : List β) (i : ℕ) : Prop := ∃ x, l[i]? = some x ∧ C x

theorem at_iff {C : β → Prop} {l : List β} {i : ℕ} {x : β} (h : l[i]? = some x) : At C l i ↔ C x := by
  constructor
  · rintro ⟨y, hy, hC⟩
    cases Option.some.inj (h.symm.trans hy)
    exact hC
  · exact fun hC => ⟨x, h, hC⟩

theorem at_set_self (C : β → Prop) {l : List β} {i : ℕ} {x : β} (y : β) (h : l[i]? = some x) :
    At C (l.set i y) i ↔ C y :=
  at_iff (List.getElem?_set_self (List.getElem?_eq_some_iff.mp h).1)

theorem at_set_ne (C : β → Prop) (l : List β) {i j : ℕ} (y : β) (h : j ≠ i) :
    At C (l.set i y) j ↔ At C l j := by
  unfold At
  rw [List.getElem?_set_ne (Ne.symm h)]

theorem at_snoc_iff (C : β → Prop) (l : List β) (y : β) (i : ℕ) :
    At C (l ++ [y]) i ↔ At C l i ∨ i = l.length ∧ C y := by
  constructor
  · rintro ⟨x, hx, hC⟩
    obtain ⟨-, hx⟩ | ⟨hi, rfl⟩ := entry_snoc_cases hx
    · exact Or.inl ⟨x, hx, hC⟩
    · exact Or.inr ⟨hi, hC⟩
  · rintro (⟨x, hx, hC⟩ | ⟨rfl, hC⟩)
    · exact ⟨x, (List.getElem?_append_left (List.getElem?_eq_some_iff.mp hx).1).trans hx, hC⟩
    · exact ⟨y, List.getElem?_concat_length, hC⟩

theorem at_snoc (C : β → Prop) (l : List β) (y : β) (hy : ¬ C y) (i : ℕ) :
    At C (l ++ [y]) i ↔ At C l i := by
  rw [at_snoc_iff]
  exact or_iff_left fun h => hy h.2

end
end LinuxAppSamp.Execution
