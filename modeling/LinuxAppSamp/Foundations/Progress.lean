import LinuxAppSamp.Foundations.Steps
import LinuxAppSamp.Foundations.Tally

/-! # Systems that come to an end

`Progresses step allowed I Final rank weight` is what has to be shown of one step: a state that
meets `I` and is not final can move, and each step lowers `rank`, up to the `weight` of its action.
The actions of weight `0` are the moves of the program itself; the others are events that nothing
bounds. Whole runs then have

* `Progresses.length_le`: their length is bounded by the rank and the weights;
* `Progresses.final_of_stuck`: where the program cannot move, it has come to its end;
* `Progresses.reaches_final`: from every state the program can come to its end.
-/

namespace LinuxAppSamp.Execution
set_option autoImplicit false
set_option maxHeartbeats 250000

section
variable {σ α : Type} (step : σ → α → Option σ)

structure Progresses (allowed : α → Prop) (I Final : σ → Prop) (rank : σ → ℕ) (weight : α → ℕ) :
    Prop where
  keeps : ∀ s a t, I s → allowed a → step s a = some t → I t
  moves : ∀ s, I s → ¬ Final s → ∃ a t, allowed a ∧ weight a = 0 ∧ step s a = some t
  ranks : ∀ s a t, I s → allowed a → step s a = some t → rank t + 1 ≤ rank s + weight a

variable {step} {allowed : α → Prop} {I Final : σ → Prop} {rank : σ → ℕ} {weight : α → ℕ}

theorem Progresses.run (h : Progresses step allowed I Final rank weight) {s t : σ} {as : List α}
    (hrun : exec step s as = some t) (has : ∀ a ∈ as, allowed a) (hs : I s) : I t :=
  exec_invariant_of allowed I h.keeps hrun has hs

theorem Progresses.length_le (h : Progresses step allowed I Final rank weight) {s t : σ}
    {as : List α} (hrun : exec step s as = some t) (has : ∀ a ∈ as, allowed a) (hs : I s) :
    as.length + rank t ≤ rank s + tally weight as := by
  induction as generalizing s with
  | nil =>
    cases Option.some.inj hrun
    exact Nat.le_of_eq (Nat.zero_add _)
  | cons a as ih =>
    obtain ⟨u, hu, hrun⟩ := exec_cons_inv hrun
    obtain ⟨ha, has⟩ := List.forall_mem_cons.mp has
    have hone := h.ranks s a u hs ha hu
    have hrest := ih hrun has (h.keeps s a u hs ha hu)
    rw [List.length_cons, tally_cons]
    omega

theorem Progresses.final_of_stuck (h : Progresses step allowed I Final rank weight) {s : σ}
    (hs : I s) (hstuck : ∀ a, allowed a → weight a = 0 → step s a = none) : Final s := by
  by_contra hfinal
  obtain ⟨a, t, ha, hw, hstep⟩ := h.moves s hs hfinal
  cases (hstuck a ha hw).symm.trans hstep

/-- Where other moves are possible that lead nowhere, such as polling, it is enough that one move lowers
the rank. The induction is on the rank. -/
theorem reaches_of_lowers (P : α → Prop) {I Final : σ → Prop} {rank : σ → ℕ}
    (h : ∀ s, I s → ¬ Final s → ∃ a t, P a ∧ step s a = some t ∧ I t ∧ rank t < rank s) {s : σ}
    (hs : I s) : ∃ as t, (∀ a ∈ as, P a) ∧ exec step s as = some t ∧ I t ∧ Final t := by
  induction hn : rank s using Nat.strongRecOn generalizing s with
  | ind n ih =>
    by_cases hfinal : Final s
    · exact ⟨[], s, by simp, rfl, hs, hfinal⟩
    · obtain ⟨a, t, ha, hstep, ht, hrank⟩ := h s hs hfinal
      obtain ⟨as, u, has, hrun, hu⟩ := ih (rank t) (by omega) ht rfl
      exact ⟨a :: as, u, List.forall_mem_cons.mpr ⟨ha, has⟩, (exec_cons_eq hstep as).trans hrun, hu⟩

theorem Progresses.reaches_final (h : Progresses step allowed I Final rank weight) {s : σ}
    (hs : I s) : ∃ as t, (∀ a ∈ as, allowed a ∧ weight a = 0) ∧ exec step s as = some t ∧ Final t := by
  have hlowers : ∀ s, I s → ¬ Final s →
      ∃ a t, (allowed a ∧ weight a = 0) ∧ step s a = some t ∧ I t ∧ rank t < rank s := by
    intro s hs hopen
    obtain ⟨a, t, ha, hw, hstep⟩ := h.moves s hs hopen
    have hrank := h.ranks s a t hs ha hstep
    exact ⟨a, t, ⟨ha, hw⟩, hstep, h.keeps s a t hs ha hstep, by omega⟩
  obtain ⟨as, t, has, hrun, -, hfinal⟩ := reaches_of_lowers _ hlowers hs
  exact ⟨as, t, has, hrun, hfinal⟩

end
end LinuxAppSamp.Execution
