import Mathlib.Data.Nat.Notation
import Mathlib.Tactic.Common

/-! # Systems that take one step at a time

`step s a` is the state after action `a` in state `s`, and `none` where `a` is not possible then: a
blocked call, a guard that does not hold. `exec` runs a list of actions, so that every list that
runs is one interleaving. Proved once for every system:

* `exec_cons_inv`, `exec_append`: runs are taken apart and put together;
* `exec_invariant`: what each step keeps holds after every run;
* `exec_invariant_of`: the same for the runs whose actions are all allowed;
* `exec_invariant_along`: the same for the runs whose steps all meet a condition;
* `exec_total`: what the steps of a run add to a quantity.
-/

namespace LinuxAppSamp.Execution
set_option autoImplicit false
set_option maxHeartbeats 250000

section
variable {σ α : Type} (step : σ → α → Option σ)

def exec : σ → List α → Option σ
  | s, [] => some s
  | s, a :: as => (step s a).bind fun t => exec t as

/-- Every step of the run meets the condition `C` on the state before it. -/
def AlongSteps (C : σ → α → Prop) : σ → List α → Prop
  | _, [] => True
  | s, a :: as => C s a ∧ ∀ t, step s a = some t → AlongSteps C t as

/-- Some run leads from `s` to `t`. -/
def Reaches (s t : σ) : Prop := ∃ as, exec step s as = some t

/-- The sum of the weights of the steps of a run. -/
def total (w : σ → α → ℕ) : σ → List α → ℕ
  | _, [] => 0
  | s, a :: as => w s a + ((step s a).map fun t => total w t as).getD 0

variable {step}

/-- A step with a guard was possible only where the guard holds. -/
theorem guarded_inv {c : Prop} [Decidable c] {t u : σ}
    (h : (if c then some t else none) = some u) : c ∧ t = u := by
  obtain ⟨hc, h⟩ := Option.ite_none_right_eq_some.mp h
  exact ⟨hc, Option.some.inj h⟩

theorem exec_cons_eq {s t : σ} {a : α} (h : step s a = some t) (as : List α) :
    exec step s (a :: as) = exec step t as := by
  rw [exec, h, Option.bind_some]

theorem exec_cons_inv {s u : σ} {a : α} {as : List α} (h : exec step s (a :: as) = some u) :
    ∃ t, step s a = some t ∧ exec step t as = some u :=
  Option.bind_eq_some_iff.mp h

theorem alongSteps_cons {C : σ → α → Prop} {s t : σ} {a : α} (h : step s a = some t)
    (as : List α) : AlongSteps step C s (a :: as) ↔ C s a ∧ AlongSteps step C t as := by
  constructor
  · exact fun hC => ⟨hC.1, hC.2 t h⟩
  · rintro ⟨ha, has⟩
    refine ⟨ha, fun u hu => ?_⟩
    rw [← Option.some.inj (h.symm.trans hu)]
    exact has

theorem alongSteps_congr {C D : σ → α → Prop} (h : ∀ s a, C s a ↔ D s a) (s : σ) (as : List α) :
    AlongSteps step C s as ↔ AlongSteps step D s as := by
  induction as generalizing s with
  | nil => exact Iff.rfl
  | cons a as ih => exact and_congr (h s a) (forall_congr' fun t => imp_congr_right fun _ => ih t)

instance decidableAlongSteps (C : σ → α → Prop) [∀ s a, Decidable (C s a)] (s : σ)
    (as : List α) : Decidable (AlongSteps step C s as) :=
  match as with
  | [] => isTrue trivial
  | a :: as =>
    match h : step s a with
    | none => decidable_of_iff (C s a) ⟨fun ha => ⟨ha, fun t ht => by cases h.symm.trans ht⟩, And.left⟩
    | some t =>
      have : Decidable (AlongSteps step C t as) := decidableAlongSteps C t as
      decidable_of_iff (C s a ∧ AlongSteps step C t as) (alongSteps_cons h as).symm

theorem exec_append (s : σ) (as bs : List α) :
    exec step s (as ++ bs) = (exec step s as).bind fun t => exec step t bs := by
  induction as generalizing s with
  | nil => rfl
  | cons a as ih =>
    rw [List.cons_append, exec, exec, Option.bind_assoc]
    congr 1
    funext t
    exact ih t

/-! ## Invariants -/

theorem exec_invariant (I : σ → Prop) (hstep : ∀ s a t, I s → step s a = some t → I t) {s t : σ}
    {as : List α} (h : exec step s as = some t) (hs : I s) : I t := by
  induction as generalizing s with
  | nil =>
    cases Option.some.inj h
    exact hs
  | cons a as ih =>
    obtain ⟨u, hu, h⟩ := exec_cons_inv h
    exact ih h (hstep s a u hs hu)

theorem exec_invariant_of (P : α → Prop) (I : σ → Prop)
    (hstep : ∀ s a t, I s → P a → step s a = some t → I t) {s t : σ} {as : List α}
    (h : exec step s as = some t) (has : ∀ a ∈ as, P a) (hs : I s) : I t := by
  induction as generalizing s with
  | nil =>
    cases Option.some.inj h
    exact hs
  | cons a as ih =>
    obtain ⟨u, hu, h⟩ := exec_cons_inv h
    obtain ⟨ha, has⟩ := List.forall_mem_cons.mp has
    exact ih h has (hstep s a u hs ha hu)

theorem exec_invariant_along (C : σ → α → Prop) (I : σ → Prop)
    (hstep : ∀ s a t, I s → C s a → step s a = some t → I t) {s t : σ} {as : List α}
    (h : exec step s as = some t) (hC : AlongSteps step C s as) (hs : I s) : I t := by
  induction as generalizing s with
  | nil =>
    cases Option.some.inj h
    exact hs
  | cons a as ih =>
    obtain ⟨u, hu, h⟩ := exec_cons_inv h
    exact ih h (hC.2 u hu) (hstep s a u hs hC.1 hu)

theorem exec_total (f : σ → ℕ) (w v : σ → α → ℕ)
    (hstep : ∀ s a t, step s a = some t → f t + w s a = f s + v s a) {s t : σ} {as : List α}
    (h : exec step s as = some t) : f t + total step w s as = f s + total step v s as := by
  induction as generalizing s with
  | nil =>
    cases Option.some.inj h
    rfl
  | cons a as ih =>
    obtain ⟨u, hu, h⟩ := exec_cons_inv h
    have hone := hstep s a u hu
    have hrest := ih h
    rw [total, total, hu, Option.map_some, Option.map_some, Option.getD_some, Option.getD_some]
    omega

/-! ## Reachable states -/

theorem reaches_refl (s : σ) : Reaches step s s := ⟨[], rfl⟩

theorem reaches_step {s t u : σ} {a : α} (h : step s a = some t) (ht : Reaches step t u) :
    Reaches step s u := by
  obtain ⟨as, has⟩ := ht
  exact ⟨a :: as, by rw [exec_cons_eq h, has]⟩

end
end LinuxAppSamp.Execution
