import LinuxAppSamp.Foundations.Buffer

/-! # Loops that read one input a turn

`loop body s is` is `while (1)` around a body that makes one blocking read, may leave by `break`
and may fault. The inputs are what the reads return, in order; when they are used up the loop
waits in its next read. Each rule below is proved once for every body:

* `loop_append`: a run that still waits goes on with the next inputs;
* `loop_left_inv`: a run that was left was left by its last turn, after turns that stayed;
* `loop_outputs`: what a run shows, when each turn stays and shows something known;
* `loop_isOk_iff`, `loop_isOk_iff_along`: a run is free of faults exactly when each turn it makes is.
-/

namespace LinuxAppSamp.Execution
open Memory
set_option autoImplicit false
set_option maxHeartbeats 250000

structure Turn (σ ω : Type) where
  state : σ
  out : List ω
  leaves : Bool

/-- A run: the state, the outputs, whether a `break` ended it, and the inputs not read then. -/
structure Outcome (σ ι ω : Type) where
  state : σ
  out : List ω
  left : Bool
  rest : List ι

section
variable {σ ι ω : Type} (body : σ → ι → Except Fault (Turn σ ω))

def loop : σ → List ι → Except Fault (Outcome σ ι ω)
  | s, [] => .ok ⟨s, [], false, []⟩
  | s, i :: is => do
    let t ← body s i
    if t.leaves then .ok ⟨t.state, t.out, true, is⟩
    else do
      let r ← loop t.state is
      .ok { r with out := t.out ++ r.out }

variable {body}

theorem loop_cons_leaves {s : σ} {i : ι} {is : List ι} {t : Turn σ ω} (h : body s i = .ok t)
    (hl : t.leaves = true) : loop body s (i :: is) = .ok ⟨t.state, t.out, true, is⟩ := by
  rw [loop, h, ok_bind, if_pos hl]

theorem loop_cons_stays {s : σ} {i : ι} {is : List ι} {t : Turn σ ω} (h : body s i = .ok t)
    (hl : t.leaves = false) :
    loop body s (i :: is) =
      (loop body t.state is >>= fun r => .ok { r with out := t.out ++ r.out }) := by
  rw [loop, h, ok_bind, if_neg (by simp [hl])]

theorem loop_cons_error {s : σ} {i : ι} {is : List ι} {e : Fault} (h : body s i = .error e) :
    loop body s (i :: is) = .error e := by
  rw [loop, h, error_bind]

theorem loop_single {s : σ} {i : ι} {t : Turn σ ω} (h : body s i = .ok t) :
    ∃ r, loop body s [i] = .ok r ∧ r.out = t.out := by
  cases hl : t.leaves with
  | true => exact ⟨_, loop_cons_leaves h hl, rfl⟩
  | false => exact ⟨_, loop_cons_stays h hl, List.append_nil _⟩

theorem loop_cons_inv {s : σ} {i : ι} {is : List ι} {r : Outcome σ ι ω}
    (h : loop body s (i :: is) = .ok r) :
    ∃ t, body s i = .ok t ∧
      (t.leaves = true ∧ r = ⟨t.state, t.out, true, is⟩ ∨
        t.leaves = false ∧ ∃ q, loop body t.state is = .ok q ∧ r = { q with out := t.out ++ q.out }) := by
  rw [loop] at h
  obtain ⟨t, ht, h⟩ := bind_eq_ok h
  refine ⟨t, ht, ?_⟩
  cases hl : t.leaves with
  | true =>
    rw [if_pos hl] at h
    exact .inl ⟨rfl, (Except.ok.inj h).symm⟩
  | false =>
    rw [if_neg (by simp [hl])] at h
    obtain ⟨q, hq, h⟩ := bind_eq_ok h
    exact .inr ⟨rfl, q, hq, (Except.ok.inj h).symm⟩

theorem loop_append {s : σ} {is : List ι} {r : Outcome σ ι ω} (h : loop body s is = .ok r)
    (hl : r.left = false) (js : List ι) :
    loop body s (is ++ js) =
      (loop body r.state js >>= fun q => .ok { q with out := r.out ++ q.out }) := by
  induction is generalizing s r with
  | nil =>
    cases Except.ok.inj h
    cases hq : loop body s js <;> simp [hq]
  | cons i is ih =>
    obtain ⟨t, ht, ⟨-, rfl⟩ | ⟨hs, q, hq, rfl⟩⟩ := loop_cons_inv h
    · cases hl
    · rw [List.cons_append, loop_cons_stays ht hs, ih hq hl]
      cases loop body q.state js <;> simp

theorem loop_outputs {β : Type} (obs : List ω → List β) (hnil : obs [] = [])
    (happ : ∀ as bs, obs (as ++ bs) = obs as ++ obs bs) (out : ι → List β) (is : List ι)
    (hstep : ∀ s, ∀ i ∈ is, ∃ t, body s i = .ok t ∧ t.leaves = false ∧ obs t.out = out i) (s : σ) :
    ∃ t os, loop body s is = .ok ⟨t, os, false, []⟩ ∧ obs os = is.flatMap out := by
  induction is generalizing s with
  | nil => exact ⟨s, [], rfl, hnil⟩
  | cons i is ih =>
    obtain ⟨t, ht, hl, ho⟩ := hstep s i (List.mem_cons_self ..)
    obtain ⟨u, os, hu, hos⟩ := ih (fun s j hj => hstep s j (List.mem_cons_of_mem i hj)) t.state
    refine ⟨u, t.out ++ os, ?_, ?_⟩
    · rw [loop_cons_stays ht hl, hu, ok_bind]
    · rw [happ, ho, hos, List.flatMap_cons]

theorem loop_isOk_iff (s : σ) (is : List ι) :
    (loop body s is).isOk ↔ ∀ pre i post, is = pre ++ i :: post →
      ∀ r, loop body s pre = .ok r → r.left = false → (body r.state i).isOk := by
  constructor
  · rintro h pre i post rfl r hr hl
    rw [loop_append hr hl, isOk_bind] at h
    obtain ⟨q, hq, -⟩ := h
    obtain ⟨t, ht, -⟩ := loop_cons_inv hq
    rw [ht]
    rfl
  · induction is generalizing s with
    | nil => exact fun _ => rfl
    | cons i is ih =>
      intro h
      have h0 := h [] i is rfl ⟨s, [], false, []⟩ rfl rfl
      cases ht : body s i with
      | error e =>
        rw [ht] at h0
        cases h0
      | ok t =>
        cases hs : t.leaves with
        | true =>
          rw [loop_cons_leaves ht hs]
          rfl
        | false =>
          have hrest := ih t.state (fun pre j post he r hr hl =>
            h (i :: pre) j post (by rw [he, List.cons_append]) { r with out := t.out ++ r.out }
              (by rw [loop_cons_stays ht hs, hr, ok_bind]) hl)
          rw [loop_cons_stays ht hs, isOk_bind]
          cases hq : loop body t.state is with
          | error e =>
            rw [hq] at hrest
            cases hrest
          | ok q => exact ⟨q, rfl, rfl⟩

/-- Every turn a run comes to meets the condition `C` on its state and its input. -/
def Along (body : σ → ι → Except Fault (Turn σ ω)) (C : σ → ι → Prop) (s : σ) (is : List ι) : Prop :=
  ∀ pre i post, is = pre ++ i :: post →
    ∀ r, loop body s pre = .ok r → r.left = false → C r.state i

theorem loop_isOk_iff_along (C : σ → ι → Prop) (is : List ι)
    (hC : ∀ s, ∀ i ∈ is, (body s i).isOk ↔ C s i) (s : σ) :
    (loop body s is).isOk ↔ Along body C s is := by
  rw [loop_isOk_iff]
  refine forall_congr' fun pre => forall₂_congr fun i post => forall_congr' fun his =>
    forall₃_congr fun r _ _ => ?_
  exact hC r.state i (by rw [his]; simp)

end
end LinuxAppSamp.Execution
