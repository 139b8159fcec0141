import LinuxAppSamp.Foundations.Merge
import LinuxAppSamp.Foundations.Progress

/-! # A parent and its children

A `Family` is a parent that forks one child for each entry of `starts`, waits as often, and goes on
alone from `after`. All of them make their calls by `next`, on memory that they share, and print. A
fork may fail; the parent then goes on without the child, and a `wait` with no child left returns at
once.

* `Sane.ended`: who is alone has outlived every child;
* `Sane.merged`: what two children print is merged, and what the parent prints comes behind;
* `Local.run`: what each process knows holds in every run, if its own calls establish it and no call
  of another one breaks it;
* `Terminating.progresses`: the family comes to its end.
-/

namespace LinuxAppSamp.Execution
set_option autoImplicit false
set_option maxHeartbeats 250000

/-- Before the `k`-th fork, before the `k`-th wait, behind all of them. -/
inductive ParentPc (π : Type)
  | fork (k : ℕ)
  | wait (k : ℕ)
  | alone (p : π)

/-- An entry of `children` is `none` where the fork has failed. A line of `out` says whose it is;
the parent is `none`. -/
structure FamilyState (π μ τ : Type) where
  parent : ParentPc π
  children : List (Option π)
  reaped : ℕ
  shared : μ
  out : List (Option ℕ × τ)

inductive FamilyAct (κ : Type)
  | parent (call : κ)
  | forkFails
  | child (i : ℕ) (call : κ)

structure Family (κ π μ τ : Type) where
  starts : List π
  after : π
  next : κ → π → μ → Option (π × μ × List τ)
  ended : π → Bool
  dead : ∀ call p m, ended p = true → next call p m = none

namespace Family
section
variable {κ π μ τ : Type} (F : Family κ π μ τ)

/-! ## The steps -/

def atStart (m : μ) : FamilyState π μ τ := ⟨.fork 0, [], 0, m, []⟩

def present : Option π → ℕ
  | none => 0
  | some _ => 1

def gone : Option π → ℕ
  | none => 0
  | some p => if F.ended p then 1 else 0

/-- A `wait` takes a child that has ended, or finds that there is none to wait for. -/
def parentStep (call : κ) (s : FamilyState π μ τ) : Option (FamilyState π μ τ) :=
  match s.parent with
  | .fork k =>
    match F.starts[k]? with
    | some p => some { s with parent := .fork (k + 1), children := s.children ++ [some p] }
    | none => some { s with parent := .wait 0 }
  | .wait k =>
    if F.starts.length ≤ k then some { s with parent := .alone F.after }
    else if s.reaped < tally F.gone s.children then
      some { s with parent := .wait (k + 1), reaped := s.reaped + 1 }
    else if tally present s.children ≤ s.reaped then some { s with parent := .wait (k + 1) }
    else none
  | .alone p =>
    (F.next call p s.shared).map fun r =>
      { s with parent := .alone r.1, shared := r.2.1, out := s.out ++ r.2.2.map (Prod.mk none) }

def forkFails (s : FamilyState π μ τ) : Option (FamilyState π μ τ) :=
  match s.parent with
  | .fork k =>
    if k < F.starts.length then
      some { s with parent := .fork (k + 1), children := s.children ++ [none] }
    else none
  | _ => none

def childStep (i : ℕ) (call : κ) (s : FamilyState π μ τ) : Option (FamilyState π μ τ) :=
  (s.children[i]?).bind fun c => c.bind fun p => (F.next call p s.shared).map fun r =>
    { s with
      children := s.children.set i (some r.1), shared := r.2.1
      out := s.out ++ r.2.2.map (Prod.mk (some i)) }

def step (s : FamilyState π μ τ) : FamilyAct κ → Option (FamilyState π μ τ)
  | .parent call => F.parentStep call s
  | .forkFails => F.forkFails s
  | .child i call => F.childStep i call s

theorem childStep_inv {F : Family κ π μ τ} {i : ℕ} {call : κ} {s s' : FamilyState π μ τ}
    (h : F.childStep i call s = some s') :
    ∃ p p' m lines, s.children[i]? = some (some p) ∧ F.next call p s.shared = some (p', m, lines) ∧
      s' = { s with
        children := s.children.set i (some p'), shared := m
        out := s.out ++ lines.map (Prod.mk (some i)) } := by
  obtain ⟨c, hc, h⟩ := Option.bind_eq_some_iff.mp h
  obtain ⟨p, rfl, h⟩ := Option.bind_eq_some_iff.mp h
  obtain ⟨⟨p', m, lines⟩, hnext, rfl⟩ := Option.map_eq_some_iff.mp h
  exact ⟨p, p', m, lines, hc, hnext, rfl⟩

/-- The steps of a family, by what they do. -/
inductive Moves (F : Family κ π μ τ) (s : FamilyState π μ τ) : FamilyState π μ τ → Prop
  | forks (k : ℕ) (c : Option π) (hk : s.parent = .fork k) (hlt : k < F.starts.length)
      (hc : ∀ p, c = some p → F.starts[k]? = some p) :
      Moves F s { s with parent := .fork (k + 1), children := s.children ++ [c] }
  | begins (k : ℕ) (hk : s.parent = .fork k) (hle : F.starts.length ≤ k) :
      Moves F s { s with parent := .wait 0 }
  | reaps (k : ℕ) (hk : s.parent = .wait k) (hlt : k < F.starts.length)
      (hgone : s.reaped < tally F.gone s.children) :
      Moves F s { s with parent := .wait (k + 1), reaped := s.reaped + 1 }
  | finds (k : ℕ) (hk : s.parent = .wait k) (hlt : k < F.starts.length)
      (hnone : tally present s.children ≤ s.reaped) : Moves F s { s with parent := .wait (k + 1) }
  | leaves (k : ℕ) (hk : s.parent = .wait k) (hle : F.starts.length ≤ k) :
      Moves F s { s with parent := .alone F.after }
  | parent (call : κ) (p p' : π) (m : μ) (lines : List τ) (hp : s.parent = .alone p)
      (hnext : F.next call p s.shared = some (p', m, lines)) :
      Moves F s { s with parent := .alone p', shared := m, out := s.out ++ lines.map (Prod.mk none) }
  | child (i : ℕ) (call : κ) (p p' : π) (m : μ) (lines : List τ) (hp : s.children[i]? = some (some p))
      (hnext : F.next call p s.shared = some (p', m, lines)) :
      Moves F s { s with
        children := s.children.set i (some p'), shared := m
        out := s.out ++ lines.map (Prod.mk (some i)) }

theorem moves_of_step {F : Family κ π μ τ} {s s' : FamilyState π μ τ} {a : FamilyAct κ}
    (h : F.step s a = some s') : Moves F s s' := by
  cases a with
  | parent call =>
    have h : F.parentStep call s = some s' := h
    unfold parentStep at h
    cases hp : s.parent with
    | fork k =>
      simp only [hp] at h
      cases hs : F.starts[k]? with
      | none =>
        rw [hs] at h
        cases Option.some.inj h
        exact .begins k hp (List.getElem?_eq_none_iff.mp hs)
      | some p =>
        rw [hs] at h
        cases Option.some.inj h
        refine .forks k (some p) hp (List.getElem?_eq_some_iff.mp hs).1 ?_
        rintro q ⟨⟩
        exact hs
    | wait k =>
      simp only [hp] at h
      by_cases hle : F.starts.length ≤ k
      · rw [if_pos hle] at h
        cases Option.some.inj h
        exact .leaves k hp hle
      · rw [if_neg hle] at h
        by_cases hgone : s.reaped < tally F.gone s.children
        · rw [if_pos hgone] at h
          cases Option.some.inj h
          exact .reaps k hp (Nat.lt_of_not_le hle) hgone
        · rw [if_neg hgone] at h
          obtain ⟨hnone, rfl⟩ := guarded_inv h
          exact .finds k hp (Nat.lt_of_not_le hle) hnone
    | alone p =>
      simp only [hp] at h
      obtain ⟨⟨p', m, lines⟩, hnext, rfl⟩ := Option.map_eq_some_iff.mp h
      exact .parent call p p' m lines hp hnext
  | forkFails =>
    have h : F.forkFails s = some s' := h
    unfold forkFails at h
    cases hp : s.parent with
    | fork k =>
      simp only [hp] at h
      obtain ⟨hlt, rfl⟩ := guarded_inv h
      refine .forks k none hp hlt ?_
      rintro q ⟨⟩
    | wait k =>
      simp only [hp] at h
      cases h
    | alone p =>
      simp only [hp] at h
      cases h
  | child i call =>
    obtain ⟨p, p', m, lines, hp, hnext, rfl⟩ := childStep_inv h
    exact .child i call p p' m lines hp hnext

/-! ## Who prints when -/

/-- What one of the processes has printed. -/
def printed (w : Option ℕ) (out : List (Option ℕ × τ)) : List τ :=
  (out.filter fun e => e.1 = w).map Prod.snd

theorem printed_append (w : Option ℕ) (out out' : List (Option ℕ × τ)) :
    printed w (out ++ out') = printed w out ++ printed w out' := by
  rw [printed, List.filter_append, List.map_append, printed, printed]

theorem printed_own (w : Option ℕ) (lines : List τ) : printed w (lines.map (Prod.mk w)) = lines := by
  induction lines with
  | nil => rfl
  | cons l lines ih =>
    rw [List.map_cons, printed, List.filter_cons_of_pos (by simp), List.map_cons]
    exact congrArg (List.cons l) ih

theorem printed_nil {w : Option ℕ} {out : List (Option ℕ × τ)} (h : ∀ e ∈ out, e.1 ≠ w) :
    printed w out = [] := by
  rw [printed, List.filter_eq_nil_iff.mpr (by simpa using h)]
  rfl

theorem printed_other {w v : Option ℕ} (h : v ≠ w) (out : List (Option ℕ × τ)) (lines : List τ) :
    printed w (out ++ lines.map (Prod.mk v)) = printed w out := by
  have hnil : printed w (lines.map (Prod.mk v)) = [] := by
    apply printed_nil
    intro e he
    obtain ⟨l, -, rfl⟩ := List.mem_map.mp he
    exact h
  rw [printed_append, hnil, List.append_nil]

/-- How far the parent is, and how many children its waits have taken. -/
def Stage (F : Family κ π μ τ) (s : FamilyState π μ τ) : Prop :=
  match s.parent with
  | .fork k => k = s.children.length ∧ k ≤ F.starts.length ∧ s.reaped = 0
  | .wait k => s.children.length = F.starts.length ∧ k ≤ F.starts.length ∧
      s.reaped = min k (tally present s.children)
  | .alone _ => s.children.length = F.starts.length ∧ s.reaped = tally present s.children

structure Sane (F : Family κ π μ τ) (s : FamilyState π μ τ) : Prop where
  stage : F.Stage s
  reaped : s.reaped ≤ tally F.gone s.children
  tagged : ∀ e ∈ s.out, ∀ i, e.1 = some i → ∃ p, s.children[i]? = some (some p)
  behind : ∃ r t, s.out = r ++ t ∧ (∀ e ∈ r, e.1 ≠ none) ∧ (∀ e ∈ t, e.1 = none) ∧
    ((∀ p, s.parent ≠ .alone p) → t = [])

theorem sane_start (m : μ) : Sane F (atStart m) where
  stage := ⟨rfl, Nat.zero_le _, rfl⟩
  reaped := Nat.le_refl 0
  tagged := fun e he => absurd he List.not_mem_nil
  behind := ⟨[], [], rfl, by simp, by simp, fun _ => rfl⟩

theorem gone_le_present (c : Option π) : F.gone c ≤ present c := by
  cases c with
  | none => exact Nat.le_refl 0
  | some p =>
    show (if F.ended p then 1 else 0) ≤ 1
    split <;> omega

theorem present_le_length (l : List (Option π)) : tally present l ≤ l.length := by
  have hone : ∀ c : Option π, present c ≤ 1 := fun c => by cases c <;> simp [present]
  have hle := tally_mono present (fun _ => 1) l hone
  rw [tally_const (fun _ => 1) 1 l fun _ _ => rfl] at hle
  omega

variable {F} in
/-- Who is alone has outlived every child. -/
theorem Sane.ended {s : FamilyState π μ τ} (h : Sane F s) {p : π} (hp : s.parent = .alone p) {i : ℕ}
    {q : π} (hq : s.children[i]? = some (some q)) : F.ended q = true := by
  have hstage := h.stage
  unfold Stage at hstage
  rw [hp] at hstage
  have hreaped := h.reaped
  by_contra hnot
  have hlt : tally F.gone s.children < tally present s.children := by
    apply tally_lt_tally _ _ _ F.gone_le_present (some q) (List.mem_of_getElem? hq)
    show (if F.ended q then 1 else 0) < 1
    rw [if_neg hnot]
    omega
  omega

variable {F} in
theorem ended_false_of_next {call : κ} {p : π} {m : μ} {r : π × μ × List τ}
    (h : F.next call p m = some r) : ¬ F.ended p = true := by
  intro hend
  cases (F.dead call p m hend).symm.trans h

theorem sane_moves {s s' : FamilyState π μ τ} (h : Sane F s) (hs : Moves F s s') : Sane F s' := by
  have hended := fun p hp i q hq => h.ended (p := p) hp (i := i) (q := q) hq
  obtain ⟨hstage, hreaped, htagged, r, t, hout, hr, ht, hnil⟩ := h
  unfold Stage at hstage
  cases hs with
  | forks k c hk hlt hc =>
    rw [hk] at hstage
    refine ⟨⟨?_, hlt, hstage.2.2⟩, ?_, ?_, r, t, hout, hr, ht, fun _ => hnil (by simp [hk])⟩
    · rw [List.length_append, hstage.1]
      rfl
    · rw [hstage.2.2]
      exact Nat.zero_le _
    · intro e he i hi
      obtain ⟨p, hp⟩ := htagged e he i hi
      exact ⟨p, (List.getElem?_append_left (List.getElem?_eq_some_iff.mp hp).1).trans hp⟩
  | begins k hk hle =>
    rw [hk] at hstage
    have hlen : k = s.children.length := hstage.1
    have hkn : k ≤ F.starts.length := hstage.2.1
    have hall : s.children.length = F.starts.length := by omega
    exact ⟨⟨hall, Nat.zero_le _, hstage.2.2.trans (Nat.zero_min _).symm⟩, hreaped, htagged, r, t, hout, hr,
      ht, fun _ => hnil (by simp [hk])⟩
  | reaps k hk hlt hgone =>
    rw [hk] at hstage
    have hle := tally_mono F.gone present s.children F.gone_le_present
    refine ⟨⟨hstage.1, hlt, ?_⟩, hgone, htagged, r, t, hout, hr, ht, fun _ => hnil (by simp [hk])⟩
    show s.reaped + 1 = min (k + 1) (tally present s.children)
    omega
  | finds k hk hlt hnone =>
    rw [hk] at hstage
    refine ⟨⟨hstage.1, hlt, ?_⟩, hreaped, htagged, r, t, hout, hr, ht, fun _ => hnil (by simp [hk])⟩
    show s.reaped = min (k + 1) (tally present s.children)
    omega
  | leaves k hk hle =>
    rw [hk] at hstage
    have hpresent := present_le_length s.children
    refine ⟨⟨hstage.1, ?_⟩, hreaped, htagged, r, t, hout, hr, ht, fun _ => hnil (by simp [hk])⟩
    show s.reaped = tally present s.children
    omega
  | parent call p p' m lines hp hnext =>
    rw [hp] at hstage
    refine ⟨hstage, hreaped, ?_, r, t ++ lines.map (Prod.mk none), by rw [hout, List.append_assoc], hr, ?_,
      fun hnot => absurd rfl (hnot p')⟩
    · intro e he i hi
      obtain he | he := List.mem_append.mp he
      · exact htagged e he i hi
      · obtain ⟨l, -, rfl⟩ := List.mem_map.mp he
        cases hi
    · intro e he
      obtain he | he := List.mem_append.mp he
      · exact ht e he
      · obtain ⟨l, -, rfl⟩ := List.mem_map.mp he
        rfl
  | child i call p p' m lines hp hnext =>
    have halive := ended_false_of_next hnext
    have hparent : ∀ q, s.parent ≠ .alone q := fun q hq => halive (hended q hq i p hp)
    have hpresent := tally_set present s.children i (some p) (some p') hp
    have hgone := tally_set F.gone s.children i (some p) (some p') hp
    have hzero : F.gone (some p) = 0 := if_neg halive
    have hsame : tally present (s.children.set i (some p')) = tally present s.children := by
      simp only [present] at hpresent
      omega
    refine ⟨?_, ?_, ?_, r ++ lines.map (Prod.mk (some i)), [], ?_, ?_, by simp, fun _ => rfl⟩
    · unfold Stage
      simp only [List.length_set, hsame]
      exact hstage
    · show s.reaped ≤ tally F.gone (s.children.set i (some p'))
      omega
    · intro e he j hj
      by_cases hji : j = i
      · rw [hji]
        exact ⟨p', List.getElem?_set_self (List.getElem?_eq_some_iff.mp hp).1⟩
      · obtain he | he := List.mem_append.mp he
        · obtain ⟨q, hq⟩ := htagged e he j hj
          exact ⟨q, (List.getElem?_set_ne (Ne.symm hji)).trans hq⟩
        · obtain ⟨l, -, rfl⟩ := List.mem_map.mp he
          exact absurd (Option.some.inj hj).symm hji
    · rw [List.append_nil, hout, hnil hparent, List.append_nil]
    · intro e he
      obtain he | he := List.mem_append.mp he
      · exact hr e he
      · obtain ⟨l, -, rfl⟩ := List.mem_map.mp he
        simp

variable {F} in
theorem Sane.absent {s : FamilyState π μ τ} (h : Sane F s) {i : ℕ}
    (hi : ∀ p, s.children[i]? ≠ some (some p)) : printed (some i) s.out = [] := by
  apply printed_nil
  intro e he htag
  obtain ⟨p, hp⟩ := h.tagged e he i htag
  exact hi p hp

variable {F} in
/-- The lines of two children are merged, and those of the parent come behind. -/
theorem Sane.merged {s : FamilyState π μ τ} (h : Sane F s) (htwo : F.starts.length = 2) :
    ∃ r, s.out.map Prod.snd = r ++ printed none s.out ∧
      Merged (printed (some 0) s.out) (printed (some 1) s.out) r := by
  obtain ⟨r, t, hout, hr, ht, -⟩ := h.behind
  have hle : s.children.length ≤ 2 := by
    have hstage := h.stage
    unfold Stage at hstage
    split at hstage <;> omega
  have hsome : ∀ i : ℕ, printed (some i) s.out = printed (some i) r := by
    intro i
    have hnil : printed (some i) t = [] := printed_nil fun e he => by simp [ht e he]
    rw [hout, printed_append, hnil, List.append_nil]
  have hnone : printed none s.out = t.map Prod.snd := by
    rw [hout, printed_append, printed_nil hr, List.nil_append, printed, List.filter_eq_self.mpr]
    exact fun e he => by simp [ht e he]
  refine ⟨r.map Prod.snd, by rw [hnone, hout, List.map_append], ?_⟩
  rw [hsome 0, hsome 1]
  have hmerged := (merged_filter (fun e : Option ℕ × τ => decide (e.1 = some 0)) r).map Prod.snd
  have hother : r.filter (fun e => !decide (e.1 = some 0)) = r.filter fun e => decide (e.1 = some 1) := by
    apply List.filter_congr
    intro e he
    have hmem : e ∈ s.out := by
      rw [hout]
      exact List.mem_append_left t he
    cases htag : e.1 with
    | none => exact absurd htag (hr e he)
    | some i =>
      obtain ⟨p, hp⟩ := h.tagged e hmem i htag
      have hi := (List.getElem?_eq_some_iff.mp hp).1
      obtain rfl | rfl : i = 0 ∨ i = 1 := by omega
      · rfl
      · rfl
  rw [hother] at hmerged
  exact hmerged

/-! ## What each process knows -/

/-- `G` is what all rely on about the shared memory, `I w m p o` what process `w` knows about it at
the point `p`, with the lines `o` printed. `other` is the absence of interference. -/
structure Local (F : Family κ π μ τ) (G : μ → Prop) (I : Option ℕ → μ → π → List τ → Prop) : Prop where
  start : ∀ k p m, F.starts[k]? = some p → G m → I (some k) m p []
  after : ∀ m, G m → I none m F.after []
  own : ∀ w call p m p' m' lines o, G m → I w m p o → F.next call p m = some (p', m', lines) →
    G m' ∧ I w m' p' (o ++ lines)
  other : ∀ w v call p q m p' m' lines o o', w ≠ v → G m → I v m p o' →
    F.next call p m = some (p', m', lines) → I w m q o → I w m' q o

structure Each (F : Family κ π μ τ) (G : μ → Prop) (I : Option ℕ → μ → π → List τ → Prop)
    (s : FamilyState π μ τ) : Prop extends Sane F s where
  relies : G s.shared
  child : ∀ i p, s.children[i]? = some (some p) → I (some i) s.shared p (printed (some i) s.out)
  parent : ∀ p, s.parent = .alone p → I none s.shared p (printed none s.out)

variable {F} {G : μ → Prop} {I : Option ℕ → μ → π → List τ → Prop}

theorem Local.each_start (_h : Local F G I) {m : μ} (hm : G m) : Each F G I (atStart m) where
  toSane := sane_start F m
  relies := hm
  child := fun i p hp => by cases hp
  parent := fun p hp => by cases hp

theorem Local.each_moves (h : Local F G I) {s s' : FamilyState π μ τ} (hs : Each F G I s)
    (hstep : Moves F s s') : Each F G I s' := by
  have hsane := sane_moves F hs.toSane hstep
  cases hstep with
  | forks k c hk hlt hc =>
    refine ⟨hsane, hs.relies, fun i p hp => ?_, fun p hp => by cases hp⟩
    obtain ⟨-, hp⟩ | ⟨rfl, hcp⟩ := entry_snoc_cases hp
    · exact hs.child i p hp
    · -- the new child has printed nothing
      have hstage := hs.stage
      unfold Stage at hstage
      rw [hk] at hstage
      have hnothing := hs.absent (i := s.children.length) fun p hp =>
        Nat.lt_irrefl _ (List.getElem?_eq_some_iff.mp hp).1
      have hk : k = s.children.length := hstage.1
      rw [hnothing]
      exact h.start _ p s.shared (hk ▸ hc p hcp.symm) hs.relies
  | begins | reaps | finds => exact ⟨hsane, hs.relies, hs.child, fun p hp => by cases hp⟩
  | leaves k hk hle =>
    refine ⟨hsane, hs.relies, hs.child, fun p hp => ?_⟩
    cases hp
    obtain ⟨r, t, hout, hr, -, hnil⟩ := hs.behind
    have hnothing : printed none s.out = [] := by
      apply printed_nil
      rw [hout, hnil (by simp [hk]), List.append_nil]
      exact hr
    rw [hnothing]
    exact h.after s.shared hs.relies
  | parent call p p' m lines hp hnext =>
    have hparent := hs.parent p hp
    obtain ⟨hG, hI⟩ := h.own none call p s.shared p' m lines _ hs.relies hparent hnext
    refine ⟨hsane, hG, fun i q hq => ?_, fun q hq => ?_⟩
    · rw [printed_other (by simp)]
      exact h.other _ none call p q s.shared p' m lines _ _ (by simp) hs.relies hparent hnext
        (hs.child i q hq)
    · cases hq
      rw [printed_append, printed_own]
      exact hI
  | child i call p p' m lines hp hnext =>
    have hchild := hs.child i p hp
    obtain ⟨hG, hI⟩ := h.own (some i) call p s.shared p' m lines _ hs.relies hchild hnext
    refine ⟨hsane, hG, fun j q hq => ?_, fun q hq => ?_⟩
    · obtain ⟨rfl, heq⟩ | ⟨hne, hq⟩ := entry_set_cases hq
      · cases heq
        rw [printed_append, printed_own]
        exact hI
      · have hne' : (some j : Option ℕ) ≠ some i := fun heq => hne (Option.some.inj heq)
        rw [printed_other (Ne.symm hne')]
        exact h.other _ (some i) call p q s.shared p' m lines _ _ hne' hs.relies hchild hnext
          (hs.child j q hq)
    · rw [printed_other (by simp)]
      exact h.other _ (some i) call p q s.shared p' m lines _ _ (by simp) hs.relies hchild hnext
        (hs.parent q hq)

theorem Local.run (h : Local F G I) {m : μ} {s : FamilyState π μ τ} {as : List (FamilyAct κ)}
    (hrun : exec F.step (atStart m) as = some s) (hm : G m) : Each F G I s :=
  exec_invariant (Each F G I) (fun _ _ _ hs hstep => h.each_moves hs (moves_of_step hstep)) hrun
    (h.each_start hm)

/-! ## The end -/

/-- Every call brings a process nearer to its end, and no process has to wait for another one. -/
structure Terminating (F : Family κ π μ τ) (G : μ → Prop) (I : Option ℕ → μ → π → List τ → Prop)
    (rank : π → ℕ) : Prop extends Local F G I where
  ranks : ∀ w call p m p' m' lines o, G m → I w m p o → F.next call p m = some (p', m', lines) →
    rank p' + 1 ≤ rank p
  calls : ∀ w p m o, G m → I w m p o → F.ended p = false → ∃ call r, F.next call p m = some r

def childRank (rank : π → ℕ) : Option π → ℕ
  | none => 0
  | some p => rank p

def parentRank (F : Family κ π μ τ) (rank : π → ℕ) : ParentPc π → ℕ
  | .fork k => 2 * F.starts.length + 2 - k + tally rank (F.starts.drop k) + rank F.after
  | .wait k => F.starts.length + 1 - k + rank F.after
  | .alone p => rank p

def familyRank (F : Family κ π μ τ) (rank : π → ℕ) (s : FamilyState π μ τ) : ℕ :=
  parentRank F rank s.parent + tally (childRank rank) s.children

def Finished (F : Family κ π μ τ) (s : FamilyState π μ τ) : Prop :=
  ∃ p, s.parent = .alone p ∧ F.ended p = true

theorem Terminating.rank_moves {rank : π → ℕ} (h : Terminating F G I rank) {s s' : FamilyState π μ τ}
    (hs : Each F G I s) (hstep : Moves F s s') : familyRank F rank s' + 1 ≤ familyRank F rank s := by
  have hstage := hs.stage
  unfold Stage at hstage
  unfold familyRank
  cases hstep with
  | forks k c hk hlt hc =>
    rw [hk]
    simp only [parentRank, tally_snoc]
    have hdrop : tally rank (F.starts.drop k) = rank F.starts[k] + tally rank (F.starts.drop (k + 1)) := by
      rw [List.drop_eq_getElem_cons hlt, tally_cons]
    have hle : childRank rank c ≤ rank F.starts[k] := by
      cases c with
      | none => exact Nat.zero_le _
      | some p =>
        have hp := hc p rfl
        rw [List.getElem?_eq_getElem hlt] at hp
        cases Option.some.inj hp
        exact Nat.le_refl _
    omega
  | begins k hk hle =>
    rw [hk] at hstage ⊢
    have hkn : k ≤ F.starts.length := hstage.2.1
    simp only [parentRank]
    omega
  | reaps k hk hlt | finds k hk hlt =>
    rw [hk]
    simp only [parentRank]
    omega
  | leaves k hk hle =>
    rw [hk] at hstage ⊢
    have hkn : k ≤ F.starts.length := hstage.2.1
    simp only [parentRank]
    omega
  | parent call p p' m lines hp hnext =>
    have hlt := h.ranks none call p s.shared p' m lines _ hs.relies (hs.parent p hp) hnext
    rw [hp]
    simp only [parentRank]
    omega
  | child i call p p' m lines hp hnext =>
    have hlt := h.ranks (some i) call p s.shared p' m lines _ hs.relies (hs.child i p hp) hnext
    have hset := tally_set (childRank rank) s.children i (some p) (some p') hp
    simp only [childRank] at hset
    dsimp only
    omega

theorem child_moves {s : FamilyState π μ τ} {i : ℕ} {call : κ} {p : π} {r : π × μ × List τ}
    (hp : s.children[i]? = some (some p)) (hr : F.next call p s.shared = some r) :
    ∃ a s', F.step s a = some s' := by
  refine ⟨.child i call, ?_⟩
  show ∃ s', F.childStep i call s = some s'
  rw [childStep, hp, Option.bind_some, Option.bind_some, hr]
  exact ⟨_, rfl⟩

/-- A `wait` that has to wait waits for a child that can go on. -/
theorem alive_of_wait {s : FamilyState π μ τ} (hreaped : tally F.gone s.children ≤ s.reaped)
    (hleft : s.reaped < tally present s.children) :
    ∃ (i : ℕ) (p : π), s.children[i]? = some (some p) ∧ F.ended p = false := by
  by_contra hnone
  push Not at hnone
  have hsame : tally present s.children ≤ tally F.gone s.children := by
    apply List.sum_le_sum
    intro c hc
    cases c with
    | none => exact Nat.le_refl 0
    | some p =>
      obtain ⟨i, hi⟩ := List.mem_iff_getElem?.mp hc
      have hend : F.ended p = true := by simpa using hnone i p hi
      exact Nat.le_of_eq (if_pos hend).symm
  omega

theorem Terminating.moves {rank : π → ℕ} (h : Terminating F G I rank) {s : FamilyState π μ τ}
    (hs : Each F G I s) (hfin : ¬ Finished F s) [Inhabited κ] : ∃ a s', F.step s a = some s' := by
  cases hp : s.parent with
  | fork k =>
    refine ⟨.parent default, ?_⟩
    show ∃ s', F.parentStep default s = some s'
    simp only [parentStep, hp]
    cases hk : F.starts[k]? with
    | none => exact ⟨_, rfl⟩
    | some p => exact ⟨_, rfl⟩
  | wait k =>
    by_cases hchild : tally F.gone s.children ≤ s.reaped ∧ s.reaped < tally present s.children
    · obtain ⟨i, q, hq, hend⟩ := alive_of_wait hchild.1 hchild.2
      obtain ⟨call, r, hr⟩ := h.calls _ q s.shared _ hs.relies (hs.child i q hq) hend
      exact child_moves hq hr
    · refine ⟨.parent default, ?_⟩
      show ∃ s', F.parentStep default s = some s'
      simp only [parentStep, hp]
      by_cases hle : F.starts.length ≤ k
      · exact ⟨_, if_pos hle⟩
      · by_cases hgone : s.reaped < tally F.gone s.children
        · exact ⟨_, (if_neg hle).trans (if_pos hgone)⟩
        · exact ⟨_, (if_neg hle).trans ((if_neg hgone).trans (if_pos (by omega)))⟩
  | alone p =>
    have hend : F.ended p = false := by
      cases hend : F.ended p with
      | true => exact absurd ⟨p, hp, hend⟩ hfin
      | false => rfl
    obtain ⟨call, r, hr⟩ := h.calls none p s.shared _ hs.relies (hs.parent p hp) hend
    refine ⟨.parent call, ?_⟩
    show ∃ s', F.parentStep call s = some s'
    simp only [parentStep, hp, hr]
    exact ⟨_, rfl⟩

theorem Terminating.progresses {rank : π → ℕ} (h : Terminating F G I rank) [Inhabited κ] :
    Progresses F.step (fun _ => True) (Each F G I) (Finished F) (familyRank F rank) (fun _ => 0) where
  keeps := fun _ _ _ hs _ hstep => h.each_moves hs (moves_of_step hstep)
  moves := by
    intro s hs hfin
    obtain ⟨a, s', hstep⟩ := h.moves hs hfin
    exact ⟨a, s', trivial, rfl, hstep⟩
  ranks := fun _ _ _ hs _ hstep => h.rank_moves hs (moves_of_step hstep)

end
end Family
end LinuxAppSamp.Execution
