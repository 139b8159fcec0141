import LinuxAppSamp.Semaphore.Counter

/-! # The report of `semaphore_named_blocked.c`

`testFunc` reads the semaphore's value, reports a 0, and only then calls `sem_wait`. What the
other threads do in between decides whether the report is still true: `value_total` says that the
value changes by what they post less what they take, and `blocked_truthful_iff` that the report
agrees with the wait exactly when these balance.
-/

namespace LinuxAppSamp.Semaphore
open Execution
set_option autoImplicit false
set_option maxHeartbeats 250000

/-! ## Taking and posting -/

/-- One when the action makes a `sem_wait` return. -/
def takes (s : SemState) : Act → ℕ
  | .create => 0
  | .thread i =>
    match s.threads[i]? with
    | some t => if (t.pc = .wait ∨ t.pc = .blocked) ∧ 0 < s.value then 1 else 0
    | none => 0
  | .handOff _ _ => 1

def posts (s : SemState) : Act → ℕ
  | .create => 0
  | .thread i =>
    match s.threads[i]? with
    | some t => if t.pc = .post then 1 else 0
    | none => 0
  | .handOff _ _ => 1

theorem takes_thread {s : SemState} {i : ℕ} {t : Thr} (h : s.threads[i]? = some t) :
    takes s (.thread i) = if (t.pc = .wait ∨ t.pc = .blocked) ∧ 0 < s.value then 1 else 0 := by
  rw [takes, h]

theorem posts_thread {s : SemState} {i : ℕ} {t : Thr} (h : s.threads[i]? = some t) :
    posts s (.thread i) = if t.pc = .post then 1 else 0 := by
  rw [posts, h]

theorem value_thread {checks : Bool} {N M i : ℕ} {s s' : SemState}
    (h : semStep checks N M s (.thread i) = some s') :
    s'.value + takes s (.thread i) = s.value + posts s (.thread i) := by
  obtain ⟨t, r, ht, hr, rfl⟩ := semStep_thread h
  rw [takes_thread ht, posts_thread ht]
  show r.value + _ = _
  unfold threadStep at hr
  cases hpc : t.pc <;> rw [hpc] at hr
  case wait =>
    by_cases hv : 0 < s.value
    · cases Option.some.inj ((if_pos hv).symm.trans hr)
      simp [hv]
      omega
    · cases Option.some.inj ((if_neg hv).symm.trans hr)
      simp [hv]
  case blocked =>
    obtain ⟨hv, rfl⟩ := guarded_inv hr
    simp [hv]
    omega
  case finished => cases hr
  all_goals
    cases Option.some.inj hr
    simp

theorem value_step (checks : Bool) (N M : ℕ) (s : SemState) (a : Act) (s' : SemState)
    (h : semStep checks N M s a = some s') : s'.value + takes s a = s.value + posts s a := by
  cases a with
  | create =>
    obtain ⟨-, rfl⟩ := semStep_create h
    rfl
  | thread i => exact value_thread h
  | handOff i j =>
    obtain ⟨t, u, m, ht, hpost, hu, hblocked, hm, hmu, hpos, hs'⟩ := semStep_handOff h
    have hfirst := value_thread hm
    have hsecond := value_thread hs'
    rw [takes_thread ht, posts_thread ht, hpost] at hfirst
    rw [takes_thread hmu, posts_thread hmu, hblocked, if_pos ⟨Or.inr rfl, hpos⟩] at hsecond
    show s'.value + 1 = s.value + 1
    simp at hfirst hsecond
    omega

/-- The value at the end of a run is what was posted and not taken. -/
theorem value_total {checks : Bool} {N M : ℕ} {s s' : SemState} {as : List Act}
    (h : exec (semStep checks N M) s as = some s') :
    s'.value + total (semStep checks N M) takes s as =
      s.value + total (semStep checks N M) posts s as :=
  exec_total SemState.value takes posts (value_step checks N M) h

/-! ## A thread that others do not touch -/

theorem thread_kept {checks : Bool} {N M i : ℕ} {s s' : SemState} {a : Act} {t : Thr}
    (h : semStep checks N M s a = some s') (ha : a ≠ .thread i) (ht : s.threads[i]? = some t)
    (hpc : t.pc ≠ .post ∧ t.pc ≠ .blocked) : s'.threads[i]? = some t := by
  have hother : ∀ (j : ℕ) (s s' : SemState), j ≠ i → s.threads[i]? = some t →
      semStep checks N M s (.thread j) = some s' → s'.threads[i]? = some t := by
    intro j s s' hji ht h
    obtain ⟨u, r, _, _, rfl⟩ := semStep_thread h
    show (s.threads.set j r.thr)[i]? = some t
    rw [List.getElem?_set_ne hji, ht]
  cases a with
  | create =>
    obtain ⟨-, rfl⟩ := semStep_create h
    have hi := (List.getElem?_eq_some_iff.mp ht).1
    show (s.threads ++ _)[i]? = some t
    rw [List.getElem?_append_left hi, ht]
  | thread j =>
    have hji : j ≠ i := fun he => ha (by rw [he])
    exact hother j s s' hji ht h
  | handOff j k =>
    obtain ⟨u, v, m, hu, hpost, hv, hblocked, hm, _, _, hs'⟩ := semStep_handOff h
    have hji : j ≠ i := by
      intro he
      rw [he, ht, Option.some.injEq] at hu
      exact hpc.1 (by rw [hu, hpost])
    have hki : k ≠ i := by
      intro he
      rw [he, ht, Option.some.injEq] at hv
      exact hpc.2 (by rw [hv, hblocked])
    exact hother k m s' hki (hother j s m hji ht hm) hs'

theorem thread_kept_run {checks : Bool} {N M i : ℕ} {s s' : SemState} {as : List Act} {t : Thr}
    (h : exec (semStep checks N M) s as = some s') (ha : .thread i ∉ as)
    (ht : s.threads[i]? = some t) (hpc : t.pc ≠ .post ∧ t.pc ≠ .blocked) :
    s'.threads[i]? = some t := by
  induction as generalizing s with
  | nil =>
    cases Option.some.inj h
    exact ht
  | cons a as ih =>
    obtain ⟨u, hu, h⟩ := exec_cons_inv h
    obtain ⟨hne, has⟩ := not_or.mp (fun hm => ha (List.mem_cons.mpr hm))
    exact ih h has (thread_kept hu (Ne.symm hne) ht hpc)

/-! ## The report -/

/-- One turn of thread `i`: it checks the value in `s1`, reports in `s2` and comes to its
`sem_wait` in `s3`; `mid1` and `mid2` are what the others do in between. -/
structure CheckedWait (N M i : ℕ) where
  before : List Act
  mid1 : List Act
  mid2 : List Act
  s1 : SemState
  s2 : SemState
  s3 : SemState
  start : exec (semStep true N M) semInit before = some s1
  atCheck : ∃ t, s1.threads[i]? = some t ∧ t.pc = .getvalue
  check : exec (semStep true N M) s1 (.thread i :: mid1) = some s2
  report : exec (semStep true N M) s2 (.thread i :: mid2) = some s3
  others : .thread i ∉ mid1 ∧ .thread i ∉ mid2

section
variable {N M i : ℕ} (w : CheckedWait N M i)

/-- The report step prints `blocked`. -/
def CheckedWait.Reports : Prop :=
  ∃ m, semStep true N M w.s2 (.thread i) = some m ∧ m.out = w.s2.out ++ [.blocked]

/-- `blocked` is printed if and only if the wait cannot be taken immediately. -/
def CheckedWait.Truthful : Prop := w.Reports ↔ w.s3.value = 0

/-- The steps from the check to the wait. -/
def CheckedWait.between : List Act := .thread i :: (w.mid1 ++ .thread i :: w.mid2)

/-- From the check to the wait the semaphore is taken as often as it is posted. -/
def CheckedWait.Balanced : Prop :=
  total (semStep true N M) takes w.s1 w.between = total (semStep true N M) posts w.s1 w.between

theorem CheckedWait.run : exec (semStep true N M) w.s1 w.between = some w.s3 := by
  show exec (semStep true N M) w.s1 ((.thread i :: w.mid1) ++ .thread i :: w.mid2) = some w.s3
  rw [exec_append, w.check, Option.bind_some, w.report]

theorem CheckedWait.reports_iff : w.Reports ↔ w.s1.value = 0 := by
  obtain ⟨t, ht, hpc⟩ := w.atCheck
  obtain ⟨m, hm, hmid⟩ := exec_cons_inv w.check
  obtain ⟨t', r, ht', hr, rfl⟩ := semStep_thread hm
  cases Option.some.inj (ht.symm.trans ht')
  rw [threadStep, hpc] at hr
  cases Option.some.inj hr
  have hi := (List.getElem?_eq_some_iff.mp ht).1
  have hquiet : Pc.report ≠ .post ∧ Pc.report ≠ .blocked := by decide
  have hreport : w.s2.threads[i]? = some { t with pc := .report, semval := w.s1.value } :=
    thread_kept_run hmid w.others.1 (List.getElem?_set_self hi) hquiet
  unfold CheckedWait.Reports
  rw [semStep_thread_eq hreport rfl]
  by_cases hv : w.s1.value = 0
  · refine iff_of_true ⟨_, rfl, ?_⟩ hv
    show w.s2.out ++ (if w.s1.value = 0 then [.blocked] else []) = _
    rw [if_pos hv]
  · refine iff_of_false ?_ hv
    rintro ⟨m, hm, hout⟩
    cases Option.some.inj hm
    have hnone : w.s2.out ++ (if w.s1.value = 0 then [.blocked] else []) =
        w.s2.out ++ [.blocked] := hout
    rw [if_neg hv] at hnone
    cases List.append_cancel_left hnone

/-- **The report is truthful exactly when takes and posts balance between check and wait.** -/
theorem blocked_truthful_iff : w.Truthful ↔ w.Balanced := by
  have hvalue := value_total w.run
  have h1 := (sound_of_run w.start).one
  have hrun3 : exec (semStep true N M) semInit (w.before ++ w.between) = some w.s3 := by
    rw [exec_append, w.start, Option.bind_some, w.run]
  have h3 := (sound_of_run hrun3).one
  unfold CheckedWait.Truthful CheckedWait.Balanced
  rw [w.reports_iff]
  omega

end

/-- Two threads see the value 1, and the one that waits second is blocked unreported. -/
def overtaken : CheckedWait 2 1 1 where
  before := [.create, .create]
  mid1 := []
  mid2 := [.thread 0, .thread 0, .thread 0]
  s1 := ⟨1, 0, [⟨.getvalue, 0, 0, 0, 0⟩, ⟨.getvalue, 1, 0, 0, 0⟩], []⟩
  s2 := ⟨1, 0, [⟨.getvalue, 0, 0, 0, 0⟩, ⟨.report, 1, 0, 0, 1⟩], []⟩
  s3 := ⟨0, 0, [⟨.load, 0, 0, 0, 1⟩, ⟨.wait, 1, 0, 0, 1⟩], []⟩
  start := rfl
  atCheck := ⟨_, rfl, rfl⟩
  check := rfl
  report := rfl
  others := by decide

theorem blocked_not_truthful : ¬ ∀ (N M i : ℕ) (w : CheckedWait N M i), w.Truthful := by
  intro h
  have hreports := (h 2 1 1 overtaken).mpr rfl
  exact absurd ((CheckedWait.reports_iff overtaken).mp hreports) (by decide)

end LinuxAppSamp.Semaphore
