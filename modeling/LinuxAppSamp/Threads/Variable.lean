import LinuxAppSamp.Foundations.Mutex
import LinuxAppSamp.Foundations.Progress

/-! # A variable under a mutex: `mutex_variable.c`

One thread increments `s_val`, a load and a store under `lock`; the other prints it, first under
`lock` and then without. `increments_kept` is the end of every run, with no increment lost.
`readings_iff` says which values the program prints: they never go down and never exceed the number
of increments, and beyond that nothing is promised.
-/

namespace LinuxAppSamp.Threads.Variable
open Execution
set_option autoImplicit false
set_option maxHeartbeats 250000

/-! ## The system -/

/-- The increments, and the turns of the two loops that print. -/
structure Turns where
  incr : ℕ
  locked : ℕ
  free : ℕ
  deriving DecidableEq, Repr

def turns : Turns := ⟨10, 10, 20⟩

inductive MainPc
  | create1 | create2 | join1 | join2 | destroy | exited
  deriving DecidableEq, Repr

/-- `load` and `store` are the two halves of `set_val(get_val() + 1)`. -/
inductive Pc1
  | absent | test | lock | load | store | unlock | finished
  deriving DecidableEq, Repr

inductive Pc2
  | absent | test1 | lock | print | unlock | test2 | printFree | finished
  deriving DecidableEq, Repr

inductive Party
  | thread1 | thread2
  deriving DecidableEq, Repr

/-- `loop1` and `loop2` are the locals of the two functions, `tmp` the value that is loaded. -/
structure State where
  main : MainPc
  pc1 : Pc1
  loop1 : ℕ
  tmp : ℕ
  pc2 : Pc2
  loop2 : ℕ
  lock : Option Party
  sVal : ℕ
  out : List ℕ
  deriving DecidableEq, Repr

inductive Act
  | main | thread1 | thread2
  deriving DecidableEq, Repr

def init : State := ⟨.create1, .absent, 0, 0, .absent, 0, none, 0, []⟩

def mainStep (s : State) : Option State :=
  match s.main with
  | .create1 => some { s with main := .create2, pc1 := .test }
  | .create2 => some { s with main := .join1, pc2 := .test1 }
  | .join1 => if s.pc1 = .finished then some { s with main := .join2 } else none
  | .join2 => if s.pc2 = .finished then some { s with main := .destroy } else none
  | .destroy => some { s with main := .exited }
  | .exited => none

def threadFunc1 (T : Turns) (s : State) : Option State :=
  match s.pc1 with
  | .absent => none
  | .test => some { s with pc1 := if s.loop1 < T.incr then .lock else .finished }
  | .lock => if s.lock = none then some { s with pc1 := .load, lock := some .thread1 } else none
  | .load => some { s with pc1 := .store, tmp := s.sVal }
  | .store => some { s with pc1 := .unlock, sVal := s.tmp + 1 }
  | .unlock => some { s with pc1 := .test, loop1 := s.loop1 + 1, lock := none }
  | .finished => none

def threadFunc2 (T : Turns) (s : State) : Option State :=
  match s.pc2 with
  | .absent => none
  | .test1 =>
    if s.loop2 < T.locked then some { s with pc2 := .lock } else some { s with pc2 := .test2, loop2 := 0 }
  | .lock => if s.lock = none then some { s with pc2 := .print, lock := some .thread2 } else none
  | .print => some { s with pc2 := .unlock, out := s.out ++ [s.sVal] }
  | .unlock => some { s with pc2 := .test1, loop2 := s.loop2 + 1, lock := none }
  | .test2 => some { s with pc2 := if s.loop2 < T.free then .printFree else .finished }
  | .printFree => some { s with pc2 := .test2, loop2 := s.loop2 + 1, out := s.out ++ [s.sVal] }
  | .finished => none

def step (T : Turns) (s : State) : Act → Option State
  | .main => mainStep s
  | .thread1 => threadFunc1 T s
  | .thread2 => threadFunc2 T s

/-! ## What holds in every run -/

def inside (s : State) : Party → Prop
  | .thread1 => s.pc1 = .load ∨ s.pc1 = .store ∨ s.pc1 = .unlock
  | .thread2 => s.pc2 = .print ∨ s.pc2 = .unlock

/-- The value follows the counter of the loop that increments it. -/
def Counted1 (T : Turns) (s : State) : Prop :=
  match s.pc1 with
  | .absent => s.loop1 = 0 ∧ s.sVal = 0
  | .test => s.sVal = s.loop1 ∧ s.loop1 ≤ T.incr
  | .lock | .load => s.sVal = s.loop1 ∧ s.loop1 < T.incr
  | .store => s.sVal = s.loop1 ∧ s.tmp = s.loop1 ∧ s.loop1 < T.incr
  | .unlock => s.sVal = s.loop1 + 1 ∧ s.loop1 < T.incr
  | .finished => s.sVal = T.incr

/-- How many lines are printed. -/
def Counted2 (T : Turns) (pc2 : Pc2) (loop2 n : ℕ) : Prop :=
  match pc2 with
  | .absent => loop2 = 0 ∧ n = 0
  | .test1 => n = loop2 ∧ loop2 ≤ T.locked
  | .lock | .print => n = loop2 ∧ loop2 < T.locked
  | .unlock => n = loop2 + 1 ∧ loop2 < T.locked
  | .test2 => n = T.locked + loop2 ∧ loop2 ≤ T.free
  | .printFree => n = T.locked + loop2 ∧ loop2 < T.free
  | .finished => n = T.locked + T.free

def Started (main : MainPc) (pc1 : Pc1) (pc2 : Pc2) : Prop :=
  match main with
  | .create1 => pc1 = .absent ∧ pc2 = .absent
  | .create2 => pc1 ≠ .absent ∧ pc2 = .absent
  | .join1 => pc1 ≠ .absent ∧ pc2 ≠ .absent
  | .join2 => pc1 = .finished ∧ pc2 ≠ .absent
  | .destroy | .exited => pc1 = .finished ∧ pc2 = .finished

structure Sound (T : Turns) (s : State) : Prop where
  started : Started s.main s.pc1 s.pc2
  guards : Guards s.lock (inside s)
  counted1 : Counted1 T s
  counted2 : Counted2 T s.pc2 s.loop2 s.out.length
  sorted : s.out.Pairwise (· ≤ ·)
  below : ∀ v ∈ s.out, v ≤ s.sVal

theorem sound_init (T : Turns) : Sound T init where
  started := ⟨rfl, rfl⟩
  guards := fun i => iff_of_false (by simp [init]) (by cases i <;> simp [inside, init])
  counted1 := ⟨rfl, rfl⟩
  counted2 := ⟨rfl, rfl⟩
  sorted := .nil
  below := fun v hv => absurd hv List.not_mem_nil

theorem sound_mainStep {T : Turns} {s s' : State} (h : Sound T s) (hs : mainStep s = some s') :
    Sound T s' := by
  obtain ⟨hstarted, hguards, hcounted1, hcounted2, hsorted, hbelow⟩ := h
  unfold mainStep at hs
  cases hm : s.main <;> rw [hm] at hs hstarted
  case create1 =>
    cases Option.some.inj hs
    rw [Counted1, hstarted.1] at hcounted1
    refine ⟨⟨by simp, hstarted.2⟩, hguards.same ?_, ?_, hcounted2, hsorted, hbelow⟩
    · rintro (_ | _) <;> simp [inside, hstarted.1]
    · exact ⟨hcounted1.2.trans hcounted1.1.symm, by simp [hcounted1.1]⟩
  case create2 =>
    cases Option.some.inj hs
    unfold Counted2 at hcounted2
    rw [hstarted.2] at hcounted2
    refine ⟨⟨hstarted.1, by simp⟩, hguards.same ?_, hcounted1, ?_, hsorted, hbelow⟩
    · rintro (_ | _) <;> simp [inside, hstarted.2]
    · exact ⟨hcounted2.2.trans hcounted2.1.symm, by simp [hcounted2.1]⟩
  case join1 =>
    obtain ⟨hfin, rfl⟩ := guarded_inv hs
    exact ⟨⟨hfin, hstarted.2⟩, hguards, hcounted1, hcounted2, hsorted, hbelow⟩
  case join2 =>
    obtain ⟨hfin, rfl⟩ := guarded_inv hs
    exact ⟨⟨hstarted.1, hfin⟩, hguards, hcounted1, hcounted2, hsorted, hbelow⟩
  case destroy =>
    cases Option.some.inj hs
    exact ⟨hstarted, hguards, hcounted1, hcounted2, hsorted, hbelow⟩
  case exited => cases hs

theorem started_thread1 {main : MainPc} {pc1 pc1' : Pc1} {pc2 : Pc2} (h : Started main pc1 pc2)
    (habsent : pc1 ≠ .absent) (hfinished : pc1 ≠ .finished) (habsent' : pc1' ≠ .absent) :
    Started main pc1' pc2 := by
  cases main
  case create1 => exact absurd h.1 habsent
  case create2 | join1 => exact ⟨habsent', h.2⟩
  all_goals exact absurd h.1 hfinished

theorem started_thread2 {main : MainPc} {pc1 : Pc1} {pc2 pc2' : Pc2} (h : Started main pc1 pc2)
    (habsent : pc2 ≠ .absent) (hfinished : pc2 ≠ .finished) (habsent' : pc2' ≠ .absent) :
    Started main pc1 pc2' := by
  cases main
  case create1 | create2 => exact absurd h.2 habsent
  case join1 | join2 => exact ⟨h.1, habsent'⟩
  all_goals exact absurd h.2 hfinished

theorem sound_threadFunc1 {T : Turns} {s s' : State} (h : Sound T s)
    (hs : threadFunc1 T s = some s') : Sound T s' := by
  have hstart := fun pc1' => @started_thread1 s.main s.pc1 pc1' s.pc2 h.started
  obtain ⟨-, hguards, hcounted1, hcounted2, hsorted, hbelow⟩ := h
  unfold threadFunc1 at hs
  unfold Counted1 at hcounted1
  cases hpc : s.pc1 <;> rw [hpc] at hs hcounted1 hstart
  case absent | finished => cases hs
  case test =>
    cases Option.some.inj hs
    have hguards' : ∀ pc1', (pc1' = .lock ∨ pc1' = .finished) →
        Guards s.lock (inside { s with pc1 := pc1' }) := by
      intro pc1' hpc1'
      apply hguards.same
      obtain rfl | rfl := hpc1' <;> rintro (_ | _) <;> simp [inside, hpc]
    by_cases hlt : s.loop1 < T.incr
    · rw [if_pos hlt]
      exact ⟨hstart _ (by simp) (by simp) (by simp), hguards' _ (Or.inl rfl), ⟨hcounted1.1, hlt⟩, hcounted2,
        hsorted, hbelow⟩
    · rw [if_neg hlt]
      have hval : s.sVal = T.incr := by omega
      exact ⟨hstart _ (by simp) (by simp) (by simp), hguards' _ (Or.inr rfl), hval, hcounted2, hsorted,
        hbelow⟩
  case lock =>
    obtain ⟨hfree, rfl⟩ := guarded_inv hs
    refine ⟨hstart _ (by simp) (by simp) (by simp), ?_, hcounted1, hcounted2, hsorted, hbelow⟩
    apply hguards.move .thread1
    · rintro (_ | _) <;> simp [inside]
    · exact fun _ _ => ⟨hfree, rfl⟩
    · simp [inside, hpc]
    · simp [inside, hpc]
  case load =>
    cases Option.some.inj hs
    refine ⟨hstart _ (by simp) (by simp) (by simp), ?_, ⟨hcounted1.1, hcounted1⟩, hcounted2, hsorted, hbelow⟩
    apply hguards.same
    rintro (_ | _) <;> simp [inside, hpc]
  case store =>
    cases Option.some.inj hs
    refine ⟨hstart _ (by simp) (by simp) (by simp), ?_, ?_, hcounted2, hsorted, ?_⟩
    · apply hguards.same
      rintro (_ | _) <;> simp [inside, hpc]
    · exact ⟨congrArg (· + 1) hcounted1.2.1, hcounted1.2.2⟩
    · intro v hv
      have hle := hbelow v hv
      show v ≤ s.tmp + 1
      omega
  case unlock =>
    cases Option.some.inj hs
    refine ⟨hstart _ (by simp) (by simp) (by simp), ?_, hcounted1, hcounted2, hsorted, hbelow⟩
    apply hguards.move .thread1
    · rintro (_ | _) <;> simp [inside]
    · simp [inside, hpc]
    · exact fun _ _ => rfl
    · simp [inside, hpc]

theorem sorted_snoc {o : List ℕ} {v : ℕ} (h : o.Pairwise (· ≤ ·)) (hv : ∀ u ∈ o, u ≤ v) :
    (o ++ [v]).Pairwise (· ≤ ·) ∧ ∀ u ∈ o ++ [v], u ≤ v := by
  refine ⟨List.pairwise_append.mpr ⟨h, List.pairwise_singleton .., ?_⟩, ?_⟩
  · intro u hu w hw
    rw [List.mem_singleton.mp hw]
    exact hv u hu
  · intro u hu
    obtain hu | hu := List.mem_append.mp hu
    · exact hv u hu
    · exact Nat.le_of_eq (List.mem_singleton.mp hu)

theorem sound_threadFunc2 {T : Turns} {s s' : State} (h : Sound T s)
    (hs : threadFunc2 T s = some s') : Sound T s' := by
  have hstart := fun pc2' => @started_thread2 s.main s.pc1 s.pc2 pc2' h.started
  obtain ⟨-, hguards, hcounted1, hcounted2, hsorted, hbelow⟩ := h
  have hsnoc := sorted_snoc hsorted hbelow
  have hlen : (s.out ++ [s.sVal]).length = s.out.length + 1 := List.length_append
  have hsame : ∀ pc2', (¬ (s.pc2 = .print ∨ s.pc2 = .unlock)) → (¬ (pc2' = .print ∨ pc2' = .unlock)) →
      ∀ loop2 out, Guards s.lock (inside { s with pc2 := pc2', loop2 := loop2, out := out }) := by
    intro pc2' hout hout' loop2 out
    apply hguards.same
    rintro (_ | _)
    · exact Iff.rfl
    · exact iff_of_false hout' hout
  unfold threadFunc2 at hs
  unfold Counted2 at hcounted2
  cases hpc : s.pc2 <;> rw [hpc] at hs hcounted2 hstart hsame
  case absent | finished => cases hs
  case test1 =>
    by_cases hlt : s.loop2 < T.locked
    · simp only [if_pos hlt] at hs
      cases Option.some.inj hs
      exact ⟨hstart _ (by simp) (by simp) (by simp), hsame _ (by simp) (by simp) _ _, hcounted1,
        ⟨hcounted2.1, hlt⟩, hsorted, hbelow⟩
    · simp only [if_neg hlt] at hs
      cases Option.some.inj hs
      have hn : s.out.length = T.locked := by omega
      exact ⟨hstart _ (by simp) (by simp) (by simp), hsame _ (by simp) (by simp) _ _, hcounted1,
        ⟨hn, Nat.zero_le _⟩, hsorted, hbelow⟩
  case lock =>
    obtain ⟨hfree, rfl⟩ := guarded_inv hs
    refine ⟨hstart _ (by simp) (by simp) (by simp), ?_, hcounted1, hcounted2, hsorted, hbelow⟩
    apply hguards.move .thread2
    · rintro (_ | _) <;> simp [inside]
    · exact fun _ _ => ⟨hfree, rfl⟩
    · simp [inside, hpc]
    · simp [inside, hpc]
  case print =>
    cases Option.some.inj hs
    refine ⟨hstart _ (by simp) (by simp) (by simp), ?_, hcounted1, ?_, hsnoc.1, hsnoc.2⟩
    · apply hguards.same
      rintro (_ | _) <;> simp [inside, hpc]
    · exact ⟨hlen.trans (congrArg (· + 1) hcounted2.1), hcounted2.2⟩
  case unlock =>
    cases Option.some.inj hs
    refine ⟨hstart _ (by simp) (by simp) (by simp), ?_, hcounted1, hcounted2, hsorted, hbelow⟩
    apply hguards.move .thread2
    · rintro (_ | _) <;> simp [inside]
    · simp [inside, hpc]
    · exact fun _ _ => rfl
    · simp [inside, hpc]
  case test2 =>
    cases Option.some.inj hs
    by_cases hlt : s.loop2 < T.free
    · rw [if_pos hlt]
      exact ⟨hstart _ (by simp) (by simp) (by simp), hsame _ (by simp) (by simp) _ _, hcounted1,
        ⟨hcounted2.1, hlt⟩, hsorted, hbelow⟩
    · rw [if_neg hlt]
      have hn : s.out.length = T.locked + T.free := by omega
      exact ⟨hstart _ (by simp) (by simp) (by simp), hsame _ (by simp) (by simp) _ _, hcounted1, hn, hsorted,
        hbelow⟩
  case printFree =>
    cases Option.some.inj hs
    exact ⟨hstart _ (by simp) (by simp) (by simp), hsame _ (by simp) (by simp) _ _, hcounted1,
      ⟨hlen.trans (congrArg (· + 1) hcounted2.1), hcounted2.2⟩, hsnoc.1, hsnoc.2⟩

theorem sound_step (T : Turns) (s : State) (a : Act) (s' : State) (h : Sound T s)
    (hs : step T s a = some s') : Sound T s' := by
  cases a with
  | main => exact sound_mainStep h hs
  | thread1 => exact sound_threadFunc1 h hs
  | thread2 => exact sound_threadFunc2 h hs

/-! ## The end -/

def mainRank : MainPc → ℕ
  | .create1 => 5
  | .create2 => 4
  | .join1 => 3
  | .join2 => 2
  | .destroy => 1
  | .exited => 0

/-- A turn takes five steps: the test, the lock, the two halves, the unlock. -/
def rank1 (T : Turns) (loop1 : ℕ) : Pc1 → ℕ
  | .absent | .test => 5 * (T.incr - loop1) + 1
  | .lock => 5 * (T.incr - loop1)
  | .load => 5 * (T.incr - loop1 - 1) + 4
  | .store => 5 * (T.incr - loop1 - 1) + 3
  | .unlock => 5 * (T.incr - loop1 - 1) + 2
  | .finished => 0

def rank2 (T : Turns) (loop2 : ℕ) : Pc2 → ℕ
  | .absent | .test1 => 4 * (T.locked - loop2) + 2 * T.free + 2
  | .lock => 4 * (T.locked - loop2) + 2 * T.free + 1
  | .print => 4 * (T.locked - loop2 - 1) + 2 * T.free + 4
  | .unlock => 4 * (T.locked - loop2 - 1) + 2 * T.free + 3
  | .test2 => 2 * (T.free - loop2) + 1
  | .printFree => 2 * (T.free - loop2)
  | .finished => 0

def rank (T : Turns) (s : State) : ℕ :=
  mainRank s.main + rank1 T s.loop1 s.pc1 + rank2 T s.loop2 s.pc2

theorem rank_step (T : Turns) (s : State) (a : Act) (s' : State) (h : Sound T s)
    (hs : step T s a = some s') : rank T s' + 1 ≤ rank T s := by
  obtain ⟨hstarted, -, hcounted1, hcounted2, -, -⟩ := h
  unfold rank
  cases a with
  | main =>
    have hs : mainStep s = some s' := hs
    unfold mainStep at hs
    cases hm : s.main <;> rw [hm] at hs hstarted
    case create1 =>
      cases Option.some.inj hs
      rw [hstarted.1]
      simp only [mainRank, rank1]
      omega
    case create2 =>
      cases Option.some.inj hs
      rw [hstarted.2]
      simp only [mainRank, rank2]
      omega
    case join1 | join2 =>
      obtain ⟨-, rfl⟩ := guarded_inv hs
      simp only [mainRank]
      omega
    case destroy =>
      cases Option.some.inj hs
      simp only [mainRank]
      omega
    case exited => cases hs
  | thread1 =>
    have hs : threadFunc1 T s = some s' := hs
    unfold threadFunc1 at hs
    unfold Counted1 at hcounted1
    cases hpc : s.pc1 <;> rw [hpc] at hs hcounted1
    case absent | finished => cases hs
    case test =>
      cases Option.some.inj hs
      by_cases hlt : s.loop1 < T.incr
      · simp only [if_pos hlt, rank1]
        omega
      · simp only [if_neg hlt, rank1]
        omega
    case lock =>
      obtain ⟨-, rfl⟩ := guarded_inv hs
      simp only [rank1]
      omega
    all_goals
      cases Option.some.inj hs
      simp only [rank1]
      omega
  | thread2 =>
    have hs : threadFunc2 T s = some s' := hs
    unfold threadFunc2 at hs
    unfold Counted2 at hcounted2
    cases hpc : s.pc2 <;> rw [hpc] at hs hcounted2
    case absent | finished => cases hs
    case test1 =>
      by_cases hlt : s.loop2 < T.locked
      · simp only [if_pos hlt] at hs
        cases Option.some.inj hs
        simp only [rank2]
        omega
      · simp only [if_neg hlt] at hs
        cases Option.some.inj hs
        simp only [rank2]
        omega
    case test2 =>
      cases Option.some.inj hs
      by_cases hlt : s.loop2 < T.free
      · simp only [if_pos hlt, rank2]
        omega
      · simp only [if_neg hlt, rank2]
        omega
    case lock =>
      obtain ⟨-, rfl⟩ := guarded_inv hs
      simp only [rank2]
      omega
    all_goals
      cases Option.some.inj hs
      simp only [rank2]
      omega

def Exited (s : State) : Prop := s.main = .exited

theorem inside_moves (T : Turns) {s : State} (i : Party) (h : inside s i) :
    ∃ a s', step T s a = some s' := by
  cases i with
  | thread1 =>
    obtain hpc | hpc | hpc := h <;> exact ⟨.thread1, _, by rw [step, threadFunc1, hpc]⟩
  | thread2 =>
    obtain hpc | hpc := h <;> exact ⟨.thread2, _, by rw [step, threadFunc2, hpc]⟩

theorem thread1_moves (T : Turns) {s : State} (hfree : s.lock = none) (habsent : s.pc1 ≠ .absent)
    (hfinished : s.pc1 ≠ .finished) : ∃ a s', step T s a = some s' := by
  refine ⟨.thread1, ?_⟩
  show ∃ s', threadFunc1 T s = some s'
  unfold threadFunc1
  cases hpc : s.pc1
  case absent => exact absurd hpc habsent
  case finished => exact absurd hpc hfinished
  case lock => exact ⟨_, if_pos hfree⟩
  all_goals exact ⟨_, rfl⟩

theorem thread2_moves (T : Turns) {s : State} (hfree : s.lock = none) (habsent : s.pc2 ≠ .absent)
    (hfinished : s.pc2 ≠ .finished) : ∃ a s', step T s a = some s' := by
  refine ⟨.thread2, ?_⟩
  show ∃ s', threadFunc2 T s = some s'
  unfold threadFunc2
  cases hpc : s.pc2
  case absent => exact absurd hpc habsent
  case finished => exact absurd hpc hfinished
  case test1 =>
    by_cases hlt : s.loop2 < T.locked
    · exact ⟨_, if_pos hlt⟩
    · exact ⟨_, if_neg hlt⟩
  case lock => exact ⟨_, if_pos hfree⟩
  all_goals exact ⟨_, rfl⟩

/-- Somebody has the mutex and can go on, or nobody has it and nobody has to wait. -/
theorem moves {T : Turns} {s : State} (h : Sound T s) (hx : ¬ Exited s) :
    ∃ a s', step T s a = some s' := by
  have hstarted := h.started
  obtain hfree | ⟨i, -, hi⟩ := h.guards.free_or
  · cases hm : s.main <;> rw [hm] at hstarted
    case join1 =>
      by_cases hf : s.pc1 = .finished
      · exact ⟨.main, _, by rw [step, mainStep, hm]; exact if_pos hf⟩
      · exact thread1_moves T hfree hstarted.1 hf
    case join2 =>
      by_cases hf : s.pc2 = .finished
      · exact ⟨.main, _, by rw [step, mainStep, hm]; exact if_pos hf⟩
      · exact thread2_moves T hfree hstarted.2 hf
    case exited => exact absurd hm hx
    all_goals exact ⟨.main, _, by rw [step, mainStep, hm]⟩
  · exact inside_moves T i hi

theorem progresses (T : Turns) :
    Progresses (step T) (fun _ => True) (Sound T) Exited (rank T) (fun _ => 0) where
  keeps := fun s a s' h _ hs => sound_step T s a s' h hs
  moves := by
    intro s h hx
    obtain ⟨a, s', hs⟩ := moves h hx
    exact ⟨a, s', trivial, rfl, hs⟩
  ranks := fun s a s' h _ hs => rank_step T s a s' h hs

theorem finished_of_exited {T : Turns} {s : State} (h : Sound T s) (hx : Exited s) :
    s.pc1 = .finished ∧ s.pc2 = .finished := by
  have hstarted := h.started
  rw [show s.main = .exited from hx] at hstarted
  exact hstarted

/-- **No increment is lost**, the two threads are never inside together, and every run ends. -/
theorem increments_kept (T : Turns) (as : List Act) (s : State) (h : exec (step T) init as = some s) :
    ¬ (inside s .thread1 ∧ inside s .thread2) ∧
      as.length ≤ 5 * T.incr + 4 * T.locked + 2 * T.free + 8 ∧
      ((∀ a, step T s a = none) → Exited s) ∧
      (Exited s → s.sVal = T.incr ∧ s.lock = none) ∧
      ∃ bs t, exec (step T) s bs = some t ∧ Exited t := by
  have hs := (progresses T).run h (fun _ _ => trivial) (sound_init T)
  have hlength := (progresses T).length_le h (fun _ _ => trivial) (sound_init T)
  rw [tally_const (fun _ => 0) 0 as fun _ _ => rfl] at hlength
  have hrank : rank T init = 5 + (5 * T.incr + 1) + (4 * T.locked + 2 * T.free + 2) := rfl
  refine ⟨fun hboth => ?_, by omega, fun hstuck => ?_, fun hx => ?_, ?_⟩
  · cases hs.guards.unique hboth.1 hboth.2
  · exact (progresses T).final_of_stuck hs fun a _ _ => hstuck a
  · obtain ⟨h1, h2⟩ := finished_of_exited hs hx
    have hcounted := hs.counted1
    rw [Counted1, h1] at hcounted
    refine ⟨hcounted, ?_⟩
    obtain hfree | ⟨i, -, hi⟩ := hs.guards.free_or
    · exact hfree
    · cases i <;> simp [inside, h1, h2] at hi
  · obtain ⟨bs, t, -, hrun, ht⟩ := (progresses T).reaches_final hs
    exact ⟨bs, t, hrun, ht⟩

/-- The first thread has the mutex, the second one waits for it. -/
theorem increments_kept_started :
    ∃ s, exec (step turns) init [.main, .main, .thread1, .thread2, .thread1] = some s ∧
      ∃ bs t, exec (step turns) s bs = some t ∧ Exited t :=
  ⟨_, rfl, (increments_kept turns [.main, .main, .thread1, .thread2, .thread1] _ rfl).2.2.2.2⟩

/-! ## Every output -/

/-- Both threads are between two turns. -/
def between (pc2 : Pc2) (v tmp k : ℕ) (o : List ℕ) : State := ⟨.join1, .test, v, tmp, pc2, k, none, v, o⟩

theorem exec_increment {T : Turns} (pc2 : Pc2) {v : ℕ} (tmp k : ℕ) (o : List ℕ) (hv : v < T.incr) :
    exec (step T) (between pc2 v tmp k o) (List.replicate 5 .thread1) =
      some (between pc2 (v + 1) v k o) := by
  have htest : step T (between pc2 v tmp k o) .thread1 =
      some { between pc2 v tmp k o with pc1 := if v < T.incr then .lock else .finished } := rfl
  rw [if_pos hv] at htest
  exact (exec_cons_eq htest _).trans rfl

theorem reaches_value {T : Turns} (pc2 : Pc2) {v w : ℕ} (tmp k : ℕ) (o : List ℕ) (hvw : v ≤ w)
    (hw : w ≤ T.incr) :
    ∃ tmp' as, exec (step T) (between pc2 v tmp k o) as = some (between pc2 w tmp' k o) := by
  induction w, hvw using Nat.le_induction with
  | base => exact ⟨tmp, [], rfl⟩
  | succ w hvw ih =>
    obtain ⟨tmp', as, has⟩ := ih (by omega)
    refine ⟨w, as ++ List.replicate 5 .thread1, ?_⟩
    rw [exec_append, has, Option.bind_some, exec_increment pc2 tmp' k o (by omega)]

/-- A turn of the loop at `pc2` takes `n` steps and prints what the variable holds. -/
def Prints (T : Turns) (pc2 : Pc2) (turns n : ℕ) : Prop :=
  ∀ v tmp k o, k < turns → exec (step T) (between pc2 v tmp k o) (List.replicate n .thread2) =
    some (between pc2 v tmp (k + 1) (o ++ [v]))

theorem prints_locked (T : Turns) : Prints T .test1 T.locked 4 := by
  intro v tmp k o hk
  have htest : step T (between .test1 v tmp k o) .thread2 =
      some { between .test1 v tmp k o with pc2 := .lock } := if_pos hk
  exact (exec_cons_eq htest _).trans rfl

theorem prints_free (T : Turns) : Prints T .test2 T.free 2 := by
  intro v tmp k o hk
  have htest : step T (between .test2 v tmp k o) .thread2 =
      some { between .test2 v tmp k o with pc2 := if k < T.free then .printFree else .finished } := rfl
  rw [if_pos hk] at htest
  exact (exec_cons_eq htest _).trans rfl

/-- The values of `l` are printed one after the other: before each, the first thread goes on until
the variable has it. -/
theorem Prints.reaches {T : Turns} {pc2 : Pc2} {turns n : ℕ} (h : Prints T pc2 turns n) {l : List ℕ}
    {v k : ℕ} (tmp : ℕ) (o : List ℕ) (hsorted : (v :: l).Pairwise (· ≤ ·)) (hl : ∀ u ∈ l, u ≤ T.incr)
    (hk : k + l.length ≤ turns) :
    ∃ w tmp' as, w ∈ v :: l ∧
      exec (step T) (between pc2 v tmp k o) as = some (between pc2 w tmp' (k + l.length) (o ++ l)) := by
  induction l generalizing v tmp k o with
  | nil => exact ⟨v, tmp, [], List.mem_cons_self, by rw [List.append_nil]; rfl⟩
  | cons u l ih =>
    obtain ⟨hvu, hsorted⟩ := List.pairwise_cons.mp hsorted
    obtain ⟨hu, hl⟩ := List.forall_mem_cons.mp hl
    rw [List.length_cons] at hk
    obtain ⟨tmp1, as, has⟩ := reaches_value pc2 tmp k o (hvu u List.mem_cons_self) hu
    obtain ⟨w, tmp2, bs, hw, hbs⟩ := ih (k := k + 1) tmp1 (o ++ [u]) hsorted hl (by omega)
    refine ⟨w, tmp2, as ++ (List.replicate n .thread2 ++ bs), List.mem_cons_of_mem v hw, ?_⟩
    rw [exec_append, has, Option.bind_some, exec_append, h u tmp1 k o (by omega), Option.bind_some, hbs,
      List.length_cons, List.append_assoc, Nat.add_assoc, Nat.add_comm 1]
    rfl

theorem reaches_exit {T : Turns} (tmp : ℕ) (o : List ℕ) :
    ∃ as s, exec (step T) (between .test2 T.incr tmp T.free o) as = some s ∧ Exited s ∧ s.out = o := by
  have h1 : step T (between .test2 T.incr tmp T.free o) .thread1 =
      some { between .test2 T.incr tmp T.free o with
        pc1 := if T.incr < T.incr then .lock else .finished } := rfl
  have h2 : step T { between .test2 T.incr tmp T.free o with pc1 := .finished } .thread2 =
      some { between .test2 T.incr tmp T.free o with
        pc1 := .finished, pc2 := if T.free < T.free then .printFree else .finished } := rfl
  rw [if_neg (Nat.lt_irrefl _)] at h1 h2
  exact ⟨[.thread1, .thread2, .main, .main, .main],
    { between .test2 T.incr tmp T.free o with main := .exited, pc1 := .finished, pc2 := .finished },
    (exec_cons_eq h1 _).trans (exec_cons_eq h2 _), rfl, rfl⟩

/-- **What is printed.** The program can print a list of values when it is as long as the two loops
together, never goes down and stays within the number of increments, and only then. -/
theorem readings_iff (T : Turns) (o : List ℕ) :
    (∃ as s, exec (step T) init as = some s ∧ Exited s ∧ s.out = o) ↔
      o.length = T.locked + T.free ∧ o.Pairwise (· ≤ ·) ∧ ∀ v ∈ o, v ≤ T.incr := by
  constructor
  · rintro ⟨as, s, h, hx, rfl⟩
    have hs : Sound T s := exec_invariant (Sound T) (sound_step T) h (sound_init T)
    obtain ⟨h1, h2⟩ := finished_of_exited hs hx
    have hcounted1 := hs.counted1
    have hcounted2 := hs.counted2
    rw [Counted1, h1] at hcounted1
    rw [h2] at hcounted2
    exact ⟨hcounted2, hs.sorted, fun v hv => (hs.below v hv).trans (Nat.le_of_eq hcounted1)⟩
  · rintro ⟨hlen, hsorted, hle⟩
    obtain ⟨l1, l2, rfl, hl1, hl2⟩ : ∃ l1 l2, o = l1 ++ l2 ∧ l1.length = T.locked ∧ l2.length = T.free :=
      ⟨o.take T.locked, o.drop T.locked, (List.take_append_drop _ o).symm, by
        rw [List.length_take]
        omega, by
        rw [List.length_drop]
        omega⟩
    obtain ⟨hsorted1, hsorted2, hbetween⟩ := List.pairwise_append.mp hsorted
    have hle1 : ∀ u ∈ l1, u ≤ T.incr := fun u hu => hle u (List.mem_append_left l2 hu)
    have hle2 : ∀ u ∈ l2, u ≤ T.incr := fun u hu => hle u (List.mem_append_right l1 hu)
    obtain ⟨v, tmp1, as, hv, has⟩ := (prints_locked T).reaches (k := 0) 0 []
      (List.pairwise_cons.mpr ⟨fun u _ => Nat.zero_le u, hsorted1⟩) hle1 (by omega)
    have hv2 : ∀ u ∈ l2, v ≤ u := by
      intro u hu
      obtain rfl | hv := List.mem_cons.mp hv
      · exact Nat.zero_le u
      · exact hbetween v hv u hu
    have hvT : v ≤ T.incr := by
      obtain rfl | hv := List.mem_cons.mp hv
      · exact Nat.zero_le _
      · exact hle1 v hv
    have hloop : step T (between .test1 v tmp1 (0 + l1.length) ([] ++ l1)) .thread2 =
        some (between .test2 v tmp1 0 l1) := if_neg (show ¬ 0 + l1.length < T.locked by omega)
    obtain ⟨w, tmp2, bs, hw, hbs⟩ := (prints_free T).reaches (k := 0) tmp1 l1
      (List.pairwise_cons.mpr ⟨hv2, hsorted2⟩) hle2 (by omega)
    have hwT : w ≤ T.incr := by
      obtain rfl | hw := List.mem_cons.mp hw
      · exact hvT
      · exact hle2 w hw
    rw [Nat.zero_add, hl2] at hbs
    obtain ⟨tmp3, cs, hcs⟩ := reaches_value .test2 tmp2 T.free (l1 ++ l2) hwT (Nat.le_refl T.incr)
    obtain ⟨ds, s, hds, hx, hout⟩ := reaches_exit (T := T) tmp3 (l1 ++ l2)
    have hstart : exec (step T) init [.main, .main] = some (between .test1 0 0 0 []) := rfl
    refine ⟨[.main, .main] ++ (as ++ .thread2 :: (bs ++ (cs ++ ds))), s, ?_, hx, hout⟩
    rw [exec_append, hstart, Option.bind_some, exec_append, has, Option.bind_some, exec_cons_eq hloop,
      exec_append, hbs, Option.bind_some, exec_append, hcs, Option.bind_some, hds]

end LinuxAppSamp.Threads.Variable
