import LinuxAppSamp.Foundations.Progress
import LinuxAppSamp.Foundations.Merge
import Mathlib.Data.Int.Notation

/-! # A flag and a condition variable: `mutex_signal.c`

`main` locks, creates the thread and waits in a loop until `condition` is set; the thread sets it
and signals. Every run is an interleaving of the two, with spurious wakeups wherever `main` waits.

* `not_both`: the mutex keeps the two apart;
* `always_ends`: no wakeup is lost, and a run is as long as its spurious wakeups make it;
* `output_iff`: the outputs of the program, each of them and no other.
-/

namespace LinuxAppSamp.Threads.Handshake
open Execution
set_option autoImplicit false
set_option maxHeartbeats 250000

/-! ## The system -/

inductive Party
  | main | thread
  deriving DecidableEq, Repr

inductive Line
  | mainLocked | mainCreated | mainSignaled | mainUnlocked
  | threadLocked | threadSignal | threadUnlocked
  deriving DecidableEq, Repr

def Line.text : Line → String
  | .mainLocked => "main > locked\n"
  | .mainCreated => "main > created\n"
  | .mainSignaled => "main > signaled\n"
  | .mainUnlocked => "main > unlocked\n"
  | .threadLocked => "thread > locked\n"
  | .threadSignal => "thread > signal\n"
  | .threadUnlocked => "thread > unlocked\n"

/-- Where `main` is. `wait` is its call of `pthread_cond_wait`, `waiting` inside it with `lock`
released, `relock` awake and without `lock`. -/
inductive MainPc
  | lock | printLocked | create | printCreated
  | test | wait | waiting | relock | printSignaled
  | unlock | printUnlocked | join | destroy | exited
  deriving DecidableEq, Repr

/-- `absent` is no thread, not yet or because `pthread_create` has failed. -/
inductive ThreadPc
  | absent | lock | printLocked | set | signal | printSignal | unlock | printUnlocked | finished
  deriving DecidableEq, Repr

structure State where
  main : MainPc
  thread : ThreadPc
  lock : Option Party
  condition : ℤ
  out : List Line
  deriving DecidableEq, Repr

/-- `spurious` is a return of `pthread_cond_wait` that no signal has caused. `main` does not look
at the result of `pthread_create`. -/
inductive Act
  | main | createFails | thread | spurious
  deriving DecidableEq, Repr

def init : State := ⟨.lock, .absent, none, 0, []⟩

def mainStep (s : State) : Option State :=
  match s.main with
  | .lock => if s.lock = none then some { s with main := .printLocked, lock := some .main } else none
  | .printLocked => some { s with main := .create, out := s.out ++ [.mainLocked] }
  | .create => some { s with main := .printCreated, thread := .lock }
  | .printCreated => some { s with main := .test, out := s.out ++ [.mainCreated] }
  | .test => some { s with main := if s.condition = 0 then .wait else .unlock }
  | .wait => some { s with main := .waiting, lock := none }
  | .waiting => none
  | .relock =>
    if s.lock = none then some { s with main := .printSignaled, lock := some .main } else none
  | .printSignaled => some { s with main := .test, out := s.out ++ [.mainSignaled] }
  | .unlock => some { s with main := .printUnlocked, lock := none }
  | .printUnlocked => some { s with main := .join, out := s.out ++ [.mainUnlocked] }
  | .join => if s.thread = .finished then some { s with main := .destroy } else none
  | .destroy => some { s with main := .exited }
  | .exited => none

def threadproc (s : State) : Option State :=
  match s.thread with
  | .absent => none
  | .lock =>
    if s.lock = none then some { s with thread := .printLocked, lock := some .thread } else none
  | .printLocked => some { s with thread := .set, out := s.out ++ [.threadLocked] }
  | .set => some { s with thread := .signal, condition := 1 }
  | .signal =>
    some { s with thread := .printSignal, main := if s.main = .waiting then .relock else s.main }
  | .printSignal => some { s with thread := .unlock, out := s.out ++ [.threadSignal] }
  | .unlock => some { s with thread := .printUnlocked, lock := none }
  | .printUnlocked => some { s with thread := .finished, out := s.out ++ [.threadUnlocked] }
  | .finished => none

def step (s : State) : Act → Option State
  | .main => mainStep s
  | .createFails => if s.main = .create then some { s with main := .printCreated } else none
  | .thread => threadproc s
  | .spurious => if s.main = .waiting then some { s with main := .relock } else none

/-! ## What holds in every run -/

/-- `main` is between a `lock` and the next `unlock`. -/
def MainHolds : MainPc → Prop
  | .printLocked | .create | .printCreated | .test | .wait | .printSignaled | .unlock => True
  | _ => False

def ThreadHolds : ThreadPc → Prop
  | .printLocked | .set | .signal | .printSignal | .unlock => True
  | _ => False

/-- The thread has not set `condition`. -/
def Unset : ThreadPc → Prop
  | .absent | .lock | .printLocked | .set => True
  | _ => False

def Unsignalled : ThreadPc → Prop
  | .signal => True
  | t => Unset t

/-- The thread has come out of its critical section. -/
def Released : ThreadPc → Prop
  | .printUnlocked | .finished => True
  | _ => False

def BeforeCreate : MainPc → Prop
  | .lock | .printLocked | .create => True
  | _ => False

def BehindLoop : MainPc → Prop
  | .unlock | .printUnlocked | .join | .destroy | .exited => True
  | _ => False

structure Sound (s : State) : Prop where
  main : s.lock = some .main ↔ MainHolds s.main
  thread : s.lock = some .thread ↔ ThreadHolds s.thread
  condition : s.condition = 0 ↔ Unset s.thread
  before : BeforeCreate s.main → s.thread = .absent
  asks : s.main = .printCreated ∨ s.main = .wait → Unset s.thread
  waiting : s.main = .waiting → Unsignalled s.thread
  behind : BehindLoop s.main → Released s.thread
  joined : s.main = .destroy ∨ s.main = .exited → s.thread = .finished

theorem sound_init : Sound init := by
  constructor <;> simp [init, MainHolds, ThreadHolds, Unset, BehindLoop]

theorem not_both {s : State} (h : Sound s) (hm : MainHolds s.main) : ¬ ThreadHolds s.thread := by
  intro ht
  cases (h.main.mpr hm).symm.trans (h.thread.mpr ht)

theorem released_of_set {t : ThreadPc} (hset : ¬ Unset t) (ht : ¬ ThreadHolds t) : Released t := by
  cases t <;> simp_all [Unset, ThreadHolds, Released]

/-- While the thread is in its critical section, `main` is inside `pthread_cond_wait`. -/
theorem main_inside {s : State} (h : Sound s) (ht : ThreadHolds s.thread) :
    s.main = .waiting ∨ s.main = .relock := by
  have hm : ¬ MainHolds s.main := fun hm => not_both h hm ht
  have hbefore : ¬ BeforeCreate s.main := by
    intro hb
    rw [h.before hb] at ht
    exact ht
  have hbehind : ¬ BehindLoop s.main := by
    intro hb
    have hr := h.behind hb
    cases hpc : s.thread <;> rw [hpc] at hr ht <;> first | exact hr | exact ht
  cases hpc : s.main <;> simp_all [MainHolds, BeforeCreate, BehindLoop]

theorem unsignalled_of_unset {t : ThreadPc} (h : Unset t) : Unsignalled t := by
  cases t <;> first | exact h | trivial

theorem sound_mainStep {s s' : State} (h : Sound s) (hs : mainStep s = some s') : Sound s' := by
  have hboth := not_both h
  obtain ⟨hmain, hthread, hcondition, hbefore, hasks, hwaiting, hbehind, hjoined⟩ := h
  unfold mainStep at hs
  cases hm : s.main <;> rw [hm] at hs hmain hbefore hboth hbehind hwaiting hasks hjoined
  case lock =>
    obtain ⟨hfree, rfl⟩ := guarded_inv hs
    constructor <;> simp_all [MainHolds, BeforeCreate, BehindLoop]
  case create =>
    cases Option.some.inj hs
    constructor <;> simp_all [MainHolds, BeforeCreate, BehindLoop, ThreadHolds, Unset]
  case test =>
    -- with `lock` in hand, `main` sees the flag only after the thread has released it
    cases Option.some.inj hs
    by_cases hzero : s.condition = 0
    · constructor <;> simp_all [MainHolds, BeforeCreate, BehindLoop]
    · have hreleased := released_of_set (fun hu => hzero (hcondition.mpr hu)) (hboth trivial)
      constructor <;> simp_all [MainHolds, BeforeCreate, BehindLoop]
  case wait =>
    cases Option.some.inj hs
    have hunsignalled := unsignalled_of_unset (hasks (Or.inr rfl))
    constructor <;> simp_all [MainHolds, BeforeCreate, BehindLoop]
  case waiting => cases hs
  case relock =>
    obtain ⟨hfree, rfl⟩ := guarded_inv hs
    constructor <;> simp_all [MainHolds, BeforeCreate, BehindLoop]
  case join =>
    obtain ⟨hfinished, rfl⟩ := guarded_inv hs
    constructor <;> simp_all [MainHolds, BeforeCreate, BehindLoop]
  case exited => cases hs
  all_goals
    cases Option.some.inj hs
    constructor <;> simp_all [MainHolds, BeforeCreate, BehindLoop]

theorem sound_threadproc {s s' : State} (h : Sound s) (hs : threadproc s = some s') : Sound s' := by
  have hinside := main_inside h
  obtain ⟨hmain, hthread, hcondition, hbefore, hasks, hwaiting, hbehind, hjoined⟩ := h
  unfold threadproc at hs
  cases ht : s.thread <;> rw [ht] at hs hthread hcondition hbefore hasks hinside hwaiting hbehind hjoined
  case absent => cases hs
  case lock =>
    obtain ⟨hfree, rfl⟩ := guarded_inv hs
    constructor <;> simp_all [ThreadHolds, Unset, Unsignalled, Released]
  case set =>
    cases Option.some.inj hs
    have hm : s.main ≠ .printCreated ∧ s.main ≠ .wait := by
      obtain hm | hm := hinside trivial <;> rw [hm] <;> decide
    constructor <;> simp_all [ThreadHolds, Unset, Unsignalled, Released]
  case signal =>
    cases Option.some.inj hs
    obtain hm | hm := hinside trivial <;> constructor <;>
      simp_all [ThreadHolds, Unset, Unsignalled, Released, MainHolds, BeforeCreate, BehindLoop]
  case finished => cases hs
  all_goals
    cases Option.some.inj hs
    constructor <;> simp_all [ThreadHolds, Unset, Unsignalled, Released]

theorem sound_step (s : State) (a : Act) (s' : State) (h : Sound s) (hs : step s a = some s') :
    Sound s' := by
  cases a with
  | main => exact sound_mainStep h hs
  | createFails =>
    obtain ⟨hm, rfl⟩ := guarded_inv hs
    obtain ⟨hmain, hthread, hcondition, hbefore, hasks, hwaiting, hbehind, hjoined⟩ := h
    constructor <;> simp_all [MainHolds, BeforeCreate, BehindLoop, Unset]
  | thread => exact sound_threadproc h hs
  | spurious =>
    obtain ⟨hm, rfl⟩ := guarded_inv hs
    obtain ⟨hmain, hthread, hcondition, hbefore, hasks, hwaiting, hbehind, hjoined⟩ := h
    constructor <;> simp_all [MainHolds, BeforeCreate, BehindLoop]

/-! ## The end -/

/-- How many steps of its own `main` has before it, with no spurious wakeup. -/
def mainRank (condition : ℤ) : MainPc → ℕ
  | .lock => 13
  | .printLocked => 12
  | .create => 11
  | .printCreated => 10
  | .test => if condition = 0 then 9 else 5
  | .wait => 8
  | .waiting => 7
  | .relock => if condition = 0 then 11 else 7
  | .printSignaled => if condition = 0 then 10 else 6
  | .unlock => 4
  | .printUnlocked => 3
  | .join => 2
  | .destroy => 1
  | .exited => 0

def threadRank : ThreadPc → ℕ
  | .absent | .lock => 7
  | .printLocked => 6
  | .set => 5
  | .signal => 4
  | .printSignal => 3
  | .unlock => 2
  | .printUnlocked => 1
  | .finished => 0

def rank (s : State) : ℕ := mainRank s.condition s.main + threadRank s.thread

/-- A spurious wakeup costs `main` five steps: it, `relock`, `printSignaled`, `test`, `wait`. -/
def weight : Act → ℕ
  | .spurious => 5
  | _ => 0

/-- The thread is there as soon as `main` has gone on. -/
structure Created (s : State) : Prop extends Sound s where
  there : s.thread = .absent → BeforeCreate s.main

theorem created_init : Created init := ⟨sound_init, fun _ => trivial⟩

theorem created_step (s : State) (a : Act) (s' : State) (h : Created s) (ha : a ≠ .createFails)
    (hs : step s a = some s') : Created s' := by
  refine ⟨sound_step s a s' h.toSound hs, ?_⟩
  have hthere := h.there
  cases a with
  | createFails => exact absurd rfl ha
  | main =>
    have hstep : mainStep s = some s' := hs
    unfold mainStep at hstep
    cases hm : s.main <;> rw [hm] at hstep hthere
    case lock =>
      obtain ⟨-, rfl⟩ := guarded_inv hstep
      exact fun _ => trivial
    case printLocked =>
      cases Option.some.inj hstep
      exact fun _ => trivial
    case create =>
      cases Option.some.inj hstep
      exact fun ht => by cases ht
    case relock | join =>
      obtain ⟨-, rfl⟩ := guarded_inv hstep
      exact fun ht => (hthere ht).elim
    case waiting | exited => cases hstep
    all_goals
      cases Option.some.inj hstep
      exact fun ht => (hthere ht).elim
  | thread =>
    have hstep : threadproc s = some s' := hs
    unfold threadproc at hstep
    cases ht : s.thread <;> rw [ht] at hstep
    case absent | finished => cases hstep
    case lock =>
      obtain ⟨-, rfl⟩ := guarded_inv hstep
      exact fun h => by cases h
    all_goals
      cases Option.some.inj hstep
      exact fun h => by cases h
  | spurious =>
    obtain ⟨hm, rfl⟩ := guarded_inv hs
    intro ht
    have hbefore := hthere ht
    rw [hm] at hbefore
    exact hbefore.elim

theorem rank_step (s : State) (a : Act) (s' : State) (h : Created s) (hs : step s a = some s') :
    rank s' + 1 ≤ rank s + weight a := by
  unfold rank
  cases a with
  | main =>
    have hstep : mainStep s = some s' := hs
    unfold mainStep at hstep
    cases hm : s.main <;> rw [hm] at hstep
    case create =>
      cases Option.some.inj hstep
      rw [h.before (by rw [hm]; trivial)]
      exact Nat.le_refl 18
    case printCreated | wait =>
      have hzero := h.condition.mpr (h.asks (by simp [hm]))
      cases Option.some.inj hstep
      simp only [mainRank, weight, if_pos hzero]
      omega
    case test =>
      cases Option.some.inj hstep
      by_cases hzero : s.condition = 0
      · simp only [mainRank, weight, if_pos hzero]
        omega
      · simp only [mainRank, weight, if_neg hzero]
        omega
    case relock =>
      obtain ⟨-, rfl⟩ := guarded_inv hstep
      by_cases hzero : s.condition = 0
      · simp only [mainRank, weight, if_pos hzero]
        omega
      · simp only [mainRank, weight, if_neg hzero]
        omega
    case printSignaled =>
      cases Option.some.inj hstep
      by_cases hzero : s.condition = 0
      · simp only [mainRank, weight, if_pos hzero]
        omega
      · simp only [mainRank, weight, if_neg hzero]
        omega
    case waiting | exited => cases hstep
    case lock | join =>
      obtain ⟨-, rfl⟩ := guarded_inv hstep
      simp only [mainRank, weight]
      omega
    all_goals
      cases Option.some.inj hstep
      simp only [mainRank, weight]
      omega
  | createFails =>
    obtain ⟨hm, rfl⟩ := guarded_inv hs
    simp only [mainRank, weight, hm]
    omega
  | thread =>
    have hinside := main_inside h.toSound
    have hstep : threadproc s = some s' := hs
    unfold threadproc at hstep
    cases ht : s.thread <;> rw [ht] at hstep hinside
    case absent | finished => cases hstep
    case lock =>
      obtain ⟨-, rfl⟩ := guarded_inv hstep
      simp only [threadRank, weight]
      omega
    case set =>
      cases Option.some.inj hstep
      have hzero := h.condition.mpr (by rw [ht]; trivial)
      obtain hm | hm := hinside trivial <;> rw [hm, hzero]
      · show 7 + 4 + 1 ≤ 7 + 5 + 0
        omega
      · show 7 + 4 + 1 ≤ 11 + 5 + 0
        omega
    case signal =>
      cases Option.some.inj hstep
      obtain hm | hm := hinside trivial
      · rw [hm, if_pos rfl]
        by_cases hzero : s.condition = 0
        · have hunset := h.condition.mp hzero
          rw [ht] at hunset
          exact hunset.elim
        · simp only [mainRank, threadRank, weight, if_neg hzero]
          omega
      · rw [hm, if_neg (by decide)]
        simp only [threadRank, weight]
        omega
    all_goals
      cases Option.some.inj hstep
      simp only [threadRank, weight]
      omega
  | spurious =>
    obtain ⟨hm, rfl⟩ := guarded_inv hs
    by_cases hzero : s.condition = 0
    · simp only [mainRank, weight, hm, if_pos hzero]
      omega
    · simp only [mainRank, weight, hm, if_neg hzero]
      omega

/-- Somebody has the mutex and can go on, or nobody has it. -/
theorem thread_moves {s : State} (h : Sound s) (hm : ¬ MainHolds s.main) (habsent : s.thread ≠ .absent)
    (hfinished : s.thread ≠ .finished) : ∃ s', step s .thread = some s' := by
  show ∃ s', threadproc s = some s'
  unfold threadproc
  cases ht : s.thread
  case absent => exact absurd ht habsent
  case finished => exact absurd ht hfinished
  case lock =>
    have hfree : s.lock = none := by
      cases hl : s.lock with
      | none => rfl
      | some p =>
        cases p with
        | main => exact absurd (h.main.mp hl) hm
        | thread =>
          have hholds := h.thread.mp hl
          rw [ht] at hholds
          exact hholds.elim
    exact ⟨_, if_pos hfree⟩
  all_goals exact ⟨_, rfl⟩

def Exited (s : State) : Prop := s.main = .exited

theorem progresses : Progresses step (· ≠ .createFails) Created Exited rank weight where
  keeps := created_step
  ranks := fun s a t h _ hs => rank_step s a t h hs
  moves := by
    intro s h hend
    have hthread : ¬ MainHolds s.main → ¬ BeforeCreate s.main → s.thread ≠ .finished →
        ∃ a t, a ≠ .createFails ∧ weight a = 0 ∧ step s a = some t := by
      intro hm hb hf
      obtain ⟨t, ht⟩ := thread_moves h.toSound hm (fun ha => hb (h.there ha)) hf
      exact ⟨.thread, t, by decide, rfl, ht⟩
    have hmain : (∃ t, mainStep s = some t) →
        ∃ a t, a ≠ .createFails ∧ weight a = 0 ∧ step s a = some t :=
      fun ⟨t, ht⟩ => ⟨.main, t, by decide, rfl, ht⟩
    have hfree : ¬ MainHolds s.main → ¬ ThreadHolds s.thread → s.lock = none := by
      intro hm ht
      cases hl : s.lock with
      | none => rfl
      | some p =>
        cases p with
        | main => exact absurd (h.main.mp hl) hm
        | thread => exact absurd (h.thread.mp hl) ht
    cases hm : s.main
    case lock =>
      have habsent := h.before (by rw [hm]; trivial)
      have hnone := hfree (by rw [hm]; exact id) (by rw [habsent]; exact id)
      exact hmain ⟨_, by rw [mainStep, hm]; exact if_pos hnone⟩
    case waiting =>
      -- no wakeup is lost: the thread has still to signal
      have hunsignalled := h.waiting hm
      exact hthread (by rw [hm]; exact id) (by rw [hm]; exact id)
        (fun hf => by rw [hf] at hunsignalled; exact hunsignalled)
    case relock =>
      by_cases ht : ThreadHolds s.thread
      · exact hthread (by rw [hm]; exact id) (by rw [hm]; exact id)
          (fun hf => by rw [hf] at ht; exact ht)
      · have hnone := hfree (by rw [hm]; exact id) ht
        exact hmain ⟨_, by rw [mainStep, hm]; exact if_pos hnone⟩
    case join =>
      by_cases hf : s.thread = .finished
      · exact hmain ⟨_, by rw [mainStep, hm]; exact if_pos hf⟩
      · exact hthread (by rw [hm]; exact id) (by rw [hm]; exact id) hf
    case exited => exact absurd hm hend
    all_goals exact hmain ⟨_, by rw [mainStep, hm]⟩

theorem tally_weight (as : List Act) : tally weight as = 5 * as.count .spurious := by
  induction as with
  | nil => rfl
  | cons a as ih =>
    rw [tally_cons, ih, List.count_cons]
    cases a <;> simp [weight]
    omega

/-- Without the thread nobody sets the flag. -/
def Alone (s : State) : Prop := s.thread = .absent ∧ ¬ BeforeCreate s.main

theorem alone_step (s : State) (a : Act) (s' : State) (h : Sound s ∧ Alone s)
    (hs : step s a = some s') : Sound s' ∧ Alone s' := by
  obtain ⟨hsound, habsent, hbefore⟩ := h
  refine ⟨sound_step s a s' hsound hs, ?_⟩
  cases a with
  | createFails =>
    obtain ⟨hm, -⟩ := guarded_inv hs
    exact absurd (by rw [hm]; trivial) hbefore
  | thread =>
    have hstep : threadproc s = some s' := hs
    rw [threadproc, habsent] at hstep
    cases hstep
  | spurious =>
    obtain ⟨-, rfl⟩ := guarded_inv hs
    exact ⟨habsent, id⟩
  | main =>
    have hzero := hsound.condition.mpr (by rw [habsent]; trivial)
    have hstep : mainStep s = some s' := hs
    unfold mainStep at hstep
    cases hm : s.main <;> rw [hm] at hstep hbefore
    case lock | printLocked | create => exact absurd trivial hbefore
    case test =>
      cases Option.some.inj hstep
      refine ⟨habsent, ?_⟩
      simp [hzero, BeforeCreate]
    case waiting | exited => cases hstep
    case relock | join =>
      obtain ⟨-, rfl⟩ := guarded_inv hstep
      exact ⟨habsent, id⟩
    all_goals
      cases Option.some.inj hstep
      exact ⟨habsent, id⟩

theorem alone_of_fails {as : List Act} {s : State} (h : exec step init as = some s)
    (hfails : .createFails ∈ as) : Sound s ∧ Alone s := by
  obtain ⟨pre, post, rfl⟩ := List.append_of_mem hfails
  rw [exec_append] at h
  obtain ⟨u, hpre, hpost⟩ := Option.bind_eq_some_iff.mp h
  have hu : Sound u := exec_invariant Sound sound_step hpre sound_init
  obtain ⟨v, hv, hpost⟩ := exec_cons_inv hpost
  have halone : Sound v ∧ Alone v := by
    refine ⟨sound_step u _ v hu hv, ?_⟩
    obtain ⟨hm, rfl⟩ := guarded_inv hv
    exact ⟨hu.before (by rw [hm]; trivial), id⟩
  exact exec_invariant (fun s => Sound s ∧ Alone s) alone_step hpost halone

/-- **No wakeup is lost.** With its thread the program always comes to its end, in steps that only
spurious wakeups can make more than 20; without it `main` never leaves its loop. -/
theorem always_ends (as : List Act) (s : State) (h : exec step init as = some s) :
    (.createFails ∉ as →
      as.length ≤ 20 + 5 * as.count .spurious ∧
        (step s .main = none → step s .thread = none → Exited s) ∧
        ∃ bs t, (∀ b ∈ bs, b = .main ∨ b = .thread) ∧ exec step s bs = some t ∧ Exited t) ∧
      (.createFails ∈ as → ¬ BehindLoop s.main) := by
  constructor
  · intro hcreate
    have has : ∀ a ∈ as, a ≠ .createFails := fun a ha he => hcreate (he ▸ ha)
    have hlength := progresses.length_le h has created_init
    have hs := progresses.run h has created_init
    rw [tally_weight] at hlength
    have hrank : rank init = 20 := rfl
    refine ⟨by omega, ?_, ?_⟩
    · intro hmain hthread
      apply progresses.final_of_stuck hs
      intro a ha hw
      cases a with
      | main => exact hmain
      | createFails => exact absurd rfl ha
      | thread => exact hthread
      | spurious => cases hw
    · obtain ⟨bs, t, hbs, hrun, ht⟩ := progresses.reaches_final hs
      refine ⟨bs, t, fun b hb => ?_, hrun, ht⟩
      obtain ⟨hb, hw⟩ := hbs b hb
      cases b with
      | main => exact Or.inl rfl
      | createFails => exact absurd rfl hb
      | thread => exact Or.inr rfl
      | spurious => cases hw
  · intro hfails hbehind
    obtain ⟨hsound, halone⟩ := alone_of_fails h hfails
    have hreleased := hsound.behind hbehind
    rw [halone.1] at hreleased
    exact hreleased

theorem always_ends_again :
    ∃ bs t, (∀ b ∈ bs, b = Act.main ∨ b = .thread) ∧
      exec step ⟨.waiting, .lock, none, 0, [.mainLocked, .mainCreated, .mainSignaled]⟩ bs = some t ∧
      Exited t :=
  ((always_ends ([.main, .main, .main, .main, .main, .main] ++ [.spurious, .main, .main, .main, .main])
    ⟨.waiting, .lock, none, 0, [.mainLocked, .mainCreated, .mainSignaled]⟩ rfl).1 (by decide)).2.2

/-! ## The output -/

/-- What `main` has printed before the flag, with `k` wakeups that came too early. -/
def opening (k : ℕ) : MainPc → List Line
  | .lock | .printLocked => []
  | .create | .printCreated => [.mainLocked]
  | _ => [.mainLocked, .mainCreated] ++ List.replicate k .mainSignaled

def inSection : ThreadPc → List Line
  | .absent | .lock | .printLocked => []
  | .set | .signal | .printSignal => [.threadLocked]
  | .unlock | .printUnlocked | .finished => [.threadLocked, .threadSignal]

def behindSection : ThreadPc → List Line
  | .finished => [.threadUnlocked]
  | _ => []

/-- What `main` has printed after the thread gave the mutex back. -/
def answered (thread : ThreadPc) (main : MainPc) : List Line :=
  match thread with
  | .printUnlocked | .finished =>
    match main with
    | .test | .unlock | .printUnlocked => [.mainSignaled]
    | .join | .destroy | .exited => [.mainSignaled, .mainUnlocked]
    | _ => []
  | _ => []

/-- A wakeup that came too early and is not printed yet. -/
def early (thread : ThreadPc) (main : MainPc) : ℕ :=
  match thread with
  | .absent | .lock | .printLocked | .set | .signal =>
    match main with
    | .relock | .printSignaled => 1
    | _ => 0
  | _ => 0

/-- The output so far, when `n` wakeups were spurious. -/
def Printed (n : ℕ) (s : State) : Prop :=
  ∃ k r, k + early s.thread s.main ≤ n ∧
    s.out = opening k s.main ++ inSection s.thread ++ r ∧
    Merged (answered s.thread s.main) (behindSection s.thread) r

theorem printed_init : Printed 0 init := ⟨0, [], Nat.le_refl 0, rfl, .nil⟩

/-- A step that prints nothing and moves nobody past a line. -/
theorem printed_quiet {n m : ℕ} {s s' : State} (h : Printed n s) (hout : s'.out = s.out)
    (hopening : ∀ k, opening k s'.main = opening k s.main)
    (hsection : inSection s'.thread = inSection s.thread)
    (hanswered : answered s'.thread s'.main = answered s.thread s.main)
    (hbehind : behindSection s'.thread = behindSection s.thread)
    (hearly : n + early s'.thread s'.main ≤ m + early s.thread s.main) : Printed m s' := by
  obtain ⟨k, r, hk, ho, hr⟩ := h
  refine ⟨k, r, by omega, ?_, ?_⟩
  · rw [hout, ho, hopening, hsection]
  · rw [hanswered, hbehind]
    exact hr

theorem merged_nil_nil {α : Type} {r : List α} (h : Merged [] [] r) : r = [] := by
  cases h
  rfl

theorem untouched {t : ThreadPc} (ht : ¬ ThreadHolds t) (hr : ¬ Released t) : t = .absent ∨ t = .lock := by
  cases t <;> simp_all [ThreadHolds, Released]

theorem released_eq {t : ThreadPc} (h : Released t) : t = .printUnlocked ∨ t = .finished := by
  cases t <;> simp_all [Released]

theorem printed_mainStep {n : ℕ} {s s' : State} (hs : Sound s) (h : Printed n s)
    (hstep : mainStep s = some s') : Printed n s' := by
  have hboth := not_both hs
  unfold mainStep at hstep
  cases hm : s.main <;> rw [hm] at hstep hboth
  case lock =>
    obtain ⟨-, rfl⟩ := guarded_inv hstep
    have habsent := hs.before (by rw [hm]; trivial)
    apply printed_quiet h <;> simp [hm, habsent, opening, answered, early]
  case printLocked =>
    cases Option.some.inj hstep
    have habsent := hs.before (by rw [hm]; trivial)
    obtain ⟨k, r, hk, ho, hr⟩ := h
    rw [hm, habsent] at hk ho hr
    cases merged_nil_nil hr
    exact ⟨k, [], by rw [habsent]; exact hk, by rw [ho, habsent]; rfl, by rw [habsent]; exact .nil⟩
  case create =>
    cases Option.some.inj hstep
    have habsent := hs.before (by rw [hm]; trivial)
    apply printed_quiet h <;> simp [hm, habsent, opening, answered, early, inSection, behindSection]
  case printCreated =>
    cases Option.some.inj hstep
    have hunset := hs.asks (Or.inl hm)
    have hout : ¬ Released s.thread := by
      intro hr
      cases ht : s.thread <;> rw [ht] at hunset hr <;> first | exact hunset | exact hr
    obtain ⟨k, r, hk, ho, hr⟩ := h
    obtain ht | ht := untouched (hboth trivial) hout <;> rw [hm, ht] at hk ho hr <;>
      cases merged_nil_nil hr <;>
      exact ⟨0, [], by rw [ht]; exact Nat.zero_le n, by rw [ho, ht]; rfl, by rw [ht]; exact .nil⟩
  case test =>
    cases Option.some.inj hstep
    by_cases hzero : s.condition = 0
    · have hunset := hs.condition.mp hzero
      apply printed_quiet h <;> cases ht : s.thread <;> rw [ht] at hunset <;>
        first | exact hunset.elim | simp [hm, hzero, opening, answered, early]
    · apply printed_quiet h <;> cases ht : s.thread <;> simp [hm, hzero, opening, answered, early]
  case waiting | exited => cases hstep
  case relock | join =>
    obtain ⟨-, rfl⟩ := guarded_inv hstep
    apply printed_quiet h <;> cases ht : s.thread <;> simp [hm, opening, answered, early]
  case wait =>
    cases Option.some.inj hstep
    have hunset := hs.asks (Or.inr hm)
    apply printed_quiet h <;> cases ht : s.thread <;> rw [ht] at hunset <;>
      first | exact hunset.elim | simp [hm, opening, answered, early]
  case printSignaled =>
    cases Option.some.inj hstep
    obtain ⟨k, r, hk, ho, hr⟩ := h
    by_cases hreleased : Released s.thread
    · -- the wakeup after which `main` finds the flag set
      obtain ht | ht := released_eq hreleased <;> rw [hm, ht] at hk ho hr <;>
        exact ⟨k, r ++ [.mainSignaled], by rw [ht]; exact hk, by rw [ho, ht, List.append_assoc]; rfl,
          by rw [ht]; exact hr.snoc_left .mainSignaled⟩
    · have hmore : [Line.mainLocked, .mainCreated] ++ List.replicate k .mainSignaled ++ [] ++ [] ++
          [.mainSignaled] =
          [Line.mainLocked, .mainCreated] ++ List.replicate (k + 1) .mainSignaled ++ [] ++ [] := by
        rw [List.replicate_succ', List.append_nil, List.append_nil, List.append_nil, List.append_nil,
          List.append_assoc]
      obtain ht | ht := untouched (hboth trivial) hreleased <;> rw [hm, ht] at hk ho hr <;>
        cases merged_nil_nil hr <;>
        exact ⟨k + 1, [], by rw [ht]; exact hk, by rw [ho, ht]; exact hmore, by rw [ht]; exact .nil⟩
  case unlock | destroy =>
    cases Option.some.inj hstep
    apply printed_quiet h <;> cases ht : s.thread <;> simp [hm, opening, answered, early]
  case printUnlocked =>
    cases Option.some.inj hstep
    obtain ⟨k, r, hk, ho, hr⟩ := h
    obtain ht | ht := released_eq (hs.behind (by rw [hm]; trivial)) <;> rw [hm, ht] at hk ho hr <;>
      exact ⟨k, r ++ [.mainUnlocked], by rw [ht]; exact hk, by rw [ho, ht, List.append_assoc]; rfl,
        by rw [ht]; exact hr.snoc_left .mainUnlocked⟩

theorem printed_threadproc {n : ℕ} {s s' : State} (hs : Sound s) (h : Printed n s)
    (hstep : threadproc s = some s') : Printed n s' := by
  have hinside := main_inside hs
  unfold threadproc at hstep
  cases ht : s.thread <;> rw [ht] at hstep hinside
  case absent | finished => cases hstep
  case lock =>
    obtain ⟨-, rfl⟩ := guarded_inv hstep
    apply printed_quiet h <;> simp [ht, inSection, answered, behindSection, early]
  case printLocked =>
    cases Option.some.inj hstep
    obtain ⟨k, r, hk, ho, hr⟩ := h
    rw [ht] at hk ho hr
    cases merged_nil_nil hr
    exact ⟨k, [], hk, by rw [ho]; simp [inSection], .nil⟩
  case set =>
    cases Option.some.inj hstep
    apply printed_quiet h <;> simp [ht, inSection, answered, behindSection, early]
  case signal =>
    cases Option.some.inj hstep
    obtain hm | hm := hinside trivial <;> apply printed_quiet h <;>
      simp [ht, hm, opening, inSection, answered, behindSection, early]
  case printSignal =>
    cases Option.some.inj hstep
    obtain ⟨k, r, hk, ho, hr⟩ := h
    rw [ht] at hk ho hr
    cases merged_nil_nil hr
    exact ⟨k, [], hk, by rw [ho]; simp [inSection], .nil⟩
  case unlock =>
    cases Option.some.inj hstep
    obtain hm | hm := hinside trivial <;> apply printed_quiet h <;>
      simp [ht, hm, inSection, answered, behindSection, early]
  case printUnlocked =>
    cases Option.some.inj hstep
    obtain ⟨k, r, hk, ho, hr⟩ := h
    have hsame : answered .printUnlocked s.main = answered .finished s.main := by
      cases s.main <;> rfl
    rw [ht] at hk ho hr
    rw [hsame] at hr
    have hsnoc : Merged (answered .finished s.main) [.threadUnlocked] (r ++ [.threadUnlocked]) :=
      hr.snoc_right .threadUnlocked
    exact ⟨k, r ++ [Line.threadUnlocked], hk, by rw [ho, List.append_assoc]; rfl, hsnoc⟩

theorem printed_step {n : ℕ} {s s' : State} {a : Act} (hs : Sound s) (h : Printed n s)
    (hstep : step s a = some s') : Printed (n + [a].count .spurious) s' := by
  cases a with
  | main => exact printed_mainStep hs h hstep
  | createFails =>
    obtain ⟨hm, rfl⟩ := guarded_inv hstep
    have habsent := hs.before (by rw [hm]; trivial)
    apply printed_quiet h <;> simp [hm, habsent, opening, answered, early]
  | thread => exact printed_threadproc hs h hstep
  | spurious =>
    obtain ⟨hm, rfl⟩ := guarded_inv hstep
    apply printed_quiet h <;> cases ht : s.thread <;> simp [hm, opening, answered, early]

theorem printed_run {n : ℕ} {s s' : State} {as : List Act} (hs : Sound s) (h : Printed n s)
    (hrun : exec step s as = some s') : Printed (n + as.count .spurious) s' := by
  induction as generalizing n s with
  | nil =>
    cases Option.some.inj hrun
    exact h
  | cons a as ih =>
    obtain ⟨t, ht, hrun⟩ := exec_cons_inv hrun
    have hrest := ih (sound_step s a t hs ht) (printed_step hs h ht) hrun
    show Printed (n + ([a] ++ as).count .spurious) s'
    rw [List.count_append, ← Nat.add_assoc]
    exact hrest

/-! ## Every output -/

/-- From the first lock to the first wait. -/
def opens : List Act := List.replicate 6 .main

/-- One wakeup that comes too early. -/
def again : List Act := [.spurious, .main, .main, .main, .main]

/-- The thread, up to the end of its critical section. -/
def signals : List Act := List.replicate 6 .thread

/-- `main` waits, with `o` printed so far. -/
def atWait (o : List Line) : State := ⟨.waiting, .lock, none, 0, o⟩

theorem exec_opens : exec step init opens = some (atWait [.mainLocked, .mainCreated]) := rfl

theorem exec_again (o : List Line) : exec step (atWait o) again = some (atWait (o ++ [.mainSignaled])) :=
  rfl

theorem exec_agains (k : ℕ) (o : List Line) :
    exec step (atWait o) (List.replicate k again).flatten =
      some (atWait (o ++ List.replicate k .mainSignaled)) := by
  induction k generalizing o with
  | zero =>
    rw [List.replicate_zero, List.replicate_zero, List.append_nil]
    rfl
  | succ k ih =>
    rw [List.replicate_succ, List.flatten_cons, exec_append, exec_again, Option.bind_some, ih,
      List.replicate_succ, List.append_assoc]
    rfl

theorem count_agains (k : ℕ) : (List.replicate k again).flatten.count .spurious = k := by
  induction k with
  | zero => rfl
  | succ k ih =>
    rw [List.replicate_succ, List.flatten_cons, List.count_append, ih, Nat.add_comm]
    rfl

def ended (o : List Line) : State := ⟨.exited, .finished, none, 1, o⟩

/-- The thread's last line comes before, between or behind the two of `main`. -/
theorem exec_ending (o r : List Line)
    (hr : r ∈ merges [Line.mainSignaled, .mainUnlocked] [Line.threadUnlocked]) :
    ∃ as, exec step (atWait o) as = some (ended (o ++ [Line.threadLocked, .threadSignal] ++ r)) ∧
      as.count .spurious = 0 := by
  have hcases : r = [.mainSignaled, .mainUnlocked, .threadUnlocked] ∨
      r = [.mainSignaled, .threadUnlocked, .mainUnlocked] ∨
      r = [.threadUnlocked, .mainSignaled, .mainUnlocked] := by
    simpa [merges] using hr
  have hone : ∀ x y z : Line, o ++ [Line.threadLocked, .threadSignal] ++ [x, y, z] =
      o ++ [.threadLocked] ++ [.threadSignal] ++ [x] ++ [y] ++ [z] := by
    intro x y z
    simp
  obtain rfl | rfl | rfl := hcases <;> rw [hone]
  · exact ⟨signals ++ List.replicate 5 .main ++ [.thread, .main, .main], rfl, rfl⟩
  · exact ⟨signals ++ List.replicate 2 .main ++ [.thread] ++ List.replicate 5 .main, rfl, rfl⟩
  · exact ⟨signals ++ [.thread] ++ List.replicate 7 .main, rfl, rfl⟩

/-- The output with `k` wakeups that came too early, and `r` behind the signal. -/
def output (k : ℕ) (r : List Line) : List Line :=
  [Line.mainLocked, .mainCreated] ++ List.replicate k .mainSignaled ++
    [Line.threadLocked, .threadSignal] ++ r

/-- **The outputs of the program.** With at most `n` spurious wakeups, a run that ends prints one
"signaled" for each of the `k ≤ n` that came too early, and the last line of the thread anywhere
behind its "signal". -/
theorem output_iff (n : ℕ) (o : List String) :
    (∃ as s, exec step init as = some s ∧ Exited s ∧ as.count .spurious ≤ n ∧
      s.out.map Line.text = o) ↔
      ∃ k ≤ n, ∃ r ∈ merges [Line.mainSignaled, .mainUnlocked] [Line.threadUnlocked],
        o = (output k r).map Line.text := by
  constructor
  · rintro ⟨as, s, h, hend, hn, rfl⟩
    have hsound : Sound s := exec_invariant Sound sound_step h sound_init
    obtain ⟨k, r, hk, ho, hr⟩ := printed_run sound_init printed_init h
    rw [show s.main = .exited from hend, hsound.joined (Or.inr hend)] at hk ho hr
    refine ⟨k, ?_, r, mem_of_merged hr, congrArg _ ho⟩
    have hk' : k ≤ 0 + as.count .spurious := hk
    omega
  · rintro ⟨k, hk, r, hr, rfl⟩
    obtain ⟨bs, hrun, hcount⟩ :=
      exec_ending ([.mainLocked, .mainCreated] ++ List.replicate k .mainSignaled) r hr
    refine ⟨opens ++ ((List.replicate k again).flatten ++ bs), ended (output k r), ?_, rfl, ?_, rfl⟩
    · rw [exec_append, exec_opens, Option.bind_some, exec_append, exec_agains, Option.bind_some, hrun]
      rfl
    · have hopens : opens.count .spurious = 0 := rfl
      rw [List.count_append, List.count_append, count_agains, hcount, hopens]
      omega

/-- The run of the comment in the source. -/
example : (exec step init
    (opens ++ (signals ++ List.replicate 5 .main ++ [.thread, .main, .main]))).map
      (fun s => s.out.map Line.text) =
    some ["main > locked\n", "main > created\n", "thread > locked\n", "thread > signal\n",
      "main > signaled\n", "main > unlocked\n", "thread > unlocked\n"] := rfl

end LinuxAppSamp.Threads.Handshake
