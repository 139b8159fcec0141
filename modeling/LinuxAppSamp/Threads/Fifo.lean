import LinuxAppSamp.Foundations.Steps
import LinuxAppSamp.Foundations.Tally

/-! # Handing each thread its index: `posix_thread_4fifo.c`

`main` passes `&loop` to every thread it creates and waits on `s_c1` before it changes `loop`. The
wait stands in no loop, so `main` goes on after any wakeup. `own_index` says when each thread still
reads its own index: when `main` wakes only after the newest thread has read, as it does unless a
wakeup is spurious.
-/

namespace LinuxAppSamp.Threads
open Execution
set_option autoImplicit false
set_option maxHeartbeats 250000

/-! ## The system -/

def kNumThread : ℕ := 3

/-- The four `for` loops of `main`, which all count in `loop`. -/
inductive For
  | create | join | report | free
  deriving DecidableEq, Repr

/-- Where `main` is. `wait` is its call of `pthread_cond_wait`, `waiting` inside it with `s_m1`
released, `relock` awake and without `s_m1`. -/
inductive MainPc
  | lock2 | lock1
  | init (f : For) | test (f : For) | body (f : For) | incr (f : For)
  | wait | waiting | relock
  | unlock1 | unlock2
  | exited
  deriving DecidableEq, Repr

inductive ThreadPc
  | read | lock1 | signal | unlock1 | lock2 | unlock2 | count | finished
  deriving DecidableEq, Repr

structure FifoThread where
  pc : ThreadPc
  index : Option ℕ
  deriving DecidableEq, Repr

def newThread : FifoThread := ⟨.read, none⟩

inductive Owner
  | main
  | thread (i : ℕ)
  deriving DecidableEq, Repr

structure FifoState where
  main : MainPc
  loop : ℕ
  m1 : Option Owner
  m2 : Option Owner
  threads : List FifoThread
  deriving DecidableEq, Repr

/-- `spurious` is a return of `pthread_cond_wait` that no signal has caused. -/
inductive FifoAct
  | main
  | createFails
  | thread (i : ℕ)
  | spurious
  deriving DecidableEq, Repr

/-- `loop` has no value at first. -/
def fifoInit (loop : ℕ) : FifoState := ⟨.lock2, loop, none, none, []⟩

/-- Where `main` goes on behind a `for` loop. -/
def behind : For → MainPc
  | .create => .unlock1
  | .join => .init .report
  | .report => .init .free
  | .free => .exited

def mainStep (N : ℕ) (s : FifoState) : Option FifoState :=
  match s.main with
  | .lock2 => if s.m2 = none then some { s with main := .lock1, m2 := some .main } else none
  | .lock1 => if s.m1 = none then some { s with main := .init .create, m1 := some .main } else none
  | .init f => some { s with main := .test f, loop := 0 }
  | .test f => some { s with main := if s.loop < N then .body f else behind f }
  | .body .create => some { s with main := .wait, threads := s.threads ++ [newThread] }
  | .body .join =>
    if s.threads[s.loop]?.map FifoThread.pc = some .finished then some { s with main := .incr .join }
    else none
  | .body .report => some { s with main := .incr .report }
  | .body .free => some { s with main := .incr .free }
  | .incr f => some { s with main := .test f, loop := s.loop + 1 }
  | .wait => some { s with main := .waiting, m1 := none }
  | .waiting => none
  | .relock => if s.m1 = none then some { s with main := .incr .create, m1 := some .main } else none
  | .unlock1 => some { s with main := .unlock2, m1 := none }
  | .unlock2 => some { s with main := .init .join, m2 := none }
  | .exited => none

def threadStep (s : FifoState) (i : ℕ) (t : FifoThread) : Option FifoState :=
  let go (s : FifoState) (pc : ThreadPc) := some { s with threads := s.threads.set i { t with pc := pc } }
  match t.pc with
  | .read => some { s with threads := s.threads.set i ⟨.lock1, some s.loop⟩ }
  | .lock1 => if s.m1 = none then go { s with m1 := some (.thread i) } .signal else none
  | .signal => go { s with main := if s.main = .waiting then .relock else s.main } .unlock1
  | .unlock1 => go { s with m1 := none } .lock2
  | .lock2 => if s.m2 = none then go { s with m2 := some (.thread i) } .unlock2 else none
  | .unlock2 => go { s with m2 := none } .count
  | .count => go s .finished
  | .finished => none

/-- `createFails` is the `return 1` of `main`, which ends the process. -/
def fifoStep (N : ℕ) (s : FifoState) : FifoAct → Option FifoState
  | .main => mainStep N s
  | .createFails =>
    if s.main = .body .create then some { s with main := .exited } else none
  | .thread i => if s.main = .exited then none else (s.threads[i]?).bind (threadStep s i)
  | .spurious => if s.main = .waiting then some { s with main := .relock } else none

/-! ## What a step of a thread can do -/

/-- The thread has signalled. -/
def past (pc : ThreadPc) : Prop := pc ≠ .read ∧ pc ≠ .lock1 ∧ pc ≠ .signal

/-- `s'` is `s` after a step of thread `i`, which was `t` and is `t'` now. -/
structure ThreadMoved (s s' : FifoState) (i : ℕ) (t t' : FifoThread) : Prop where
  before : s.threads[i]? = some t
  threads : s'.threads = s.threads.set i t'
  loop : s'.loop = s.loop
  main : s'.main = if t.pc = .signal ∧ s.main = .waiting then .relock else s.main
  read : t.pc = .read → t' = ⟨.lock1, some s.loop⟩
  index : t.pc ≠ .read → t'.index = t.index ∧ t'.pc ≠ .read
  m1 : s'.m1 = s.m1 ∨ s'.m1 = none ∨ s'.m1 = some (.thread i) ∧ t'.pc = .signal
  signal : t.pc = .signal → t'.pc = .unlock1
  unlock1 : t.pc = .unlock1 → s'.m1 = none
  past : past t.pc → past t'.pc

theorem threadMoved_of_step {N i : ℕ} {s s' : FifoState}
    (h : fifoStep N s (.thread i) = some s') : ∃ t t', ThreadMoved s s' i t t' := by
  by_cases hx : s.main = .exited
  · cases (if_pos hx).symm.trans h
  · have hbind := (if_neg hx).symm.trans h
    obtain ⟨t, ht, hstep⟩ := Option.bind_eq_some_iff.mp hbind
    unfold threadStep at hstep
    cases hpc : t.pc <;> rw [hpc] at hstep
    case lock1 =>
      obtain ⟨-, rfl⟩ := guarded_inv hstep
      exact ⟨t, _, ht, rfl, rfl, by simp [hpc], by simp [hpc], by simp, by simp, by simp [hpc],
        by simp [hpc], by simp [past, hpc]⟩
    case lock2 =>
      obtain ⟨-, rfl⟩ := guarded_inv hstep
      exact ⟨t, _, ht, rfl, rfl, by simp [hpc], by simp [hpc], by simp, by simp, by simp [hpc],
        by simp [hpc], by simp [past, hpc]⟩
    case finished => cases hstep
    all_goals
      cases Option.some.inj hstep
      exact ⟨t, _, ht, rfl, rfl, by simp [hpc], by simp [hpc], by simp [hpc], by simp,
        by simp [hpc], by simp [hpc], by simp [past, hpc]⟩

/-! ## What a step of `main` can do -/

/-- How `loop` and the number of threads go together. -/
def Counted (N : ℕ) (main : MainPc) (loop n : ℕ) : Prop :=
  match main with
  | .lock2 | .lock1 | .init .create => n = 0
  | .test .create => loop = n ∧ loop ≤ N
  | .body .create => loop = n ∧ loop < N
  | .wait | .waiting | .relock | .incr .create => loop + 1 = n ∧ loop < N
  | _ => n ≤ N

/-- Where `main` can have `s_m1`; `return 1` does not unlock it. -/
def HoldsM1 : MainPc → Prop
  | .init .create | .test .create | .body .create | .incr .create | .wait | .unlock1 => True
  | .exited => True
  | _ => False

/-- `s'` is `s` after a step of `main` that creates no thread. -/
structure MainMoved (N : ℕ) (s s' : FifoState) : Prop where
  threads : s'.threads = s.threads
  awake : s.main ≠ .waiting ∧ (s.main = .wait → s'.main = .waiting)
  counted : ∀ n, Counted N s.main s.loop n → Counted N s'.main s'.loop n
  m1 : (s.m1 = some .main → HoldsM1 s.main) → s'.m1 = some .main → HoldsM1 s'.main
  m1_thread : ∀ j, s'.m1 = some (.thread j) → s.m1 = some (.thread j)

theorem mainMoved_of_step {N : ℕ} {s s' : FifoState} (h : mainStep N s = some s')
    (hbody : s.main ≠ .body .create) : MainMoved N s s' := by
  unfold mainStep at h
  cases hm : s.main <;> rw [hm] at h
  case lock2 =>
    obtain ⟨-, rfl⟩ := guarded_inv h
    constructor <;> simp [hm, Counted, HoldsM1]
  case lock1 =>
    obtain ⟨-, rfl⟩ := guarded_inv h
    constructor <;> simp [hm, Counted, HoldsM1]
  case init f =>
    cases Option.some.inj h
    cases f <;> constructor <;> simp [hm, Counted, HoldsM1]
  case test f =>
    cases Option.some.inj h
    by_cases hlt : s.loop < N
    · cases f <;> constructor <;> simp [hm, hlt, Counted, HoldsM1]
    · cases f <;> constructor <;> simp [hm, hlt, behind, Counted, HoldsM1]
  case body f =>
    cases f with
    | create => exact absurd hm hbody
    | join =>
      obtain ⟨-, rfl⟩ := guarded_inv h
      constructor <;> simp [hm, Counted, HoldsM1]
    | report =>
      cases Option.some.inj h
      constructor <;> simp [hm, Counted, HoldsM1]
    | free =>
      cases Option.some.inj h
      constructor <;> simp [hm, Counted, HoldsM1]
  case incr f =>
    cases Option.some.inj h
    cases f with
    | create =>
      have hcounted : ∀ n, Counted N s.main s.loop n → Counted N (.test .create) (s.loop + 1) n := by
        rw [hm]
        exact fun n hn => hn
      exact ⟨rfl, by simp [hm], hcounted, by simp [hm, HoldsM1], by simp⟩
    | join | report | free => constructor <;> simp [hm, Counted, HoldsM1]
  case waiting => cases h
  case relock =>
    obtain ⟨-, rfl⟩ := guarded_inv h
    constructor <;> simp [hm, Counted, HoldsM1]
  case exited => cases h
  all_goals
    cases Option.some.inj h
    constructor <;> simp [hm, Counted, HoldsM1]

/-! ## The indices -/

/-- Each thread that has read `loop` has read the number of its creation. -/
def OwnIndices (N : ℕ) (s : FifoState) : Prop :=
  ∀ (i : ℕ) (t : FifoThread) (k : ℕ), s.threads[i]? = some t → t.index = some k → k = i ∧ k < N

def NewestRead (s : FifoState) : Prop :=
  ∀ t, s.threads[s.threads.length - 1]? = some t → t.pc ≠ .read

/-- The action makes a waiting `main` wake up. -/
def wakes (s : FifoState) : FifoAct → Prop
  | .thread i => ∃ t, s.threads[i]? = some t ∧ t.pc = .signal
  | .spurious => True
  | _ => False

/-- `main` wakes up only when the newest thread has read its index. -/
def Careful (s : FifoState) (a : FifoAct) : Prop := s.main = .waiting → wakes s a → NewestRead s

instance (s : FifoState) : Decidable (NewestRead s) :=
  inferInstanceAs (Decidable (∀ t ∈ s.threads[s.threads.length - 1]?, t.pc ≠ .read))

instance (s : FifoState) (a : FifoAct) : Decidable (wakes s a) :=
  match a with
  | .thread i => inferInstanceAs (Decidable (∃ t ∈ s.threads[i]?, t.pc = .signal))
  | .spurious => isTrue trivial
  | .main => isFalse id
  | .createFails => isFalse id

instance (s : FifoState) (a : FifoAct) : Decidable (Careful s a) :=
  inferInstanceAs (Decidable (_ → _ → _))

/-- Only the newest thread can still have to read, and only while `main` waits for it. -/
structure Indexed (N : ℕ) (s : FifoState) : Prop where
  counted : Counted N s.main s.loop s.threads.length
  own : ∀ (i : ℕ) (t : FifoThread) (k : ℕ), s.threads[i]? = some t → t.index = some k → k = i
  unread : ∀ (i : ℕ) (t : FifoThread), s.threads[i]? = some t → t.pc = .read →
    i + 1 = s.threads.length ∧ (s.main = .wait ∨ s.main = .waiting)

theorem indexed_init (N loop : ℕ) : Indexed N (fifoInit loop) where
  counted := rfl
  own := fun i t k ht => by cases ht
  unread := fun i t ht => by cases ht

theorem counted_le (N : ℕ) (main : MainPc) (loop n : ℕ) (h : Counted N main loop n) : n ≤ N := by
  unfold Counted at h
  split at h <;> omega

/-- The threads stay as they are, and `main` does not wake too early. -/
theorem indexed_same {N : ℕ} {s s' : FifoState} (h : Indexed N s)
    (hthreads : s'.threads = s.threads) (hcounted : Counted N s'.main s'.loop s.threads.length)
    (hmain : s.main = .wait ∨ s.main = .waiting → s'.main = .waiting ∨ NewestRead s) :
    Indexed N s' := by
  refine ⟨by rw [hthreads]; exact hcounted, by rw [hthreads]; exact h.own, ?_⟩
  intro i t ht hpc
  rw [hthreads] at ht ⊢
  obtain ⟨hi, hwait⟩ := h.unread i t ht hpc
  refine ⟨hi, Or.inr ?_⟩
  obtain hw | hread := hmain hwait
  · exact hw
  · have hlast : i = s.threads.length - 1 := by omega
    rw [hlast] at ht
    exact absurd hpc (hread t ht)

theorem indexed_create {N : ℕ} {s : FifoState} (h : Indexed N s) (hm : s.main = .body .create) :
    Indexed N { s with main := .wait, threads := s.threads ++ [newThread] } := by
  have hcounted := h.counted
  rw [hm] at hcounted
  have hlen : (s.threads ++ [newThread]).length = s.threads.length + 1 := List.length_append
  refine ⟨?_, ?_, ?_⟩
  · show s.loop + 1 = (s.threads ++ [newThread]).length ∧ s.loop < N
    rw [hlen]
    exact ⟨congrArg (· + 1) hcounted.1, hcounted.2⟩
  · intro i t k ht hk
    obtain ⟨-, ht⟩ | ⟨-, rfl⟩ := entry_snoc_cases ht
    · exact h.own i t k ht hk
    · cases hk
  · intro i t ht hpc
    obtain ⟨-, ht⟩ | ⟨hi, -⟩ := entry_snoc_cases ht
    · obtain ⟨-, hw | hw⟩ := h.unread i t ht hpc <;> cases hm.symm.trans hw
    · refine ⟨?_, Or.inl rfl⟩
      show i + 1 = (s.threads ++ [newThread]).length
      omega

theorem mainStep_create {N : ℕ} {s s' : FifoState} (h : mainStep N s = some s')
    (hbody : s.main = .body .create) :
    s' = { s with main := .wait, threads := s.threads ++ [newThread] } := by
  rw [mainStep, hbody] at h
  exact (Option.some.inj h).symm

theorem indexed_mainStep {N : ℕ} {s s' : FifoState} (h : Indexed N s)
    (hs : mainStep N s = some s') : Indexed N s' := by
  by_cases hbody : s.main = .body .create
  · rw [mainStep_create hs hbody]
    exact indexed_create h hbody
  · have hmoved := mainMoved_of_step hs hbody
    apply indexed_same h hmoved.threads (hmoved.counted _ h.counted)
    rintro (hw | hw)
    · exact Or.inl (hmoved.awake.2 hw)
    · exact absurd hw hmoved.awake.1

theorem indexed_thread {N i : ℕ} {s s' : FifoState} {t t' : FifoThread} (h : Indexed N s)
    (hmoved : ThreadMoved s s' i t t') (hcare : s.main = .waiting → t.pc = .signal → NewestRead s) :
    Indexed N s' := by
  have hlen : s'.threads.length = s.threads.length := by rw [hmoved.threads, List.length_set]
  refine ⟨?_, ?_, ?_⟩
  · rw [hmoved.main, hmoved.loop, hlen]
    split
    · next hw =>
      have hcounted := h.counted
      rw [hw.2] at hcounted
      exact hcounted
    · exact h.counted
  · intro j u k hu hk
    rw [hmoved.threads] at hu
    obtain ⟨hji, rfl⟩ | ⟨-, hu⟩ := entry_set_cases hu
    · by_cases hread : t.pc = .read
      · -- the thread reads `loop` while `main` waits for it
        obtain ⟨hlast, hwait⟩ := h.unread i t hmoved.before hread
        have hcounted := h.counted
        have hloop : s.loop + 1 = s.threads.length := by
          obtain hw | hw := hwait <;> rw [hw] at hcounted <;> exact hcounted.1
        rw [hmoved.read hread] at hk
        cases Option.some.inj hk
        omega
      · rw [(hmoved.index hread).1] at hk
        exact hji.symm ▸ h.own i t k hmoved.before hk
    · exact h.own j u k hu hk
  · intro j u hu hpc
    rw [hlen]
    rw [hmoved.threads] at hu
    obtain ⟨-, rfl⟩ | ⟨-, hu⟩ := entry_set_cases hu
    · by_cases hread : t.pc = .read
      · rw [hmoved.read hread] at hpc
        cases hpc
      · exact absurd hpc (hmoved.index hread).2
    · obtain ⟨hlast, hwait⟩ := h.unread j u hu hpc
      refine ⟨hlast, ?_⟩
      rw [hmoved.main]
      split
      · next hw =>
        have hnew := hcare hw.2 hw.1 u (by rw [← hlast, Nat.add_sub_cancel]; exact hu)
        exact absurd hpc hnew
      · exact hwait

theorem indexed_step (N : ℕ) (s : FifoState) (a : FifoAct) (s' : FifoState) (h : Indexed N s)
    (hC : Careful s a) (hs : fifoStep N s a = some s') : Indexed N s' := by
  cases a with
  | main => exact indexed_mainStep h hs
  | createFails =>
    obtain ⟨hbody, rfl⟩ := guarded_inv hs
    have hle : Counted N .exited s.loop s.threads.length := counted_le N _ _ _ h.counted
    exact indexed_same h rfl hle (by simp [hbody])
  | thread i =>
    obtain ⟨t, t', hmoved⟩ := threadMoved_of_step hs
    exact indexed_thread h hmoved fun hw hsig => hC hw ⟨t, hmoved.before, hsig⟩
  | spurious =>
    obtain ⟨hw, rfl⟩ := guarded_inv hs
    have hcounted := h.counted
    rw [hw] at hcounted
    exact indexed_same h rfl hcounted fun _ => Or.inr (hC hw trivial)

theorem ownIndices_of_indexed {N : ℕ} {s : FifoState} (h : Indexed N s) : OwnIndices N s := by
  intro i t k ht hk
  have hki := h.own i t k ht hk
  have hlt := (List.getElem?_eq_some_iff.mp ht).1
  have hle := counted_le N _ _ _ h.counted
  exact ⟨hki, by omega⟩

/-! ## Ways to a wrong index -/

/-- Whoever has `s_m1` is where it can give it back. -/
structure Held (s : FifoState) : Prop where
  main : s.m1 = some .main → HoldsM1 s.main
  thread : ∀ j, s.m1 = some (.thread j) →
    ∃ t, s.threads[j]? = some t ∧ (t.pc = .signal ∨ t.pc = .unlock1)

theorem held_init (loop : ℕ) : Held (fifoInit loop) where
  main := fun h => by cases h
  thread := fun j h => by cases h

theorem held_main {N : ℕ} {s s' : FifoState} (h : Held s) (hs : mainStep N s = some s') :
    Held s' := by
  by_cases hbody : s.main = .body .create
  · rw [mainStep_create hs hbody]
    refine ⟨fun _ => trivial, ?_⟩
    intro j hj
    obtain ⟨t, ht, hpc⟩ := h.thread j hj
    have hlt := (List.getElem?_eq_some_iff.mp ht).1
    exact ⟨t, (List.getElem?_append_left hlt).trans ht, hpc⟩
  · have hmoved := mainMoved_of_step hs hbody
    refine ⟨hmoved.m1 h.main, ?_⟩
    intro j hj
    rw [hmoved.threads]
    exact h.thread j (hmoved.m1_thread j hj)

theorem held_thread {s s' : FifoState} {i : ℕ} {t t' : FifoThread} (h : Held s)
    (hmoved : ThreadMoved s s' i t t') : Held s' := by
  have hi := (List.getElem?_eq_some_iff.mp hmoved.before).1
  constructor
  · intro hm
    obtain hm1 | hm1 | ⟨hm1, -⟩ := hmoved.m1
    · rw [hm1] at hm
      have hholds := h.main hm
      rw [hmoved.main]
      split
      · next hw =>
        rw [hw.2] at hholds
        exact hholds.elim
      · exact hholds
    · cases hm.symm.trans hm1
    · cases hm.symm.trans hm1
  · intro j hj
    rw [hmoved.threads]
    obtain hm1 | hm1 | ⟨hm1, hsig⟩ := hmoved.m1
    · rw [hm1] at hj
      obtain ⟨u, hu, hpc⟩ := h.thread j hj
      by_cases hji : j = i
      · rw [hji] at hu ⊢
        cases Option.some.inj (hmoved.before.symm.trans hu)
        obtain hsig | hun := hpc
        · exact ⟨t', List.getElem?_set_self hi, Or.inr (hmoved.signal hsig)⟩
        · cases hj.symm.trans (hm1.symm.trans (hmoved.unlock1 hun))
      · exact ⟨u, (List.getElem?_set_ne (Ne.symm hji)).trans hu, hpc⟩
    · cases hj.symm.trans hm1
    · cases Option.some.inj (hj.symm.trans hm1)
      exact ⟨t', List.getElem?_set_self hi, Or.inl hsig⟩

theorem held_step (N : ℕ) (s : FifoState) (a : FifoAct) (s' : FifoState) (h : Held s)
    (hs : fifoStep N s a = some s') : Held s' := by
  cases a with
  | main => exact held_main h hs
  | createFails =>
    obtain ⟨-, rfl⟩ := guarded_inv hs
    exact ⟨fun _ => trivial, h.thread⟩
  | thread i =>
    obtain ⟨t, t', hmoved⟩ := threadMoved_of_step hs
    exact held_thread h hmoved
  | spurious =>
    obtain ⟨hw, rfl⟩ := guarded_inv hs
    refine ⟨fun hm => ?_, h.thread⟩
    have hholds := h.main hm
    rw [hw] at hholds
    exact hholds.elim

/-- `main` is awake too early: it changes `loop`, and the newest thread reads the next index. -/
structure WokenEarly (s : FifoState) (i : ℕ) : Prop where
  main : s.main = .relock
  thread : ∃ t, s.threads[i]? = some t ∧ t.pc = .read
  loop : s.loop = i

theorem wrong_of_free {N i : ℕ} {s : FifoState} (h : WokenEarly s i) (hfree : s.m1 = none) :
    ∃ u, Reaches (fifoStep N) s u ∧ ¬ OwnIndices N u := by
  obtain ⟨t, ht, hpc⟩ := h.thread
  have hlock : fifoStep N s .main = some { s with main := .incr .create, m1 := some .main } := by
    show mainStep N s = _
    rw [mainStep, h.main]
    exact if_pos hfree
  have hincr : fifoStep N { s with main := .incr .create, m1 := some .main } .main =
      some { s with main := .test .create, loop := s.loop + 1, m1 := some .main } := rfl
  have hread : fifoStep N { s with main := .test .create, loop := s.loop + 1, m1 := some .main }
      (.thread i) = some ⟨.test .create, s.loop + 1, some .main, s.m2,
        s.threads.set i ⟨.lock1, some (s.loop + 1)⟩⟩ := by
    show (s.threads[i]?).bind _ = _
    rw [ht, Option.bind_some, threadStep, hpc]
  refine ⟨_, reaches_step hlock (reaches_step hincr (reaches_step hread (reaches_refl _))), ?_⟩
  intro hown
  have hi := (List.getElem?_eq_some_iff.mp ht).1
  have hwrong := (hown i _ _ (List.getElem?_set_self hi) rfl).1
  rw [h.loop] at hwrong
  omega

theorem wokenEarly_kept {s s' : FifoState} {i j : ℕ} {u u' : FifoThread} (h : WokenEarly s i)
    (hmoved : ThreadMoved s s' j u u') (hu : u.pc ≠ .read) : WokenEarly s' i := by
  obtain ⟨t, ht, hpc⟩ := h.thread
  have hji : j ≠ i := by
    intro he
    have hsame := hmoved.before
    rw [he, ht, Option.some.injEq] at hsame
    exact hu (by rw [← hsame, hpc])
  refine ⟨?_, ⟨t, ?_, hpc⟩, hmoved.loop.trans h.loop⟩
  · have hwait : ¬ (u.pc = .signal ∧ s.main = .waiting) := by
      intro hw
      cases h.main.symm.trans hw.2
    rw [hmoved.main, if_neg hwait]
    exact h.main
  · rw [hmoved.threads, List.getElem?_set_ne hji, ht]

theorem section_steps (N : ℕ) {i j : ℕ} {s : FifoState} {u : FifoThread} (h : WokenEarly s i)
    (hu : s.threads[j]? = some u) (hpc : u.pc = .signal ∨ u.pc = .unlock1) :
    ∃ s', fifoStep N s (.thread j) = some s' := by
  have hx : s.main ≠ .exited := by
    rw [h.main]
    decide
  have hstep : fifoStep N s (.thread j) = threadStep s j u :=
    (if_neg hx).trans (by rw [hu, Option.bind_some])
  rw [hstep, threadStep]
  obtain hpc | hpc := hpc <;> rw [hpc] <;> exact ⟨_, rfl⟩

theorem wrong_of_unlock1 {N i j : ℕ} {s : FifoState} {u : FifoThread} (h : WokenEarly s i)
    (hu : s.threads[j]? = some u) (hpc : u.pc = .unlock1) :
    ∃ v, Reaches (fifoStep N) s v ∧ ¬ OwnIndices N v := by
  obtain ⟨s', hs⟩ := section_steps N h hu (Or.inr hpc)
  obtain ⟨t, t', hmoved⟩ := threadMoved_of_step hs
  cases Option.some.inj (hu.symm.trans hmoved.before)
  have hearly := wokenEarly_kept h hmoved (by rw [hpc]; decide)
  obtain ⟨v, hv, hwrong⟩ := wrong_of_free (N := N) hearly (hmoved.unlock1 hpc)
  exact ⟨v, reaches_step hs hv, hwrong⟩

/-- Whoever has the mutex gives it back, and then `main` goes on. -/
theorem wrong_of_early {N i : ℕ} {s : FifoState} (hheld : Held s) (h : WokenEarly s i) :
    ∃ u, Reaches (fifoStep N) s u ∧ ¬ OwnIndices N u := by
  cases hm1 : s.m1 with
  | none => exact wrong_of_free h hm1
  | some owner =>
    cases owner with
    | main =>
      have hholds := hheld.main hm1
      rw [h.main] at hholds
      exact hholds.elim
    | thread j =>
      obtain ⟨u, hu, hsig | hun⟩ := hheld.thread j hm1
      · obtain ⟨s', hs⟩ := section_steps N h hu (Or.inl hsig)
        obtain ⟨t, t', hmoved⟩ := threadMoved_of_step hs
        cases Option.some.inj (hu.symm.trans hmoved.before)
        have hearly := wokenEarly_kept h hmoved (by rw [hsig]; decide)
        have hj := (List.getElem?_eq_some_iff.mp hu).1
        have hget : s'.threads[j]? = some t' := by
          rw [hmoved.threads]
          exact List.getElem?_set_self hj
        obtain ⟨v, hv, hwrong⟩ := wrong_of_unlock1 (N := N) hearly hget (hmoved.signal hsig)
        exact ⟨v, reaches_step hs hv, hwrong⟩
      · exact wrong_of_unlock1 h hu hun

/-- A careless wakeup leads to a state from which a wrong index can be read. -/
theorem wrong_of_careless {N : ℕ} {s s' : FifoState} {a : FifoAct} (h : Indexed N s)
    (hheld : Held s) (hC : ¬ Careful s a) (hs : fifoStep N s a = some s') :
    ∃ u, Reaches (fifoStep N) s' u ∧ ¬ OwnIndices N u := by
  have hheld' := held_step N s a s' hheld hs
  unfold Careful NewestRead at hC
  push Not at hC
  obtain ⟨hw, hwakes, t, ht, hpc⟩ := hC
  have hlt := (List.getElem?_eq_some_iff.mp ht).1
  have hcounted := h.counted
  rw [hw] at hcounted
  have hloop : s.loop = s.threads.length - 1 := by
    have := hcounted.1
    omega
  apply wrong_of_early hheld' (i := s.threads.length - 1)
  cases a with
  | main => exact hwakes.elim
  | createFails => exact hwakes.elim
  | thread j =>
    obtain ⟨u, hu, hsig⟩ := hwakes
    obtain ⟨v, v', hmoved⟩ := threadMoved_of_step hs
    cases Option.some.inj (hu.symm.trans hmoved.before)
    have hj : j ≠ s.threads.length - 1 := by
      intro he
      rw [he, ht, Option.some.injEq] at hu
      rw [hu, hsig] at hpc
      cases hpc
    refine ⟨?_, ⟨t, ?_, hpc⟩, hmoved.loop.trans hloop⟩
    · rw [hmoved.main, if_pos ⟨hsig, hw⟩]
    · rw [hmoved.threads, List.getElem?_set_ne hj, ht]
  | spurious =>
    obtain ⟨-, rfl⟩ := guarded_inv hs
    exact ⟨rfl, ⟨t, ht, hpc⟩, hloop⟩

/-! ## Runs without spurious wakeups -/

/-- All threads have signalled, except the newest while `main` waits for it. -/
def Signalled (s : FifoState) : Prop :=
  ∀ (i : ℕ) (t : FifoThread), s.threads[i]? = some t →
    i + 1 < s.threads.length ∨ (s.main ≠ .wait ∧ s.main ≠ .waiting) → past t.pc

theorem signalled_init (loop : ℕ) : Signalled (fifoInit loop) := fun i t ht => by cases ht

theorem signalled_main {N : ℕ} {s s' : FifoState} (h : Signalled s)
    (hs : mainStep N s = some s') : Signalled s' := by
  by_cases hbody : s.main = .body .create
  · rw [mainStep_create hs hbody]
    intro i t ht hcase
    obtain hi | ⟨hw, -⟩ := hcase
    · have hlen : i + 1 < (s.threads ++ [newThread]).length := hi
      rw [List.length_append, List.length_singleton] at hlen
      rw [List.getElem?_append_left (by omega)] at ht
      exact h i t ht (Or.inr (by simp [hbody]))
    · exact absurd rfl hw
  · have hmoved := mainMoved_of_step hs hbody
    intro i t ht hcase
    rw [hmoved.threads] at ht hcase
    refine h i t ht (hcase.imp_right fun hawake => ⟨?_, hmoved.awake.1⟩)
    exact fun hw => hawake.2 (hmoved.awake.2 hw)

theorem signalled_thread {s s' : FifoState} {i : ℕ} {t t' : FifoThread} (h : Signalled s)
    (hmoved : ThreadMoved s s' i t t') : Signalled s' := by
  intro j u hu hcase
  rw [hmoved.threads, List.length_set] at hcase
  rw [hmoved.threads] at hu
  have hlater : t.pc = .signal → past t'.pc := by
    intro hsig
    rw [hmoved.signal hsig]
    unfold past
    decide
  obtain ⟨hji, rfl⟩ | ⟨hji, hu⟩ := entry_set_cases hu
  · by_cases hsig : t.pc = .signal
    · exact hlater hsig
    · rw [hmoved.main, if_neg (fun hw => hsig hw.1)] at hcase
      rw [hji] at hcase
      exact hmoved.past (h i t hmoved.before hcase)
  · by_cases hw : t.pc = .signal ∧ s.main = .waiting
    · -- the thread that wakes `main` is the newest one, so this one has signalled before
      have hnewest : ¬ i + 1 < s.threads.length := by
        intro hlt
        exact (h i t hmoved.before (Or.inl hlt)).2.2 hw.1
      have hi := (List.getElem?_eq_some_iff.mp hmoved.before).1
      have hj := (List.getElem?_eq_some_iff.mp hu).1
      exact h j u hu (Or.inl (by omega))
    · rw [hmoved.main, if_neg hw] at hcase
      exact h j u hu hcase

theorem signalled_step {N : ℕ} {s s' : FifoState} {a : FifoAct} (h : Signalled s)
    (ha : a ≠ .spurious) (hs : fifoStep N s a = some s') : Signalled s' := by
  cases a with
  | main => exact signalled_main h hs
  | createFails =>
    obtain ⟨hbody, rfl⟩ := guarded_inv hs
    intro i t ht _
    exact h i t ht (Or.inr (by simp [hbody]))
  | thread i =>
    obtain ⟨t, t', hmoved⟩ := threadMoved_of_step hs
    exact signalled_thread h hmoved
  | spurious => exact absurd rfl ha

theorem careful_of_signalled {s : FifoState} {a : FifoAct} (h : Signalled s)
    (ha : a ≠ .spurious) : Careful s a := by
  intro hw hwakes u hu
  cases a with
  | main => exact hwakes.elim
  | createFails => exact hwakes.elim
  | thread i =>
    obtain ⟨t, ht, hsig⟩ := hwakes
    have hi := (List.getElem?_eq_some_iff.mp ht).1
    have hnewest : ¬ i + 1 < s.threads.length := by
      intro hlt
      exact (h i t ht (Or.inl hlt)).2.2 hsig
    have hlast : i = s.threads.length - 1 := by omega
    rw [hlast, hu, Option.some.injEq] at ht
    rw [ht, hsig]
    decide
  | spurious => exact absurd rfl ha

theorem alongSteps_of_noSpurious {N : ℕ} {s : FifoState} {as : List FifoAct} (h : Signalled s)
    (ha : .spurious ∉ as) : AlongSteps (fifoStep N) Careful s as := by
  induction as generalizing s with
  | nil => trivial
  | cons a as ih =>
    obtain ⟨hne, has⟩ := not_or.mp (fun hm => ha (List.mem_cons.mpr hm))
    refine ⟨careful_of_signalled h (Ne.symm hne), fun t ht => ?_⟩
    exact ih (signalled_step h (Ne.symm hne) ht) has

/-! ## Whole runs -/

/-- **Each thread gets its own index when `main` wakes up only after the newest thread has read**;
the first other wakeup can lead to a wrong index, and without spurious wakeups there is none. -/
theorem own_index (N loop : ℕ) :
    (∀ as s, exec (fifoStep N) (fifoInit loop) as = some s →
      AlongSteps (fifoStep N) Careful (fifoInit loop) as →
      OwnIndices N s ∧ ∀ a s', fifoStep N s a = some s' → ¬ Careful s a →
        ∃ u, Reaches (fifoStep N) s' u ∧ ¬ OwnIndices N u) ∧
      ∀ as, .spurious ∉ as → AlongSteps (fifoStep N) Careful (fifoInit loop) as := by
  constructor
  · intro as s h hC
    have hindexed : Indexed N s :=
      exec_invariant_along Careful (Indexed N) (indexed_step N) h hC (indexed_init N loop)
    have hheld : Held s := exec_invariant Held (held_step N) h (held_init loop)
    exact ⟨ownIndices_of_indexed hindexed, fun a s' hs hcare =>
      wrong_of_careless hindexed hheld hcare hs⟩
  · exact fun as ha => alongSteps_of_noSpurious (signalled_init loop) ha

/-- Three threads that overtake each other; `main` wakes up unsignalled when the last one has read. -/
def threeThreads : List FifoAct := List.flatten
  [List.replicate 6 .main, List.replicate 4 (.thread 0), List.replicate 5 .main,
    List.replicate 4 (.thread 1), List.replicate 5 .main, [.thread 2, .spurious],
    List.replicate 4 .main, [.thread 2, .main, .thread 1, .thread 2, .thread 1]]

def afterThreeThreads : FifoState :=
  ⟨.init .join, 3, some (.thread 2), none, [⟨.lock2, some 0⟩, ⟨.count, some 1⟩, ⟨.unlock1, some 2⟩]⟩

theorem own_index_threeThreads : OwnIndices kNumThread afterThreeThreads :=
  ((own_index kNumThread 7).1 threeThreads afterThreeThreads (by decide +kernel) (by decide +kernel)).1

/-- `main` creates the first thread, wakes up unsignalled, and counts on before the thread reads. -/
def wokenUnsignalled : List FifoAct :=
  List.replicate 6 .main ++ [.spurious, .main, .main, .thread 0]

theorem spurious_wakeup_wrong_index :
    ¬ ∀ (loop : ℕ) (as : List FifoAct) (s : FifoState),
      exec (fifoStep kNumThread) (fifoInit loop) as = some s → OwnIndices kNumThread s := by
  intro h
  have hwrong := h 0 wokenUnsignalled
    ⟨.test .create, 1, some .main, some .main, [⟨.lock1, some 1⟩]⟩ (by decide) 0 _ 1 rfl rfl
  exact absurd hwrong.1 (by decide)

end LinuxAppSamp.Threads
