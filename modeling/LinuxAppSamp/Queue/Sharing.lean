import LinuxAppSamp.Foundations.Steps
import LinuxAppSamp.Foundations.Tally
import LinuxAppSamp.Messages.Reply

/-! # Runs of `mqueue_1send_rcv.c` that share the queue

The queue `/mq` is never unlinked, so it outlives the runs and any number of them use it. A run
sends three messages, asks `mq_getattr` how many there are, and receives that many. `Roomy` is the
invariant under which nobody waits: the queue covers what is still to be received and has room for
what is still to be sent. `deadlock_free_of_careful` states it over whole runs, and that one careless
step is enough: careful ones then lead on to a deadlock, without any new run.
-/

namespace LinuxAppSamp.Queue
open Messages Execution
set_option autoImplicit false
set_option maxHeartbeats 250000

/-! ## The system -/

/-- "Hellow World", which `s_send` sends three times. -/
def msg : List UInt8 :=
  bytes ['H', 'e', 'l', 'l', 'o', 'w', ' ', 'W', 'o', 'r', 'l', 'd']

/-- Where a run is: `send 0` is before `mq_getattr`, `receive 0` before `mq_close`. -/
inductive RunPc
  | send (left : ℕ)
  | receive (left : ℕ)
  | closed
  | killed
  deriving DecidableEq, Repr

structure MqState where
  queue : List (List UInt8)
  runs : List RunPc
  deriving DecidableEq, Repr

/-- A new run comes out of `mq_open`, a run makes its next call, a run is killed. -/
inductive MqAct
  | start
  | run (i : ℕ)
  | kill (i : ℕ)
  deriving DecidableEq, Repr

/-- `mq_maxmsg` of a queue that is created without attributes. -/
def defaultMaxmsg : ℕ := 10

def mqInit : MqState := ⟨[], []⟩

/-- The next call of a run, none where it has to wait. -/
def runStep (maxmsg : ℕ) (queue : List (List UInt8)) : RunPc → Option (List (List UInt8) × RunPc)
  | .send 0 => some (queue, .receive queue.length)
  | .send (left + 1) => if queue.length < maxmsg then some (queue ++ [msg], .send left) else none
  | .receive 0 => some (queue, .closed)
  | .receive (left + 1) =>
    match queue with
    | [] => none
    | _ :: rest => some (rest, .receive left)
  | .closed => none
  | .killed => none

def live : RunPc → Bool
  | .send _ => true
  | .receive _ => true
  | _ => false

def mqStep (maxmsg : ℕ) (s : MqState) : MqAct → Option MqState
  | .start => some { s with runs := s.runs ++ [.send 3] }
  | .run i => do
    let r ← s.runs[i]?
    let (queue, r) ← runStep maxmsg s.queue r
    some ⟨queue, s.runs.set i r⟩
  | .kill i => do
    let r ← s.runs[i]?
    if live r then some { s with runs := s.runs.set i .killed } else none

/-- The run is inside `mq_send` on a full queue, or inside `mq_receive` on an empty one. -/
def Waits (maxmsg : ℕ) (queue : List (List UInt8)) : RunPc → Prop
  | .send (_ + 1) => maxmsg ≤ queue.length
  | .receive (_ + 1) => queue = []
  | _ => False

/-- A live run waits, and no other one can make its next call. -/
def Deadlocked (maxmsg : ℕ) (s : MqState) : Prop :=
  ∃ i r, s.runs[i]? = some r ∧ Waits maxmsg s.queue r ∧
    ∀ j, j ≠ i → mqStep maxmsg s (.run j) = none

/-! ## What a step can do -/

theorem mqStep_run {maxmsg i : ℕ} {s s' : MqState} {r : RunPc}
    (h : mqStep maxmsg s (.run i) = some s') (hr : s.runs[i]? = some r) :
    ∃ queue r', runStep maxmsg s.queue r = some (queue, r') ∧ s' = ⟨queue, s.runs.set i r'⟩ := by
  obtain ⟨u, hu, h⟩ := Option.bind_eq_some_iff.mp h
  cases Option.some.inj (hr.symm.trans hu)
  obtain ⟨⟨queue, r'⟩, hstep, h⟩ := Option.bind_eq_some_iff.mp h
  exact ⟨queue, r', hstep, (Option.some.inj h).symm⟩

theorem mqStep_run_eq {maxmsg i : ℕ} {s : MqState} {r r' : RunPc} {queue : List (List UInt8)}
    (hr : s.runs[i]? = some r) (h : runStep maxmsg s.queue r = some (queue, r')) :
    mqStep maxmsg s (.run i) = some ⟨queue, s.runs.set i r'⟩ := by
  show (s.runs[i]?).bind _ = _
  rw [hr, Option.bind_some]
  show (runStep maxmsg s.queue r).bind _ = _
  rw [h, Option.bind_some]

theorem mqStep_kill {maxmsg i : ℕ} {s s' : MqState} (h : mqStep maxmsg s (.kill i) = some s') :
    ∃ r, s.runs[i]? = some r ∧ live r = true ∧ s' = { s with runs := s.runs.set i .killed } := by
  obtain ⟨r, hr, h⟩ := Option.bind_eq_some_iff.mp h
  obtain ⟨hl, hs'⟩ := guarded_inv h
  exact ⟨r, hr, hl, hs'.symm⟩

theorem mqStep_kill_eq {maxmsg i : ℕ} {s : MqState} {r : RunPc} (hr : s.runs[i]? = some r)
    (hl : live r = true) :
    mqStep maxmsg s (.kill i) = some { s with runs := s.runs.set i .killed } := by
  show (s.runs[i]?).bind _ = _
  rw [hr, Option.bind_some]
  exact if_pos hl

theorem runStep_dead {maxmsg : ℕ} {queue : List (List UInt8)} {r : RunPc}
    (h : live r = false) : runStep maxmsg queue r = none := by
  cases r with
  | send left => cases h
  | receive left => cases h
  | closed => rfl
  | killed => rfl

/-! ## What is left to do -/

def sendsLeft : RunPc → ℕ
  | .send left => left
  | _ => 0

def receivesLeft : RunPc → ℕ
  | .receive left => left
  | _ => 0

/-- The messages that the live runs still have to send. -/
def unsent (s : MqState) : ℕ := tally sendsLeft s.runs

/-- The messages that the live runs have counted and not yet received. -/
def awaited (s : MqState) : ℕ := tally receivesLeft s.runs

/-- Nobody waits while this holds. -/
structure Roomy (maxmsg : ℕ) (s : MqState) : Prop where
  covered : awaited s ≤ s.queue.length
  room : s.queue.length + unsent s ≤ maxmsg

/-- A run starts only when the queue will have room for its messages too, and counts the messages
only when no other run has counted some of them. -/
def Careful (maxmsg : ℕ) (s : MqState) : MqAct → Prop
  | .start => s.queue.length + unsent s + 3 ≤ maxmsg
  | .run i => s.runs[i]? = some (.send 0) → awaited s = 0
  | .kill _ => True

instance (maxmsg : ℕ) (s : MqState) (a : MqAct) : Decidable (Careful maxmsg s a) :=
  match a with
  | .start => inferInstanceAs (Decidable (_ ≤ _))
  | .run i => inferInstanceAs (Decidable (s.runs[i]? = some (.send 0) → awaited s = 0))
  | .kill _ => isTrue trivial

theorem roomy_init (maxmsg : ℕ) : Roomy maxmsg mqInit := ⟨Nat.le_refl 0, Nat.zero_le _⟩

/-- The calls of a run, by what they do to the queue and to the two sums: it counts the messages,
sends one, closes the queue, or receives one. -/
structure Counts (s s' : MqState) (i : ℕ) : Prop where
  pc : s.runs[i]? = some (.send 0)
  queue : s'.queue.length = s.queue.length
  unsent : unsent s' = unsent s
  awaited : awaited s' = awaited s + s.queue.length

structure Sends (s s' : MqState) (i : ℕ) : Prop where
  pc : ∃ left, s.runs[i]? = some (.send (left + 1))
  queue : s'.queue.length = s.queue.length + 1
  unsent : unsent s' + 1 = unsent s
  awaited : awaited s' = awaited s

structure Closes (s s' : MqState) (i : ℕ) : Prop where
  pc : s.runs[i]? = some (.receive 0)
  queue : s'.queue.length = s.queue.length
  unsent : unsent s' = unsent s
  awaited : awaited s' = awaited s

structure Receives (s s' : MqState) (i : ℕ) : Prop where
  pc : ∃ left, s.runs[i]? = some (.receive (left + 1))
  queue : s'.queue.length + 1 = s.queue.length
  unsent : unsent s' = unsent s
  awaited : awaited s' + 1 = awaited s

theorem sums_set {i : ℕ} {s : MqState} {r : RunPc} (hr : s.runs[i]? = some r)
    (queue : List (List UInt8)) (r' : RunPc) :
    unsent ⟨queue, s.runs.set i r'⟩ + sendsLeft r = unsent s + sendsLeft r' ∧
      awaited ⟨queue, s.runs.set i r'⟩ + receivesLeft r = awaited s + receivesLeft r' :=
  ⟨tally_set sendsLeft s.runs i r r' hr, tally_set receivesLeft s.runs i r r' hr⟩

theorem counts_of_pc {maxmsg i : ℕ} {s s' : MqState} (h : mqStep maxmsg s (.run i) = some s')
    (hr : s.runs[i]? = some (.send 0)) : Counts s s' i := by
  obtain ⟨queue, r', hstep, rfl⟩ := mqStep_run h hr
  cases Option.some.inj hstep
  obtain ⟨hun, haw⟩ := sums_set hr s.queue (.receive s.queue.length)
  exact ⟨hr, rfl, hun, haw⟩

theorem sends_of_pc {maxmsg i left : ℕ} {s s' : MqState}
    (h : mqStep maxmsg s (.run i) = some s') (hr : s.runs[i]? = some (.send (left + 1))) :
    Sends s s' i := by
  obtain ⟨queue, r', hstep, rfl⟩ := mqStep_run h hr
  obtain ⟨-, hnext⟩ := guarded_inv hstep
  cases hnext
  obtain ⟨hun, haw⟩ := sums_set hr (s.queue ++ [msg]) (.send left)
  simp only [sendsLeft] at hun
  exact ⟨⟨left, hr⟩, List.length_append, by omega, haw⟩

theorem closes_of_pc {maxmsg i : ℕ} {s s' : MqState} (h : mqStep maxmsg s (.run i) = some s')
    (hr : s.runs[i]? = some (.receive 0)) : Closes s s' i := by
  obtain ⟨queue, r', hstep, rfl⟩ := mqStep_run h hr
  cases Option.some.inj hstep
  obtain ⟨hun, haw⟩ := sums_set hr s.queue .closed
  exact ⟨hr, rfl, hun, haw⟩

theorem receives_of_pc {maxmsg i left : ℕ} {s s' : MqState}
    (h : mqStep maxmsg s (.run i) = some s') (hr : s.runs[i]? = some (.receive (left + 1))) :
    Receives s s' i := by
  obtain ⟨queue, r', hstep, rfl⟩ := mqStep_run h hr
  cases hq : s.queue with
  | nil =>
    rw [hq] at hstep
    cases hstep
  | cons m rest =>
    rw [hq] at hstep
    cases Option.some.inj hstep
    obtain ⟨hun, haw⟩ := sums_set hr queue (.receive left)
    simp only [receivesLeft] at haw
    exact ⟨⟨left, hr⟩, by rw [hq]; rfl, hun, by omega⟩

theorem run_sums {maxmsg i : ℕ} {s s' : MqState} (h : mqStep maxmsg s (.run i) = some s') :
    Counts s s' i ∨ Sends s s' i ∨ Closes s s' i ∨ Receives s s' i := by
  obtain ⟨r, hr, -⟩ := Option.bind_eq_some_iff.mp h
  cases r with
  | send left =>
    cases left with
    | zero => exact Or.inl (counts_of_pc h hr)
    | succ left => exact Or.inr (Or.inl (sends_of_pc h hr))
  | receive left =>
    cases left with
    | zero => exact Or.inr (Or.inr (Or.inl (closes_of_pc h hr)))
    | succ left => exact Or.inr (Or.inr (Or.inr (receives_of_pc h hr)))
  | closed =>
    obtain ⟨_, _, hstep, -⟩ := mqStep_run h hr
    cases hstep
  | killed =>
    obtain ⟨_, _, hstep, -⟩ := mqStep_run h hr
    cases hstep

theorem kill_sums {maxmsg i : ℕ} {s s' : MqState} (h : mqStep maxmsg s (.kill i) = some s') :
    s'.queue = s.queue ∧ unsent s' ≤ unsent s ∧ awaited s' ≤ awaited s := by
  obtain ⟨r, hr, _, rfl⟩ := mqStep_kill h
  obtain ⟨hun, haw⟩ := sums_set hr s.queue .killed
  simp only [sendsLeft, receivesLeft] at hun haw
  exact ⟨rfl, by omega, by omega⟩

theorem start_sums {maxmsg : ℕ} {s s' : MqState} (h : mqStep maxmsg s .start = some s') :
    s'.queue = s.queue ∧ unsent s' = unsent s + 3 ∧ awaited s' = awaited s := by
  cases Option.some.inj h
  exact ⟨rfl, tally_snoc sendsLeft s.runs (.send 3), tally_snoc receivesLeft s.runs (.send 3)⟩

theorem roomy_mqStep (maxmsg : ℕ) (s : MqState) (a : MqAct) (s' : MqState) (h : Roomy maxmsg s)
    (hC : Careful maxmsg s a) (hs : mqStep maxmsg s a = some s') : Roomy maxmsg s' := by
  have hcov := h.covered
  have hroom := h.room
  cases a with
  | start =>
    obtain ⟨hq, hun, haw⟩ := start_sums hs
    have hC : s.queue.length + unsent s + 3 ≤ maxmsg := hC
    exact ⟨by rw [hq, haw]; exact hcov, by rw [hq, hun]; omega⟩
  | run i =>
    obtain hc | hc | hc | hc := run_sums hs
    · have hnone : awaited s = 0 := hC hc.pc
      exact ⟨by rw [hc.awaited, hc.queue]; omega, by rw [hc.unsent, hc.queue]; exact hroom⟩
    all_goals
      have hq := hc.queue
      have hun := hc.unsent
      have haw := hc.awaited
      exact ⟨by omega, by omega⟩
  | kill i =>
    obtain ⟨hq, hun, haw⟩ := kill_sums hs
    exact ⟨by rw [hq]; omega, by rw [hq]; omega⟩

theorem roomy_not_waits {maxmsg i : ℕ} {s : MqState} {r : RunPc} (h : Roomy maxmsg s)
    (hr : s.runs[i]? = some r) : ¬ Waits maxmsg s.queue r := by
  have hcov := h.covered
  have hroom := h.room
  have hmem := List.mem_of_getElem? hr
  intro hw
  cases r with
  | send left =>
    cases left with
    | zero => exact hw
    | succ left =>
      have hle : left + 1 ≤ unsent s := le_tally sendsLeft s.runs _ hmem
      have hfull : maxmsg ≤ s.queue.length := hw
      omega
  | receive left =>
    cases left with
    | zero => exact hw
    | succ left =>
      have hle : left + 1 ≤ awaited s := le_tally receivesLeft s.runs _ hmem
      have hempty : s.queue = [] := hw
      rw [hempty] at hcov
      simp only [List.length_nil] at hcov
      omega
  | closed => exact hw
  | killed => exact hw

theorem roomy_not_deadlocked {maxmsg : ℕ} {s : MqState} (h : Roomy maxmsg s) :
    ¬ Deadlocked maxmsg s := by
  rintro ⟨i, r, hr, hw, _⟩
  exact roomy_not_waits h hr hw

/-! ## Ways into a deadlock -/

/-- Careful steps lead from `s` to `t`, and none of them starts a run. -/
def Drifts (maxmsg : ℕ) (s t : MqState) : Prop :=
  ∃ as, exec (mqStep maxmsg) s as = some t ∧
    AlongSteps (mqStep maxmsg) (fun s a => a ≠ .start ∧ Careful maxmsg s a) s as

theorem drifts_refl (maxmsg : ℕ) (s : MqState) : Drifts maxmsg s s := ⟨[], rfl, trivial⟩

theorem drifts_step {maxmsg : ℕ} {s t u : MqState} {a : MqAct} (h : mqStep maxmsg s a = some t)
    (ha : a ≠ .start) (hC : Careful maxmsg s a) (ht : Drifts maxmsg t u) : Drifts maxmsg s u := by
  obtain ⟨as, has, hcareful⟩ := ht
  exact ⟨a :: as, by rw [exec_cons_eq h, has], (alongSteps_cons h as).mpr ⟨⟨ha, hC⟩, hcareful⟩⟩

/-- Only a run that counts the messages can be careless about it. -/
theorem careful_run {maxmsg i : ℕ} {s : MqState} {r : RunPc} (hr : s.runs[i]? = some r)
    (hne : r ≠ .send 0) : Careful maxmsg s (.run i) :=
  fun h => absurd (Option.some.inj (hr.symm.trans h)) hne

/-- The other runs can all be killed. -/
theorem reaches_alone (maxmsg i : ℕ) (s : MqState) :
    ∃ t, Drifts maxmsg s t ∧ t.queue = s.queue ∧ t.runs[i]? = s.runs[i]? ∧
      ∀ j r, j ≠ i → t.runs[j]? = some r → live r = false := by
  let w : RunPc → ℕ := fun r => if live r then 1 else 0
  induction hn : tally w s.runs using Nat.strongRecOn generalizing s with
  | ind n ih =>
    by_cases hall : ∀ j r, j ≠ i → s.runs[j]? = some r → live r = false
    · exact ⟨s, drifts_refl maxmsg s, rfl, rfl, hall⟩
    · push Not at hall
      obtain ⟨j, r, hji, hr, hl⟩ := hall
      have hlive : live r = true := by simpa using hl
      have hkill : mqStep maxmsg s (.kill j) = some { s with runs := s.runs.set j .killed } :=
        mqStep_kill_eq hr hlive
      have hset := tally_set w s.runs j r .killed hr
      have hw : w r = 1 ∧ w .killed = 0 := ⟨if_pos hlive, rfl⟩
      obtain ⟨t, ht, hq, hti, hdead⟩ := ih (tally w (s.runs.set j .killed)) (by omega)
        { s with runs := s.runs.set j .killed } rfl
      refine ⟨t, drifts_step hkill (by simp) trivial ht, hq, ?_, hdead⟩
      rw [hti]
      exact List.getElem?_set_ne hji

theorem reaches_deadlock_of_waits {maxmsg i : ℕ} {s : MqState} {r : RunPc}
    (hr : s.runs[i]? = some r) (hw : Waits maxmsg s.queue r) :
    ∃ t, Drifts maxmsg s t ∧ Deadlocked maxmsg t := by
  obtain ⟨t, ht, hq, hti, hdead⟩ := reaches_alone maxmsg i s
  refine ⟨t, ht, i, r, hti.trans hr, by rw [hq]; exact hw, ?_⟩
  intro j hji
  cases hj : t.runs[j]? with
  | none =>
    show (t.runs[j]?).bind _ = none
    rw [hj, Option.bind_none]
  | some u =>
    show (t.runs[j]?).bind _ = none
    rw [hj, Option.bind_some]
    show (runStep maxmsg t.queue u).bind _ = none
    rw [runStep_dead (hdead j u hji hj), Option.bind_none]

theorem sender_of_unsent (s : MqState) (h : 0 < unsent s) :
    ∃ (i left : ℕ), s.runs[i]? = some (.send (left + 1)) := by
  obtain ⟨i, r, hr, hpos⟩ := tally_pos sendsLeft s.runs h
  cases r with
  | send left =>
    obtain ⟨left, rfl⟩ := Nat.exists_eq_add_of_le' hpos
    exact ⟨i, left, hr⟩
  | receive left => cases hpos
  | closed => cases hpos
  | killed => cases hpos

theorem receiver_of_awaited (s : MqState) (h : 0 < awaited s) :
    ∃ (i left : ℕ), s.runs[i]? = some (.receive (left + 1)) := by
  obtain ⟨i, r, hr, hpos⟩ := tally_pos receivesLeft s.runs h
  cases r with
  | receive left =>
    obtain ⟨left, rfl⟩ := Nat.exists_eq_add_of_le' hpos
    exact ⟨i, left, hr⟩
  | send left => cases hpos
  | closed => cases hpos
  | killed => cases hpos

/-- Messages that do not fit any more: the senders fill the queue, and one of them waits. -/
theorem reaches_deadlock_of_full (maxmsg : ℕ) (s : MqState) (hq : s.queue.length ≤ maxmsg)
    (h : maxmsg < s.queue.length + unsent s) :
    ∃ t, Drifts maxmsg s t ∧ Deadlocked maxmsg t := by
  induction hn : maxmsg - s.queue.length generalizing s with
  | zero =>
    obtain ⟨i, left, hr⟩ := sender_of_unsent s (by omega)
    have hfull : Waits maxmsg s.queue (.send (left + 1)) := Nat.le_of_sub_eq_zero hn
    exact reaches_deadlock_of_waits hr hfull
  | succ n ih =>
    obtain ⟨i, left, hr⟩ := sender_of_unsent s (by omega)
    obtain ⟨u, hstep⟩ : ∃ u, mqStep maxmsg s (.run i) = some u :=
      ⟨_, mqStep_run_eq hr (if_pos (by omega))⟩
    have hc := sends_of_pc hstep hr
    have hlen := hc.queue
    have hun := hc.unsent
    obtain ⟨t, ht, hdead⟩ := ih u (by omega) (by omega) (by omega)
    exact ⟨t, drifts_step hstep (by simp) (careful_run hr (by simp)) ht, hdead⟩

/-- Messages that were counted twice: the receivers empty the queue, and one of them waits. -/
theorem reaches_deadlock_of_empty (maxmsg : ℕ) (s : MqState)
    (h : s.queue.length < awaited s) :
    ∃ t, Drifts maxmsg s t ∧ Deadlocked maxmsg t := by
  induction hn : s.queue.length generalizing s with
  | zero =>
    obtain ⟨i, left, hr⟩ := receiver_of_awaited s (by omega)
    have hempty : Waits maxmsg s.queue (.receive (left + 1)) := List.length_eq_zero_iff.mp hn
    exact reaches_deadlock_of_waits hr hempty
  | succ n ih =>
    obtain ⟨i, left, hr⟩ := receiver_of_awaited s (by omega)
    obtain ⟨m, rest, hq⟩ := List.exists_cons_of_length_eq_add_one hn
    have hcall : runStep maxmsg s.queue (.receive (left + 1)) = some (rest, .receive left) := by
      rw [hq]
      rfl
    obtain ⟨u, hstep⟩ : ∃ u, mqStep maxmsg s (.run i) = some u := ⟨_, mqStep_run_eq hr hcall⟩
    have hc := receives_of_pc hstep hr
    have hlen := hc.queue
    have haw := hc.awaited
    obtain ⟨t, ht, hdead⟩ := ih u (by omega) (by omega)
    exact ⟨t, drifts_step hstep (by simp) (careful_run hr (by simp)) ht, hdead⟩

/-- A careless step leads to a state from which careful steps lead to a deadlock. -/
theorem reaches_deadlock_of_careless {maxmsg : ℕ} {s s' : MqState} {a : MqAct}
    (h : Roomy maxmsg s) (hC : ¬ Careful maxmsg s a) (hs : mqStep maxmsg s a = some s') :
    ∃ t, Drifts maxmsg s' t ∧ Deadlocked maxmsg t := by
  have hroom := h.room
  cases a with
  | start =>
    obtain ⟨hq, hun, -⟩ := start_sums hs
    have hmore : ¬ s.queue.length + unsent s + 3 ≤ maxmsg := hC
    apply reaches_deadlock_of_full
    · rw [hq]
      omega
    · rw [hq, hun]
      omega
  | run i =>
    obtain ⟨hr, hsome⟩ : s.runs[i]? = some (.send 0) ∧ awaited s ≠ 0 := Classical.not_imp.mp hC
    have hc := counts_of_pc hs hr
    apply reaches_deadlock_of_empty
    rw [hc.queue, hc.awaited]
    omega
  | kill i => exact absurd trivial hC

/-! ## Whole runs -/

/-- **No deadlock in the runs whose steps are all careful**, while one careless step is enough for
careful ones to reach a deadlock, with the runs that there are. -/
theorem deadlock_free_of_careful (maxmsg : ℕ) (as : List MqAct) (s : MqState)
    (h : exec (mqStep maxmsg) mqInit as = some s)
    (hC : AlongSteps (mqStep maxmsg) (Careful maxmsg) mqInit as) :
    ¬ Deadlocked maxmsg s ∧
      ∀ a s', mqStep maxmsg s a = some s' → ¬ Careful maxmsg s a →
        ∃ t, Drifts maxmsg s' t ∧ Deadlocked maxmsg t := by
  have hroomy : Roomy maxmsg s := exec_invariant_along (Careful maxmsg) (Roomy maxmsg)
    (roomy_mqStep maxmsg) h hC (roomy_init maxmsg)
  exact ⟨roomy_not_deadlocked hroomy, fun a s' hs hcare =>
    reaches_deadlock_of_careless hroomy hcare hs⟩

/-- Run 1 is killed between its messages, run 2 sends while run 0 receives. -/
def carefulRuns : List MqAct :=
  [.start, .start] ++ List.replicate 3 (.run 0) ++ List.replicate 2 (.run 1) ++
    [.kill 1, .run 0, .start] ++ List.replicate 3 (.run 2) ++ List.replicate 2 (.run 0)

def afterCarefulRuns : MqState := ⟨List.replicate 6 msg, [.receive 3, .killed, .send 0]⟩

/-- If run 2 counts now, it counts messages that run 0 is going to receive. -/
theorem deadlock_free_of_careful_killed :
    ¬ Deadlocked defaultMaxmsg afterCarefulRuns ∧
      ∃ s', mqStep defaultMaxmsg afterCarefulRuns (.run 2) = some s' ∧
        ∃ t, Drifts defaultMaxmsg s' t ∧ Deadlocked defaultMaxmsg t := by
  obtain ⟨hfree, hcareless⟩ := deadlock_free_of_careful defaultMaxmsg carefulRuns afterCarefulRuns
    (by decide) (by decide)
  exact ⟨hfree, _, rfl, hcareless (.run 2) _ rfl (by decide)⟩

/-- Two runs count the same six messages; the first one receives them all. -/
def overlappingRuns : List MqAct :=
  [MqAct.start, MqAct.start] ++ List.replicate 3 (MqAct.run 0) ++ List.replicate 3 (MqAct.run 1) ++
    [MqAct.run 0, MqAct.run 1] ++ List.replicate 7 (MqAct.run 0)

theorem overlapping_runs_deadlock :
    ¬ ∀ as s, exec (mqStep defaultMaxmsg) mqInit as = some s → ¬ Deadlocked defaultMaxmsg s := by
  intro h
  apply h overlappingRuns ⟨[], [.closed, .receive 6]⟩ (by decide)
  refine ⟨1, .receive 6, rfl, rfl, ?_⟩
  intro j hj
  match j with
  | 0 => rfl
  | 1 => exact absurd rfl hj
  | j + 2 => rfl

end LinuxAppSamp.Queue
