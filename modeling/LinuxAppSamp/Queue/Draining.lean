import LinuxAppSamp.Queue.SystemV

/-! # Whether everything that is sent arrives

The queue has room for `cap` messages, `msgsnd` waits while there is none, and a process of
`msg_0send_rcv.c` sends all its messages before it receives any. `mains_exec` counts the calls of a
run, and `all_delivered_iff` says for how many processes no run ends in a deadlock.
-/

namespace LinuxAppSamp.Queue.SystemV
open Execution Net
set_option autoImplicit false
set_option maxHeartbeats 250000

/-! ## Processes of `msg_0send_rcv.c` alone -/

abbrev State : Type := Net Point Msgbuf Line

/-- A process is started, or makes its next call. -/
def MainAct (a : NetAct Point) : Prop :=
  (∃ d, 0 < d.mType ∧ a = .start (.strcpy 0 d)) ∨ ∃ i, a = .run i

def IsMain : Point → Prop
  | .strcpy k _ => k < 3
  | .msgsnd k _ => k < 3
  | .msgrcv _ => True
  | .printf _ => True
  | _ => False

def sentBy : Option Point → ℕ
  | some (.strcpy k _) => k
  | some (.msgsnd k _) => k
  | some _ => 3
  | none => 0

def pending : Option Point → ℕ
  | some (.printf _) => 1
  | _ => 0

/-- The calls that are left, those for the reception of its messages included. -/
def callsLeft : Option Point → ℕ
  | some (.strcpy k _) => 4 * (3 - k)
  | some (.msgsnd k _) => 4 * (3 - k) - 1
  | some (.printf _) => 1
  | _ => 0

def potential (s : State) : ℕ := tally callsLeft s.tasks + 2 * s.queue.length

structure Mains (cap : ℕ) (s : State) : Prop where
  informed : Informed Start Valid Knows s
  conserved : Conserved cap s
  mains : ∀ (i : ℕ) (x : Option Point), s.tasks[i]? = some x → ∃ p, x = some p ∧ IsMain p
  sent : tally sentBy s.tasks = s.sent.length
  shown : s.out.length + tally pending s.tasks = s.received.length

theorem mains_empty (cap : ℕ) : Mains cap empty where
  informed := informed_empty
  conserved := conserved_empty cap
  mains := fun _ _ hx => by cases hx
  sent := rfl
  shown := rfl

/-- What a process can do, and what it means for the sums. -/
structure Calls (p p' : Point) (queue queue' gave got : List Msgbuf) (told : List Line) : Prop where
  main : IsMain p'
  sent : sentBy (some p') = sentBy (some p) + gave.length
  shown : told.length + pending (some p') = pending (some p) + got.length
  left : callsLeft (some p') + 2 * queue'.length + 1 = callsLeft (some p) + 2 * queue.length

theorem calls_go {c : Role} {p p' : Point} {lines : List Line} {gave got : List Msgbuf}
    {told : List Line} (hmain : IsMain p) (hk : Knows c p gave got told) (hn : next p = .go p' lines) (queue : List Msgbuf) :
    Calls p p' queue queue [] [] lines := by
  cases p with
  | strcpy k d =>
    have hturn : k < 3 := hmain
    obtain ⟨d', hcopy, -⟩ := copied_eq d (getD_mem_texts hturn) (.msgsnd k)
    cases hcopy.symm.trans hn
    refine ⟨hmain, rfl, rfl, ?_⟩
    simp only [callsLeft]
    omega
  | printf d =>
    cases (printed_eq hk.2.1.ended _ _).symm.trans hn
    refine ⟨trivial, rfl, rfl, ?_⟩
    simp only [callsLeft]
    omega
  | msgsnd k d => cases hn
  | msgrcv d => cases hn
  | _ => cases hmain

theorem calls_send {p p' : Point} {m : Msgbuf} (hmain : IsMain p) (hn : next p = .send m p')
    (queue : List Msgbuf) : Calls p p' queue (queue ++ [m]) [m] [] [] := by
  obtain ⟨k, rfl, rfl⟩ | ⟨loop, rfl, -⟩ := next_send hn
  · have hturn : k < 3 := hmain
    by_cases hmore : k < 2
    · rw [if_pos hmore]
      have hnext : k + 1 < 3 := by omega
      refine ⟨hnext, rfl, rfl, ?_⟩
      simp only [callsLeft, List.length_append, List.length_singleton]
      omega
    · rw [if_neg hmore]
      have hlast : 3 = k + 1 := by omega
      refine ⟨trivial, hlast, rfl, ?_⟩
      simp only [callsLeft, List.length_append, List.length_singleton]
      omega
  · cases hmain

theorem calls_receive {p : Point} {f : Msgbuf → Point} (m : Msgbuf) (rest : List Msgbuf) (hmain : IsMain p)
    (hn : next p = .receive f) : Calls p (f m) (m :: rest) rest [] [m] [] := by
  obtain ⟨d, rfl, rfl⟩ | ⟨d, rfl, -⟩ := next_receive hn
  · refine ⟨trivial, rfl, rfl, ?_⟩
    simp only [callsLeft, List.length_cons]
    omega
  · cases hmain

/-- A process that makes a call keeps all sums, and lowers the potential by one. -/
theorem mains_after {cap i : ℕ} {s : State} {p p' : Point} {queue gave got : List Msgbuf} {told : List Line}
    (h : Mains cap s) (hp : s.live i = some p)
    (hI : Informed Start Valid Knows (s.after i (some p') queue gave got told))
    (hc : Conserved cap (s.after i (some p') queue gave got told))
    (hcalls : Calls p p' s.queue queue gave got told) :
    Mains cap (s.after i (some p') queue gave got told) ∧
      potential (s.after i (some p') queue gave got told) + 1 = potential s := by
  have hsent := tally_after sentBy hp (some p') queue gave got told
  have hpending := tally_after pending hp (some p') queue gave got told
  have hleft := tally_after callsLeft hp (some p') queue gave got told
  refine ⟨⟨hI, hc, fun j x hx => ?_, ?_, ?_⟩, ?_⟩
  · obtain ⟨-, rfl⟩ | ⟨-, hx⟩ := entry_set_cases hx
    · exact ⟨p', rfl, hcalls.main⟩
    · exact h.mains j x hx
  · have hold := h.sent
    have hnew := hcalls.sent
    have hlog : (s.after i (some p') queue gave got told).sent.length = s.sent.length + gave.length := by
      simp [after]
    omega
  · have hold := h.shown
    have hnew := hcalls.shown
    have hlog : (s.after i (some p') queue gave got told).out.length = s.out.length + told.length := by
      simp [after]
    have hlog' : (s.after i (some p') queue gave got told).received.length =
        s.received.length + got.length := by
      simp [after]
    omega
  · have hnew := hcalls.left
    have hqueue : (s.after i (some p') queue gave got told).queue.length = queue.length := rfl
    rw [potential, potential, hqueue]
    omega

theorem mains_run {cap i : ℕ} {s t : State} (h : Mains cap s) (hstep : step next cap s (.run i) = some t) :
    Mains cap t ∧ t.tasks.length = s.tasks.length ∧ potential t + 1 = potential s := by
  have hI := protocol.step h.informed (fun p hp => by cases hp) hstep
  have hc := conserved_step h.conserved hstep
  have hmain : ∀ {p}, s.live i = some p → IsMain p := by
    intro p hp
    obtain ⟨q, hq, hmain⟩ := h.mains i _ (live_eq_some.mp hp)
    cases hq
    exact hmain
  cases steps_of_step hstep with
  | go _ p p' lines hp hn =>
    obtain ⟨_, -, hk⟩ := h.informed.of_live hp
    obtain ⟨hM, hpot⟩ := mains_after h hp hI hc (calls_go (hmain hp) hk hn s.queue)
    exact ⟨hM, List.length_set, hpot⟩
  | count _ p f hp hn =>
    obtain ⟨d, rfl, -⟩ := next_count hn
    exact (hmain hp).elim
  | send _ p p' m hp hn hroom =>
    obtain ⟨hM, hpot⟩ := mains_after h hp hI hc (calls_send (hmain hp) hn s.queue)
    exact ⟨hM, List.length_set, hpot⟩
  | receive _ p f m rest hp hn hq =>
    have hcalls := calls_receive m rest (hmain hp) hn
    rw [← hq] at hcalls
    obtain ⟨hM, hpot⟩ := mains_after h hp hI hc hcalls
    exact ⟨hM, List.length_set, hpot⟩

theorem mains_start {cap : ℕ} {s t : State} {d : Msgbuf} (h : Mains cap s) (hpid : 0 < d.mType)
    (hstep : step next cap s (.start (.strcpy 0 d)) = some t) :
    Mains cap t ∧ t.tasks.length = s.tasks.length + 1 ∧ potential t = potential s + 12 := by
  have hI := protocol.step h.informed (fun p hp => by cases hp; exact ⟨_, .main d hpid⟩) hstep
  have hc := conserved_step h.conserved hstep
  cases Option.some.inj hstep
  refine ⟨⟨hI, hc, fun j x hx => ?_, ?_, ?_⟩, List.length_append, ?_⟩
  · obtain ⟨-, hx⟩ | ⟨-, rfl⟩ := entry_snoc_cases hx
    · exact h.mains j x hx
    · exact ⟨_, rfl, Nat.zero_lt_succ 2⟩
  · exact (tally_snoc sentBy s.tasks _).trans h.sent
  · show s.out.length + tally pending (s.tasks ++ [_]) = s.received.length
    rw [tally_snoc]
    exact h.shown
  · show tally callsLeft (s.tasks ++ [_]) + 2 * s.queue.length = _
    rw [tally_snoc, potential]
    simp only [callsLeft]
    omega

/-- A process makes twelve calls, and a run is as long as the calls that have been made. -/
theorem mains_exec {cap : ℕ} {s t : State} {as : List (NetAct Point)} (h : exec (step next cap) s as = some t)
    (has : ∀ a ∈ as, MainAct a) (hs : Mains cap s) :
    Mains cap t ∧ potential t + as.length + 13 * s.tasks.length = potential s + 13 * t.tasks.length := by
  induction as generalizing s with
  | nil =>
    cases Option.some.inj h
    exact ⟨hs, rfl⟩
  | cons a as ih =>
    obtain ⟨u, hu, hrun⟩ := exec_cons_inv h
    obtain ⟨ha, hrest⟩ := List.forall_mem_cons.mp has
    rw [List.length_cons]
    obtain ⟨d, hpid, rfl⟩ | ⟨i, rfl⟩ := ha
    · obtain ⟨hM, hlen, hpot⟩ := mains_start hs hpid hu
      obtain ⟨hM', hsum⟩ := ih hrun hrest hM
      exact ⟨hM', by omega⟩
    · obtain ⟨hM, hlen, hpot⟩ := mains_run hs hu
      obtain ⟨hM', hsum⟩ := ih hrun hrest hM
      exact ⟨hM', by omega⟩

/-! ## Deadlock -/

/-- All messages have been received and printed, and every process waits for more. -/
structure Delivered (n : ℕ) (s : State) : Prop where
  queue : s.queue = []
  sent : s.sent.length = 3 * n
  shown : s.out.length = 3 * n
  waits : ∀ x ∈ s.tasks, ∃ d, x = some (.msgrcv d)

/-- A process that cannot go on waits in `msgsnd` for room, or in `msgrcv` for a message. -/
theorem Mains.waits {cap i : ℕ} {s : State} {p : Point} (h : Mains cap s) (hp : s.live i = some p)
    (hstuck : step next cap s (.run i) = none) :
    (∃ k d, p = .msgsnd k d ∧ k < 3 ∧ cap ≤ s.queue.length) ∨ ∃ d, p = .msgrcv d ∧ s.queue = [] := by
  obtain ⟨q, hq, hmain⟩ := h.mains i _ (live_eq_some.mp hp)
  cases hq
  obtain hn | ⟨m, p', hn, hfull⟩ | ⟨f, hn, hempty⟩ := run_none_iff.mp hstuck p hp
  · obtain rfl | rfl := next_stop hn
    · exact hmain.elim
    · exact hmain.elim
  · obtain ⟨k, rfl, -⟩ | ⟨loop, rfl, -⟩ := next_send hn
    · exact Or.inl ⟨k, m, rfl, hmain, hfull⟩
    · exact hmain.elim
  · obtain ⟨d, rfl, -⟩ | ⟨d, rfl, -⟩ := next_receive hn
    · exact Or.inr ⟨d, rfl, hempty⟩
    · exact hmain.elim

theorem Mains.live_of_mem {cap : ℕ} {s : State} {x : Option Point} (h : Mains cap s) (hx : x ∈ s.tasks) :
    ∃ i p, s.live i = some p ∧ x = some p := by
  obtain ⟨i, hi⟩ := List.mem_iff_getElem?.mp hx
  obtain ⟨p, rfl, -⟩ := h.mains i x hi
  exact ⟨i, p, live_eq_some.mpr hi, rfl⟩

/-- If one process waits in `msgsnd`, all do, and then there are two messages of each at most. -/
theorem Mains.full_le {cap i k : ℕ} {s : State} {d : Msgbuf} (h : Mains cap s) (hcap : 0 < cap)
    (hstuck : ∀ i, step next cap s (.run i) = none) (hp : s.live i = some (.msgsnd k d)) :
    cap ≤ s.tasks.length * 2 := by
  have hfull : cap ≤ s.queue.length := by
    obtain ⟨k', d', -, -, hfull⟩ | ⟨d', heq, -⟩ := h.waits hp (hstuck i)
    · exact hfull
    · cases heq
  have hle : tally sentBy s.tasks ≤ s.tasks.length * 2 := by
    refine tally_le sentBy 2 s.tasks fun x hx => ?_
    obtain ⟨j, p, hj, rfl⟩ := h.live_of_mem hx
    obtain ⟨k', d', rfl, hk, -⟩ | ⟨d', rfl, hempty⟩ := h.waits hj (hstuck j)
    · exact Nat.le_of_lt_succ hk
    · rw [hempty] at hfull
      exact absurd hcap (Nat.not_lt.mpr hfull)
  have hsent := congrArg List.length h.conserved.sent
  rw [List.length_append, List.length_map, List.length_map, ← h.sent] at hsent
  omega

theorem Mains.delivered {cap : ℕ} {s : State} (h : Mains cap s)
    (hwaits : ∀ x ∈ s.tasks, ∃ d, x = some (.msgrcv d)) (hempty : s.queue = []) :
    Delivered s.tasks.length s := by
  have hsent : s.sent.length = 3 * s.tasks.length := by
    rw [← h.sent, Nat.mul_comm]
    refine tally_const sentBy 3 s.tasks fun x hx => ?_
    obtain ⟨d, rfl⟩ := hwaits x hx
    rfl
  have hpending : tally pending s.tasks = 0 := by
    refine (tally_const pending 0 s.tasks fun x hx => ?_).trans (Nat.mul_zero _)
    obtain ⟨d, rfl⟩ := hwaits x hx
    rfl
  have hshown := h.shown
  have hlog := congrArg List.length h.conserved.sent
  rw [List.length_append, List.length_map, List.length_map, hempty] at hlog
  simp only [List.length_nil] at hlog
  exact ⟨hempty, hsent, by omega, hwaits⟩

theorem Mains.queue_nil {cap : ℕ} {s : State} (h : Mains cap s) (hnone : s.tasks = []) : s.queue = [] := by
  have hlog := congrArg List.length h.conserved.sent
  rw [List.length_append, List.length_map, List.length_map, ← h.sent, hnone] at hlog
  have hzero : tally sentBy [] = 0 := rfl
  exact List.length_eq_zero_iff.mp (by omega)

theorem delivered_of_room {cap : ℕ} {s : State} (h : Mains cap s)
    (hstuck : ∀ i, step next cap s (.run i) = none) (hroom : s.tasks.length = 0 ∨ 2 * s.tasks.length < cap) :
    Delivered s.tasks.length s := by
  by_cases hnil : s.tasks = []
  · exact h.delivered (by rw [hnil]; simp) (h.queue_nil hnil)
  · have hpos := List.length_pos_iff.mpr hnil
    have hmsgrcv : ∀ i p, s.live i = some p → (∃ d, p = .msgrcv d) ∧ s.queue = [] := by
      intro i p hp
      obtain ⟨k, d, rfl, -, -⟩ | ⟨d, rfl, hempty⟩ := h.waits hp (hstuck i)
      · have hle := h.full_le (by omega) hstuck hp
        omega
      · exact ⟨⟨d, rfl⟩, hempty⟩
    obtain ⟨x, hx⟩ := List.exists_mem_of_ne_nil _ hnil
    obtain ⟨i, p, hp, -⟩ := h.live_of_mem hx
    refine h.delivered (fun y hy => ?_) (hmsgrcv i p hp).2
    obtain ⟨j, q, hq, rfl⟩ := h.live_of_mem hy
    obtain ⟨⟨d, rfl⟩, -⟩ := hmsgrcv j q hq
    exact ⟨d, rfl⟩

theorem live_last {s : State} {l : List (Option Point)} {p : Point} (h : s.tasks = l ++ [some p]) :
    s.live l.length = some p := by
  rw [live_eq_some, h, List.getElem?_concat_length]

theorem tasks_after_last {s : State} {l : List (Option Point)} {x : Option Point} (h : s.tasks = l ++ [x])
    (y : Option Point) (queue gave got : List Msgbuf) (told : List Line) :
    (s.after l.length y queue gave got told).tasks = l ++ [y] := by
  rw [after, h, List.set_append_right _ _ (Nat.le_refl _), Nat.sub_self, List.set_cons_zero]

theorem step_strcpy (cap : ℕ) {s : State} {l : List (Option Point)} {k : ℕ} {d : Msgbuf} (hk : k < 3)
    (h : s.tasks = l ++ [some (.strcpy k d)]) :
    ∃ t d', step next cap s (.run l.length) = some t ∧ t.tasks = l ++ [some (.msgsnd k d')] ∧
      t.queue = s.queue := by
  obtain ⟨d', hcopy, -⟩ := copied_eq d (getD_mem_texts hk) (.msgsnd k)
  have hn : next (.strcpy k d) = .go (.msgsnd k d') [] := hcopy
  refine ⟨_, d', (step_run (live_last h)).trans (by rw [hn, perform]), tasks_after_last h _ _ _ _ _, rfl⟩

theorem step_msgsnd {cap : ℕ} {s : State} {l : List (Option Point)} {k : ℕ} {d : Msgbuf} (hk : k < 2)
    (h : s.tasks = l ++ [some (.msgsnd k d)]) (hroom : s.queue.length < cap) :
    ∃ t, step next cap s (.run l.length) = some t ∧ t.tasks = l ++ [some (.strcpy (k + 1) d)] ∧
      t.queue.length = s.queue.length + 1 := by
  have hn : next (.msgsnd k d) = .send d (.strcpy (k + 1) d) := by rw [next, if_pos hk]
  have hstep : step next cap s (.run l.length) =
      some (s.after l.length (some (.strcpy (k + 1) d)) (s.queue ++ [d]) [d] [] []) := by
    rw [step_run (live_last h), hn]
    exact if_pos hroom
  exact ⟨_, hstep, tasks_after_last h _ _ _ _ _, List.length_append⟩

/-- The last process sends what it may send without receiving, as long as there is room. -/
theorem sends_more (cap : ℕ) (l : List (Option Point)) (j : ℕ) {k : ℕ} {d : Msgbuf} {s : State}
    (hk : k + j = 2)
    (h : s.tasks = l ++ [some (.msgsnd k d)]) (hroom : s.queue.length ≤ cap) :
    ∃ as t k' d', (∀ a ∈ as, MainAct a) ∧ exec (step next cap) s as = some t ∧
      t.tasks = l ++ [some (.msgsnd k' d')] ∧ t.queue.length = min cap (s.queue.length + j) := by
  induction j generalizing k d s with
  | zero => exact ⟨[], s, k, d, by simp, rfl, h, (Nat.min_eq_right hroom).symm⟩
  | succ j ih =>
    by_cases hfull : s.queue.length = cap
    · exact ⟨[], s, k, d, by simp, rfl, h, by omega⟩
    · have hroom' : s.queue.length < cap := by omega
      have hturn : k + 1 < 3 := by omega
      obtain ⟨t, ht, htasks, hqueue⟩ := step_msgsnd (by omega) h hroom'
      obtain ⟨u, d', hu, hutasks, huqueue⟩ := step_strcpy cap hturn htasks
      rw [← huqueue] at hqueue
      obtain ⟨as, v, k', d'', has, hrun, hvtasks, hvqueue⟩ := ih (by omega) hutasks (by omega)
      refine ⟨.run l.length :: .run l.length :: as, v, k', d'', ?_, ?_, hvtasks, by omega⟩
      · exact List.forall_mem_cons.mpr ⟨Or.inr ⟨_, rfl⟩, List.forall_mem_cons.mpr ⟨Or.inr ⟨_, rfl⟩, has⟩⟩
      · rw [exec_cons_eq ht, exec_cons_eq hu, hrun]

/-- The processes fill the queue before any of them receives. -/
theorem reaches_full (cap n : ℕ) :
    ∃ as s, (∀ a ∈ as, MainAct a) ∧ exec (step next cap) empty as = some s ∧ s.tasks.length = n ∧
      s.queue.length = min cap (2 * n) ∧ ∀ x ∈ s.tasks, ∃ k d, x = some (.msgsnd k d) := by
  induction n with
  | zero => exact ⟨[], empty, by simp, rfl, rfl, (Nat.min_eq_right (Nat.zero_le cap)).symm, by simp [empty]⟩
  | succ n ih =>
    obtain ⟨as, s, has, hrun, hlen, hqueue, hsending⟩ := ih
    obtain ⟨t, d, ht, htasks, htqueue⟩ :=
      @step_strcpy cap
        { s with tasks := s.tasks ++ [some (.strcpy 0 onStack)], started := s.started ++ [.strcpy 0 onStack] }
        s.tasks 0 onStack (by decide) rfl
    obtain ⟨bs, u, k, d', hbs, hrun', hutasks, huqueue⟩ := sends_more cap s.tasks 2 rfl htasks
      (by rw [htqueue]; exact hqueue ▸ Nat.min_le_left _ _)
    refine ⟨as ++ (.start (.strcpy 0 onStack) :: .run s.tasks.length :: bs), u, ?_, ?_, ?_, ?_, ?_⟩
    · intro a ha
      simp only [List.mem_append, List.mem_cons] at ha
      obtain ha | rfl | rfl | ha := ha
      · exact has a ha
      · exact Or.inl ⟨onStack, by decide, rfl⟩
      · exact Or.inr ⟨_, rfl⟩
      · exact hbs a ha
    · rw [exec_append, hrun, Option.bind_some, exec, step, Option.bind_some, exec_cons_eq ht, hrun']
    · rw [hutasks, List.length_append, hlen, List.length_singleton]
    · rw [huqueue, htqueue, hqueue]
      omega
    · intro x hx
      rw [hutasks] at hx
      obtain hx | hx := List.mem_append.mp hx
      · exact hsending x hx
      · exact ⟨k, d', List.mem_singleton.mp hx⟩

/-- All `n` processes wait in `msgsnd` for room that nobody makes. -/
structure Jammed (cap n : ℕ) (s : State) : Prop where
  number : s.tasks.length = n
  full : s.queue.length = cap
  waits : ∀ x ∈ s.tasks, ∃ k d, x = some (.msgsnd k d)
  stuck : ∀ i, step next cap s (.run i) = none

/-- Once they have filled the queue, none of them can go on. -/
theorem reaches_jammed {cap n : ℕ} (hfull : cap ≤ 2 * n) :
    ∃ as s, (∀ a ∈ as, MainAct a) ∧ exec (step next cap) empty as = some s ∧ Jammed cap n s := by
  obtain ⟨as, s, has, hrun, hlen, hqueue, hsending⟩ := reaches_full cap n
  refine ⟨as, s, has, hrun, hlen, by omega, hsending, fun i => ?_⟩
  refine run_none_iff.mpr fun p hp => ?_
  obtain ⟨k, d, hx⟩ := hsending _ (List.mem_of_getElem? (live_eq_some.mp hp))
  cases hx
  exact Or.inr (Or.inl ⟨d, _, rfl, by omega⟩)

theorem Jammed.not_delivered {cap n : ℕ} {s : State} (h : Jammed cap n s) (hn : 0 < n) :
    ¬ Delivered n s := by
  intro hall
  have hlen := h.number
  obtain ⟨x, hx⟩ := List.exists_mem_of_length_pos (l := s.tasks) (by omega)
  obtain ⟨k, d, rfl⟩ := h.waits x hx
  obtain ⟨d', hd'⟩ := hall.waits _ hx
  cases hd'

/-- **Delivery.** Runs of `n` processes of `msg_0send_rcv.c` have at most 13 steps for each of them, and
where none of the processes can go on everything has been delivered, in every run, exactly if the queue has room
for more than two messages of each. Otherwise all of them can be stuck in `msgsnd`. -/
theorem all_delivered_iff (cap n : ℕ) :
    (∀ as s, exec (step next cap) empty as = some s → (∀ a ∈ as, MainAct a) → s.tasks.length = n →
      as.length ≤ 13 * n) ∧
    ((∀ as s, exec (step next cap) empty as = some s → (∀ a ∈ as, MainAct a) → s.tasks.length = n →
      (∀ i, step next cap s (.run i) = none) → Delivered n s) ↔ n = 0 ∨ 2 * n < cap) ∧
    (0 < n → cap ≤ 2 * n →
      ∃ as s, (∀ a ∈ as, MainAct a) ∧ exec (step next cap) empty as = some s ∧ Jammed cap n s) := by
  refine ⟨fun as s hrun has hn => ?_, ⟨fun h => ?_, fun h as s hrun has hn hstuck => ?_⟩,
    fun _ hfull => reaches_jammed hfull⟩
  · obtain ⟨-, hsum⟩ := mains_exec hrun has (mains_empty cap)
    have hzero : potential empty + 13 * (empty : State).tasks.length = 0 := rfl
    omega
  · by_contra hfull
    obtain ⟨as, s, has, hrun, hjam⟩ := @reaches_jammed cap n (by omega)
    exact hjam.not_delivered (by omega) (h as s hrun has hjam.number hjam.stuck)
  · obtain ⟨hM, -⟩ := mains_exec hrun has (mains_empty cap)
    rw [← hn] at h ⊢
    exact delivered_of_room hM hstuck h

end LinuxAppSamp.Queue.SystemV
