import LinuxAppSamp.Queue.SystemV

/-! # `recv_func` of `msg_1thread_send_rcv.c`

`recv_func` looks with `msgctl` and receives only when it has seen a message.

* `check_suffices_iff`: this keeps it from waiting in `msgrcv` exactly if nobody else receives;
* `delivers`: as long as one `recv_func` lives, everything can be delivered, whatever has happened.
-/

namespace LinuxAppSamp.Queue.SystemV
open Execution Net
set_option autoImplicit false
set_option maxHeartbeats 250000

/-! ## Looking before receiving -/

/-- The tasks that receive: processes of `msg_0send_rcv.c` and threads in `recv_func`. -/
def receives : Option Point → ℕ
  | some (.strcpy _ _) => 1
  | some (.msgsnd _ _) => 1
  | some (.msgrcv _) => 1
  | some (.printf _) => 1
  | some (.recvFunc _) => 1
  | some (.recvStat _) => 1
  | some (.recvMsgrcv _) => 1
  | some (.recvPrint _) => 1
  | _ => 0

def startsReceiver : NetAct Point → ℕ
  | .start p => receives (some p)
  | _ => 0

/-- No `recv_func` waits in `msgrcv`. -/
def Watched (s : Net Point Msgbuf Line) : Prop :=
  ∀ i d, s.live i = some (.recvMsgrcv d) → s.queue ≠ []

theorem copied_inv {d : Msgbuf} {text : List UInt8} {p : Msgbuf → Point} {q : Point} {lines : List Line}
    (h : copied d text p = .go q lines) : (∃ d', q = p d') ∨ q = .crashed := by
  unfold copied at h
  split at h
  · cases h
    exact Or.inl ⟨_, rfl⟩
  · cases h
    exact Or.inr rfl

theorem printed_inv {d : Msgbuf} {line : ℤ → List UInt8 → Line} {p q : Point} {lines : List Line}
    (h : printed d line p = .go q lines) : q = p ∨ q = .crashed := by
  unfold printed at h
  split at h
  · cases h
    exact Or.inl rfl
  · cases h
    exact Or.inr rfl

/-- Nobody gets to `msgrcv` of `recv_func`, or becomes a receiver, by what it does alone. -/
theorem go_quiet {p p' : Point} {lines : List Line} (h : next p = .go p' lines) :
    (∀ d, p' ≠ .recvMsgrcv d) ∧ receives (some p') ≤ receives (some p) := by
  cases p with
  | strcpy k d =>
    obtain ⟨d', rfl⟩ | rfl := copied_inv h
    · exact ⟨fun d => by simp, Nat.le_refl 1⟩
    · exact ⟨fun d => by simp, Nat.zero_le 1⟩
  | printf d =>
    obtain rfl | rfl := printed_inv h
    · exact ⟨fun d => by simp, Nat.le_refl 1⟩
    · exact ⟨fun d => by simp, Nat.zero_le 1⟩
  | sendFunc d =>
    cases h
    exact ⟨fun d => by simp, Nat.le_refl 0⟩
  | sendLoop loop d =>
    by_cases hloop : loop < 5
    · obtain ⟨d', rfl⟩ | rfl := copied_inv ((if_pos hloop).symm.trans h)
      · exact ⟨fun d => by simp, Nat.le_refl 0⟩
      · exact ⟨fun d => by simp, Nat.le_refl 0⟩
    · cases (if_neg hloop).symm.trans h
      exact ⟨fun d => by simp, Nat.le_refl 0⟩
  | sendPrint loop d =>
    cases h
    exact ⟨fun d => by simp, Nat.le_refl 0⟩
  | recvFunc d =>
    cases h
    exact ⟨fun d => by simp, Nat.le_refl 1⟩
  | recvPrint d =>
    obtain rfl | rfl := printed_inv h
    · exact ⟨fun d => by simp, Nat.le_refl 1⟩
    · exact ⟨fun d => by simp, Nat.zero_le 1⟩
  | _ => cases h

theorem receives_looked (d : Msgbuf) (n : ℕ) : receives (some (looked d n)) = 1 := by
  rw [looked]
  split <;> rfl

theorem receives_step {cap : ℕ} {s t : Net Point Msgbuf Line} {a : NetAct Point}
    (h : step next cap s a = some t) : tally receives t.tasks ≤ tally receives s.tasks + startsReceiver a := by
  have hmoves : ∀ {i p x queue gave got told}, s.live i = some p → receives x ≤ receives (some p) →
      tally receives (s.after i x queue gave got told).tasks ≤ tally receives s.tasks := by
    intro i p x queue gave got told hp hle
    have hsum := tally_after receives hp x queue gave got told
    omega
  cases steps_of_step h with
  | start p =>
    show tally receives (s.tasks ++ [some p]) ≤ _
    rw [tally_snoc]
    exact Nat.le_refl _
  | go i p p' lines hp hn => exact hmoves hp (go_quiet hn).2
  | count i p f hp hn =>
    obtain ⟨d, rfl, rfl⟩ := next_count hn
    exact hmoves hp (receives_looked d _).le
  | send i p p' m hp hn hroom =>
    apply hmoves hp
    obtain ⟨k, rfl, rfl⟩ | ⟨loop, rfl, rfl⟩ := next_send hn
    · split <;> exact Nat.le_refl 1
    · exact Nat.le_refl 0
  | receive i p f m rest hp hn hq =>
    apply hmoves hp
    obtain ⟨d, rfl, rfl⟩ | ⟨d, rfl, rfl⟩ := next_receive hn
    · exact Nat.le_refl 1
    · exact Nat.le_refl 1
  | kill i p hp => exact hmoves hp (Nat.zero_le _)

/-- A message that `recv_func` has seen can be taken away only by another receiver. -/
theorem watched_step {cap : ℕ} {s t : Net Point Msgbuf Line} {a : NetAct Point} (h : Watched s)
    (ha : ∀ p, a = .start p → ∃ c, Start c p) (hone : s.queue = [] ∨ tally receives s.tasks ≤ 1)
    (hstep : step next cap s a = some t) : Watched t := by
  intro j e hj
  cases steps_of_step hstep with
  | start p =>
    obtain ⟨-, hj⟩ | ⟨-, hj⟩ := entry_snoc_cases (live_eq_some.mp hj)
    · exact h j e (live_eq_some.mpr hj)
    · cases hj
      obtain ⟨_, hstart⟩ := ha _ rfl
      cases hstart
  | go i p p' lines hp hn =>
    obtain ⟨-, hx⟩ | ⟨-, hj⟩ := live_after_cases hp hj
    · exact absurd (Option.some.inj hx) ((go_quiet hn).1 e)
    · exact h j e hj
  | count i p f hp hn =>
    obtain ⟨-, hx⟩ | ⟨-, hj⟩ := live_after_cases hp hj
    · obtain ⟨d, rfl, rfl⟩ := next_count hn
      intro hempty
      have hzero : s.queue.length = 0 := List.length_eq_zero_iff.mpr hempty
      rw [looked, if_pos hzero] at hx
      cases hx
    · exact h j e hj
  | send i p p' m hp hn hroom => exact List.append_ne_nil_of_right_ne_nil _ (List.cons_ne_nil m [])
  | receive i p f m rest hp hn hq =>
    obtain ⟨-, hx⟩ | ⟨hij, hj⟩ := live_after_cases hp hj
    · obtain ⟨d, rfl, rfl⟩ | ⟨d, rfl, rfl⟩ := next_receive hn <;> cases hx
    · obtain hempty | hone := hone
      · rw [hempty] at hq
        cases hq
      · have htwo := add_le_tally receives s.tasks i j _ _ (live_eq_some.mp hp) (live_eq_some.mp hj) hij
        have hfirst : receives (some p) = 1 := by
          obtain ⟨d, rfl, -⟩ | ⟨d, rfl, -⟩ := next_receive hn <;> rfl
        have hsecond : receives (some (.recvMsgrcv e)) = 1 := rfl
        omega
  | kill i p hp =>
    obtain ⟨-, hx⟩ | ⟨-, hj⟩ := live_after_cases hp hj
    · cases hx
    · exact h j e hj

theorem watched_run {cap : ℕ} {s t : Net Point Msgbuf Line} {as : List (NetAct Point)}
    (h : exec (step next cap) s as = some t) (has : ∀ p, .start p ∈ as → ∃ c, Start c p)
    (hs : Watched s) (hc : Conserved cap s) (hone : cap = 0 ∨ tally receives s.tasks + tally startsReceiver as ≤ 1) :
    Watched t := by
  induction as generalizing s with
  | nil =>
    cases Option.some.inj h
    exact hs
  | cons a as ih =>
    obtain ⟨u, hu, h⟩ := exec_cons_inv h
    rw [tally_cons] at hone
    have hcount := receives_step hu
    refine ih h (fun p hp => has p (List.mem_cons_of_mem a hp)) (watched_step hs (fun p hp => has p ?_) ?_ hu)
      (conserved_step hc hu) ?_
    · rw [hp]
      exact List.mem_cons_self
    · obtain rfl | hone := hone
      · exact Or.inl (List.length_eq_zero_iff.mp (Nat.le_zero.mp hc.room))
      · exact Or.inr (by omega)
    · obtain hzero | hone := hone
      · exact Or.inl hzero
      · exact Or.inr (by omega)

/-- Two threads see the same message, and one of them receives it. -/
def seenTwice : List (NetAct Point) :=
  [.start (.sendFunc onStack), .start (.recvFunc onStack), .start (.recvFunc onStack)] ++
    [0, 0, 0, 0, 1, 1, 2, 2, 1].map NetAct.run

def inMsgrcv : Option Point → Bool
  | some (.recvMsgrcv _) => true
  | _ => false

theorem starts_seenTwice : ∀ p, .start p ∈ seenTwice → ∃ c, Start c p := by
  intro p hp
  simp only [seenTwice, List.cons_append, List.nil_append, List.mem_cons, NetAct.start.injEq] at hp
  obtain rfl | rfl | rfl | hp := hp
  · exact ⟨_, .sendFunc onStack (by decide)⟩
  · exact ⟨_, .recvFunc 7 onStack⟩
  · exact ⟨_, .recvFunc 7 onStack⟩
  · simp at hp

theorem waits_seenTwice :
    ∃ s d, exec (step next 1) empty seenTwice = some s ∧ s.live 2 = some (.recvMsgrcv d) ∧ s.queue = [] := by
  obtain ⟨s, hs⟩ := Option.isSome_iff_exists.mp
    (show (exec (step next 1) empty seenTwice).isSome = true by decide +kernel)
  have hend : (exec (step next 1) empty seenTwice).map (fun s => (inMsgrcv (s.live 2), s.queue.length)) =
      some (true, 0) := by decide +kernel
  rw [hs, Option.map_some, Option.some.injEq, Prod.mk.injEq] at hend
  obtain ⟨hin, hempty⟩ := hend
  unfold inMsgrcv at hin
  split at hin
  · exact ⟨s, _, hs, ‹_›, List.length_eq_zero_iff.mp hempty⟩
  · cases hin

/-- **Looking before receiving.** With at most `r` tasks that receive, a `recv_func` never waits in
`msgrcv`, in any run of any programs started and killed at any time, exactly if `r` is at most one; a
queue without room apart. -/
theorem check_suffices_iff (cap r : ℕ) :
    (∀ as s, exec (step next cap) empty as = some s → (∀ p, .start p ∈ as → ∃ c, Start c p) →
      tally startsReceiver as ≤ r → ∀ i d, s.live i = some (.recvMsgrcv d) → s.queue ≠ []) ↔
    r ≤ 1 ∨ cap = 0 := by
  constructor
  · intro h
    by_contra hmore
    obtain ⟨s, d, hs, hd, hempty⟩ := waits_seenTwice
    have htwo : tally startsReceiver seenTwice = 2 := rfl
    exact h seenTwice s (exec_mono (by omega) hs) starts_seenTwice (by omega) 2 d hd hempty
  · intro h as s hrun has hr
    have hwatched : Watched empty := fun i d hd => by cases hd
    refine watched_run hrun has hwatched (conserved_empty cap) ?_
    have hzero : tally receives (empty : Net Point Msgbuf Line).tasks = 0 := rfl
    obtain h | h := h
    · exact Or.inr (by omega)
    · exact Or.inl h

/-! ## Delivery -/

/-- The calls that are left to a task; a message in the queue counts for three. -/
def cost : Option Point → ℕ
  | some (.strcpy k _) => 5 * (3 - k)
  | some (.msgsnd k _) => 5 * (3 - k) - 1
  | some (.printf _) => 1
  | some (.sendFunc _) => 32
  | some (.sendLoop loop _) => 6 * (5 - loop) + 1
  | some (.sendPrint loop _) => 6 * (5 - loop)
  | some (.sendMsgsnd loop _) => 6 * (5 - loop) - 1
  | some (.recvFunc _) => 2
  | some (.recvStat _) => 1
  | some (.recvPrint _) => 2
  | _ => 0

def work (s : Net Point Msgbuf Line) : ℕ := tally cost s.tasks + 3 * s.queue.length

def IsRecv : Point → Prop
  | .recvFunc _ => True
  | .recvStat _ => True
  | .recvMsgrcv _ => True
  | .recvPrint _ => True
  | _ => False

/-- The task has done all it has to do for the messages that there are. -/
def Idle : Point → Prop
  | .msgrcv _ => True
  | .sendEnd => True
  | .recvStat _ => True
  | .recvMsgrcv _ => True
  | _ => False

theorem cost_go {c : Role} {p p' : Point} {lines : List Line} {gave got : List Msgbuf}
    {told : List Line} (hk : Knows c p gave got told) (hn : next p = .go p' lines) :
    cost (some p') < cost (some p) ∧ (IsRecv p → IsRecv p') := by
  have hk' := knows_go hn hk
  cases p with
  | strcpy k d =>
    have hturn := hk.turn
    obtain ⟨d', rfl⟩ | rfl := copied_inv hn
    · refine ⟨?_, False.elim⟩
      simp only [cost]
      omega
    · exact hk'.elim
  | printf d =>
    obtain rfl | rfl := printed_inv hn
    · exact ⟨Nat.lt_succ_self 0, False.elim⟩
    · exact hk'.elim
  | sendFunc d =>
    cases hn
    exact ⟨Nat.lt_succ_self 31, False.elim⟩
  | sendLoop loop d =>
    by_cases hloop : loop < 5
    · obtain ⟨d', rfl⟩ | rfl := copied_inv ((if_pos hloop).symm.trans hn)
      · exact ⟨Nat.lt_succ_self _, False.elim⟩
      · exact hk'.elim
    · cases (if_neg hloop).symm.trans hn
      exact ⟨Nat.succ_pos _, False.elim⟩
  | sendPrint loop d =>
    cases hn
    have hloop := hk.2.1
    refine ⟨?_, False.elim⟩
    simp only [cost]
    omega
  | recvFunc d =>
    cases hn
    exact ⟨Nat.lt_succ_self 1, fun h => h⟩
  | recvPrint d =>
    obtain rfl | rfl := printed_inv hn
    · exact ⟨Nat.lt_succ_self 1, fun h => h⟩
    · exact hk'.elim
  | _ => cases hn

theorem cost_send {c : Role} {p p' : Point} {m : Msgbuf} {gave got : List Msgbuf} {told : List Line}
    (hk : Knows c p gave got told) (hn : next p = .send m p') :
    cost (some p') + 3 < cost (some p) ∧ ¬ IsRecv p := by
  obtain ⟨k, rfl, rfl⟩ | ⟨loop, rfl, rfl⟩ := next_send hn
  · have hturn := hk.1.turn
    refine ⟨?_, fun h => h⟩
    by_cases hmore : k < 2
    · rw [if_pos hmore]
      simp only [cost]
      omega
    · rw [if_neg hmore]
      simp only [cost]
      omega
  · have hturn := hk.1.turn
    refine ⟨?_, fun h => h⟩
    simp only [cost]
    omega

/-- The runs of the tasks that there are keep this. -/
structure Served (s : Net Point Msgbuf Line) : Prop where
  informed : Informed Start Valid Knows s
  recv : ∃ i p, s.live i = some p ∧ IsRecv p

theorem served_after {s : Net Point Msgbuf Line} {i : ℕ} {p p' : Point} {queue gave got : List Msgbuf}
    {told : List Line} (h : ∃ j q, s.live j = some q ∧ IsRecv q) (hp : s.live i = some p)
    (hkeeps : IsRecv p → IsRecv p') :
    ∃ j q, (s.after i (some p') queue gave got told).live j = some q ∧ IsRecv q := by
  obtain ⟨j, q, hq, hrecv⟩ := h
  by_cases hij : i = j
  · cases hij
    cases hp.symm.trans hq
    exact ⟨i, p', live_after_self hp _ _ _ _ _, hkeeps hrecv⟩
  · exact ⟨j, q, (live_after_ne hij _ _ _ _ _).trans hq, hrecv⟩

theorem work_after {s : Net Point Msgbuf Line} {i : ℕ} {p p' : Point} {queue gave got : List Msgbuf}
    {told : List Line} (hp : s.live i = some p)
    (hless : cost (some p') + 3 * queue.length < cost (some p) + 3 * s.queue.length) :
    work (s.after i (some p') queue gave got told) < work s := by
  have hsum := tally_after cost hp (some p') queue gave got told
  have hqueue : (s.after i (some p') queue gave got told).queue.length = queue.length := rfl
  rw [work, work, hqueue]
  omega

/-- A task that can go on alone, and then a `recv_func` that finds a message, and then a sender that
finds room: while one of them is left, a call lowers the work. -/
theorem served_lowers {cap : ℕ} (hcap : 0 < cap) (s : Net Point Msgbuf Line) (h : Served s)
    (hopen : ¬ (s.queue = [] ∧ ∀ j p, s.live j = some p → Idle p)) :
    ∃ a t, (∃ i, a = .run i) ∧ step next cap s a = some t ∧ Served t ∧ work t < work s := by
  have hmove : ∀ {i p p' queue gave got told}, s.live i = some p →
      step next cap s (.run i) = some (s.after i (some p') queue gave got told) → (IsRecv p → IsRecv p') →
      cost (some p') + 3 * queue.length < cost (some p) + 3 * s.queue.length →
      ∃ a t, (∃ i, a = .run i) ∧ step next cap s a = some t ∧ Served t ∧ work t < work s := by
    intro i p p' queue gave got told hp hstep hkeeps hless
    have hI := protocol.step h.informed (fun p hp => by cases hp) hstep
    exact ⟨.run i, _, ⟨i, rfl⟩, hstep, ⟨hI, served_after h.recv hp hkeeps⟩, work_after hp hless⟩
  by_cases halone : ∃ i p p' lines, s.live i = some p ∧ next p = .go p' lines
  · obtain ⟨i, p, p', lines, hp, hn⟩ := halone
    obtain ⟨_, -, hk⟩ := h.informed.of_live hp
    obtain ⟨hless, hkeeps⟩ := cost_go hk hn
    exact hmove hp ((step_run hp).trans (by rw [hn, perform])) hkeeps (by omega)
  · cases hq : s.queue with
    | cons m rest =>
      obtain ⟨i, p, hp, hrecv⟩ := h.recv
      cases p with
      | recvStat d =>
        have hstep : step next cap s (.run i) = some (s.after i (some (.recvMsgrcv d)) s.queue [] [] []) := by
          have hlooked : looked d s.queue.length = .recvMsgrcv d := by
            rw [hq]
            rfl
          rw [step_run hp, next, perform, hlooked]
        exact hmove hp hstep (fun h => h) (by simp only [cost]; omega)
      | recvMsgrcv d =>
        have hstep : step next cap s (.run i) = some (s.after i (some (.recvPrint m)) rest [] [m] []) := by
          simp only [step_run hp, next, perform, hq]
        refine hmove hp hstep (fun h => h) ?_
        rw [hq, List.length_cons]
        simp only [cost]
        omega
      | recvFunc d => exact absurd ⟨i, _, _, _, hp, rfl⟩ halone
      | recvPrint d =>
        obtain ⟨q, lines, hgo⟩ := printed_go d .recv (.recvStat d)
        exact absurd ⟨i, _, q, lines, hp, hgo⟩ halone
      | _ => exact hrecv.elim
    | nil =>
      have hsender : ∃ i p m p', s.live i = some p ∧ next p = .send m p' := by
        by_contra hnone
        refine hopen ⟨hq, fun j p hp => ?_⟩
        obtain ⟨q, lines, hgo⟩ | ⟨k, d, rfl⟩ | ⟨loop, d, rfl⟩ | ⟨d, rfl⟩ | ⟨d, rfl⟩ | ⟨d, rfl⟩ | rfl | rfl :=
          next_cases p
        · exact absurd ⟨j, p, q, lines, hp, hgo⟩ halone
        · exact absurd ⟨j, _, d, _, hp, rfl⟩ hnone
        · exact absurd ⟨j, _, d, _, hp, rfl⟩ hnone
        · trivial
        · trivial
        · trivial
        · trivial
        · obtain ⟨_, -, hk⟩ := h.informed.of_live hp
          exact hk.elim
      obtain ⟨i, p, m, p', hp, hn⟩ := hsender
      obtain ⟨_, -, hk⟩ := h.informed.of_live hp
      obtain ⟨hless, hnot⟩ := cost_send hk hn
      have hroom : s.queue.length < cap := by
        rw [hq]
        exact hcap
      have hstep : step next cap s (.run i) = some (s.after i (some p') (s.queue ++ [m]) [m] [] []) := by
        rw [step_run hp, hn]
        exact if_pos hroom
      refine hmove hp hstep (fun hrecv => absurd hrecv hnot) ?_
      rw [List.length_append, List.length_singleton]
      omega

/-- **Delivery.** From every state that any processes of the two programs can get into, some of them
killed on the way, the tasks that live can go on to a state in which every message has been received and
every task has sent and printed all it had to, by what it was started as, as long as one of them is in
`recv_func`. -/
theorem delivers {cap : ℕ} (hcap : 0 < cap) {as : List (NetAct Point)} {s : Net Point Msgbuf Line}
    (h : exec (step next cap) empty as = some s) (hstart : ∀ p, .start p ∈ as → ∃ c, Start c p)
    (hrecv : ∃ i p, s.live i = some p ∧ IsRecv p) :
    ∃ bs t, (∀ b ∈ bs, ∃ i, b = .run i) ∧ exec (step next cap) s bs = some t ∧
      t.sent.map Prod.snd = t.received.map Prod.snd ∧
      ∀ j p, t.live j = some p → Idle p ∧ ∃ c, Began Start t j c ∧
        Knows c p (own j t.sent) (own j t.received) (own j t.out) := by
  have hs : Served s := ⟨protocol.run h hstart informed_empty, hrecv⟩
  obtain ⟨bs, t, hbs, hrun, ht, hempty, hidle⟩ := reaches_of_lowers _ (served_lowers hcap) hs
  have hsent := (run_conserved hrun (run_conserved h (conserved_empty cap))).sent
  rw [hempty, List.append_nil] at hsent
  exact ⟨bs, t, hbs, hrun, hsent, fun j p hp => ⟨hidle j p hp, ht.informed.of_live hp⟩⟩

/-- The threads of `seenTwice` get the rest delivered. -/
theorem delivers_seenTwice :
    ∃ s bs t, exec (step next 1) empty seenTwice = some s ∧ exec (step next 1) s bs = some t ∧
      t.sent.map Prod.snd = t.received.map Prod.snd := by
  obtain ⟨s, d, hs, hd, -⟩ := waits_seenTwice
  obtain ⟨bs, t, -, hrun, hsent, -⟩ := delivers (by decide) hs starts_seenTwice ⟨2, _, hd, trivial⟩
  exact ⟨s, bs, t, hs, hrun, hsent⟩

end LinuxAppSamp.Queue.SystemV
