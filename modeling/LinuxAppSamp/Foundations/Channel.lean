import LinuxAppSamp.Foundations.Steps
import LinuxAppSamp.Foundations.Tally

/-! # Tasks that share a queue

A net is any number of tasks and one queue of bounded capacity. A task is started, makes the moves
that `next` gives for its point, and may be killed at any time. It waits to send while the queue is
full, and to receive while it is empty. The net keeps where each task was started and what it has
sent, received and printed.

* `run_conserved`: what has been received, and then the queue, is what has been sent;
* `Protocol.run`: what a task knows of its own messages and lines, if its own moves establish it
  from what it was started as, holds in every run;
* `run_none_iff`: when a task has to wait.
-/

namespace LinuxAppSamp.Execution
set_option autoImplicit false
set_option maxHeartbeats 250000

/-- What a task does next; `count` asks how many messages are in the queue. -/
inductive Move (σ μ τ : Type)
  | stop
  | go (p : σ) (lines : List τ)
  | count (f : ℕ → σ)
  | send (m : μ) (p : σ)
  | receive (f : μ → σ)

/-- An entry of `tasks` is `none` where the task has been killed. -/
structure Net (σ μ τ : Type) where
  tasks : List (Option σ)
  started : List σ
  queue : List μ
  sent : List (ℕ × μ)
  received : List (ℕ × μ)
  out : List (ℕ × τ)

inductive NetAct (σ : Type)
  | start (p : σ)
  | run (i : ℕ)
  | kill (i : ℕ)

namespace Net
section
variable {σ μ τ : Type}

/-! ## The steps -/

def empty : Net σ μ τ := ⟨[], [], [], [], [], []⟩

/-- Task `i` is at `x` from here on, and has sent, received and printed what is said. -/
def after (s : Net σ μ τ) (i : ℕ) (x : Option σ) (queue gave got : List μ) (told : List τ) : Net σ μ τ :=
  ⟨s.tasks.set i x, s.started, queue, s.sent ++ gave.map (Prod.mk i),
    s.received ++ got.map (Prod.mk i), s.out ++ told.map (Prod.mk i)⟩

/-- A move of task `i`, none where it has to wait. -/
def perform (cap : ℕ) (s : Net σ μ τ) (i : ℕ) : Move σ μ τ → Option (Net σ μ τ)
  | .stop => none
  | .go p lines => some (s.after i (some p) s.queue [] [] lines)
  | .count f => some (s.after i (some (f s.queue.length)) s.queue [] [] [])
  | .send m p =>
    if s.queue.length < cap then some (s.after i (some p) (s.queue ++ [m]) [m] [] []) else none
  | .receive f =>
    match s.queue with
    | [] => none
    | m :: rest => some (s.after i (some (f m)) rest [] [m] [])

/-- The point of a task that lives. -/
def live (s : Net σ μ τ) (i : ℕ) : Option σ := (s.tasks[i]?).join

variable (next : σ → Move σ μ τ) (cap : ℕ)

def step (s : Net σ μ τ) : NetAct σ → Option (Net σ μ τ)
  | .start p => some { s with tasks := s.tasks ++ [some p], started := s.started ++ [p] }
  | .run i => (s.live i).bind fun p => s.perform cap i (next p)
  | .kill i => (s.live i).map fun _ => s.after i none s.queue [] [] []

theorem live_eq_some {s : Net σ μ τ} {i : ℕ} {p : σ} :
    s.live i = some p ↔ s.tasks[i]? = some (some p) :=
  Option.join_eq_some_iff

/-- The steps of a net, by what they do. -/
inductive Steps (s : Net σ μ τ) : NetAct σ → Net σ μ τ → Prop
  | start (p : σ) :
      Steps s (.start p) { s with tasks := s.tasks ++ [some p], started := s.started ++ [p] }
  | go (i : ℕ) (p p' : σ) (lines : List τ) (hp : s.live i = some p) (hn : next p = .go p' lines) :
      Steps s (.run i) (s.after i (some p') s.queue [] [] lines)
  | count (i : ℕ) (p : σ) (f : ℕ → σ) (hp : s.live i = some p) (hn : next p = .count f) :
      Steps s (.run i) (s.after i (some (f s.queue.length)) s.queue [] [] [])
  | send (i : ℕ) (p p' : σ) (m : μ) (hp : s.live i = some p) (hn : next p = .send m p')
      (hroom : s.queue.length < cap) :
      Steps s (.run i) (s.after i (some p') (s.queue ++ [m]) [m] [] [])
  | receive (i : ℕ) (p : σ) (f : μ → σ) (m : μ) (rest : List μ) (hp : s.live i = some p)
      (hn : next p = .receive f) (hq : s.queue = m :: rest) :
      Steps s (.run i) (s.after i (some (f m)) rest [] [m] [])
  | kill (i : ℕ) (p : σ) (hp : s.live i = some p) :
      Steps s (.kill i) (s.after i none s.queue [] [] [])

variable {next cap}

theorem steps_of_step {s t : Net σ μ τ} {a : NetAct σ} (h : step next cap s a = some t) :
    Steps next cap s a t := by
  cases a with
  | start p =>
    cases Option.some.inj h
    exact .start p
  | run i =>
    obtain ⟨p, hp, h⟩ := Option.bind_eq_some_iff.mp h
    cases hn : next p with
    | stop =>
      rw [hn] at h
      cases h
    | go p' lines =>
      rw [hn] at h
      cases Option.some.inj h
      exact .go i p p' lines hp hn
    | count f =>
      rw [hn] at h
      cases Option.some.inj h
      exact .count i p f hp hn
    | send m p' =>
      rw [hn] at h
      obtain ⟨hroom, rfl⟩ := guarded_inv h
      exact .send i p p' m hp hn hroom
    | receive f =>
      rw [hn] at h
      cases hq : s.queue with
      | nil =>
        simp only [perform, hq] at h
        cases h
      | cons m rest =>
        simp only [perform, hq] at h
        cases Option.some.inj h
        exact .receive i p f m rest hp hn hq
  | kill i =>
    obtain ⟨p, hp, rfl⟩ := Option.map_eq_some_iff.mp h
    exact .kill i p hp

theorem step_run {s : Net σ μ τ} {i : ℕ} {p : σ} (h : s.live i = some p) :
    step next cap s (.run i) = s.perform cap i (next p) := by
  rw [step, h, Option.bind_some]

/-- When a task has to wait. -/
theorem run_none_iff {s : Net σ μ τ} {i : ℕ} :
    step next cap s (.run i) = none ↔ ∀ p, s.live i = some p →
      next p = .stop ∨ (∃ m p', next p = .send m p' ∧ cap ≤ s.queue.length) ∨
        ∃ f, next p = .receive f ∧ s.queue = [] := by
  cases hp : s.live i with
  | none => simp [step, hp]
  | some p =>
    rw [step_run hp]
    constructor
    · intro h p' hp'
      cases hp'
      cases hn : next p with
      | stop => exact Or.inl rfl
      | go p' lines => simp [hn, perform] at h
      | count f => simp [hn, perform] at h
      | send m p' =>
        rw [hn, perform, ite_eq_right_iff] at h
        refine Or.inr (Or.inl ⟨m, p', rfl, Nat.le_of_not_lt fun hlt => ?_⟩)
        cases h hlt
      | receive f =>
        refine Or.inr (Or.inr ⟨f, rfl, ?_⟩)
        cases hq : s.queue with
        | nil => rfl
        | cons m rest => simp [hn, perform, hq] at h
    · intro h
      obtain hn | ⟨m, p', hn, hfull⟩ | ⟨f, hn, hempty⟩ := h p rfl
      · rw [hn]
        rfl
      · rw [hn]
        exact if_neg (Nat.not_lt.mpr hfull)
      · simp [hn, perform, hempty]

/-- What a task does on a small queue, it can do on a larger one. -/
theorem step_mono {cap' : ℕ} (hcap : cap ≤ cap') {s t : Net σ μ τ} {a : NetAct σ}
    (h : step next cap s a = some t) : step next cap' s a = some t := by
  cases steps_of_step h with
  | start p => rfl
  | go i p p' lines hp hn => rw [step_run hp, hn, perform]
  | count i p f hp hn => rw [step_run hp, hn, perform]
  | send i p p' m hp hn hroom =>
    rw [step_run hp, hn]
    exact if_pos (Nat.lt_of_lt_of_le hroom hcap)
  | receive i p f m rest hp hn hq => simp only [step_run hp, hn, perform, hq]
  | kill i p hp => rw [step, hp, Option.map_some]

theorem exec_mono {cap' : ℕ} (hcap : cap ≤ cap') {s t : Net σ μ τ} {as : List (NetAct σ)}
    (h : exec (step next cap) s as = some t) : exec (step next cap') s as = some t := by
  induction as generalizing s with
  | nil => exact h
  | cons a as ih =>
    obtain ⟨u, hu, h⟩ := exec_cons_inv h
    exact (exec_cons_eq (step_mono hcap hu) as).trans (ih h)

theorem lt_of_live {s : Net σ μ τ} {i : ℕ} {p : σ} (hp : s.live i = some p) : i < s.tasks.length :=
  (List.getElem?_eq_some_iff.mp (live_eq_some.mp hp)).1

theorem live_after_self {s : Net σ μ τ} {i : ℕ} {p : σ} (hp : s.live i = some p) (x : Option σ)
    (queue gave got : List μ) (told : List τ) : (s.after i x queue gave got told).live i = x := by
  rw [live, after, List.getElem?_set_self (lt_of_live hp), Option.join_some]

theorem live_after_ne {s : Net σ μ τ} {i j : ℕ} (h : i ≠ j) (x : Option σ) (queue gave got : List μ)
    (told : List τ) : (s.after i x queue gave got told).live j = s.live j := by
  rw [live, after, List.getElem?_set_ne h, live]

theorem live_after_cases {s : Net σ μ τ} {i j : ℕ} {p q : σ} {x : Option σ} {queue gave got : List μ}
    {told : List τ} (hp : s.live i = some p) (h : (s.after i x queue gave got told).live j = some q) :
    (i = j ∧ x = some q) ∨ (i ≠ j ∧ s.live j = some q) := by
  by_cases hij : i = j
  · cases hij
    rw [live_after_self hp] at h
    exact Or.inl ⟨rfl, h⟩
  · rw [live_after_ne hij] at h
    exact Or.inr ⟨hij, h⟩

/-- A sum over the tasks changes by what changes for the one that moves. -/
theorem tally_after (w : Option σ → ℕ) {s : Net σ μ τ} {i : ℕ} {p : σ} (hp : s.live i = some p) (x : Option σ)
    (queue gave got : List μ) (told : List τ) :
    tally w (s.after i x queue gave got told).tasks + w (some p) = tally w s.tasks + w x :=
  tally_set w s.tasks i (some p) x (live_eq_some.mp hp)

/-! ## What has been started -/

/-- The points that the actions start tasks at, in order. -/
def starts (as : List (NetAct σ)) : List σ :=
  as.filterMap fun
    | .start p => some p
    | _ => none

theorem started_step {s t : Net σ μ τ} {a : NetAct σ} (h : step next cap s a = some t) :
    t.started = s.started ++ starts [a] := by
  cases steps_of_step h with
  | start p => rfl
  | _ => exact (List.append_nil _).symm

theorem run_started {s t : Net σ μ τ} {as : List (NetAct σ)} (h : exec (step next cap) s as = some t) :
    t.started = s.started ++ starts as := by
  induction as generalizing s with
  | nil =>
    cases Option.some.inj h
    exact (List.append_nil _).symm
  | cons a as ih =>
    obtain ⟨u, hu, h⟩ := exec_cons_inv h
    have hsplit : starts ([a] ++ as) = starts [a] ++ starts as := List.filterMap_append
    rw [List.singleton_append] at hsplit
    rw [ih h, started_step hu, List.append_assoc, hsplit]

/-! ## Nothing is lost -/

/-- What has been received, and then the queue, is what has been sent. -/
structure Conserved (cap : ℕ) (s : Net σ μ τ) : Prop where
  sent : s.sent.map Prod.snd = s.received.map Prod.snd ++ s.queue
  room : s.queue.length ≤ cap

theorem conserved_empty (cap : ℕ) : Conserved cap (empty : Net σ μ τ) := ⟨rfl, Nat.zero_le cap⟩

theorem map_snd_mk (i : ℕ) (l : List μ) : (l.map (Prod.mk i)).map Prod.snd = l := by
  rw [List.map_map]
  exact List.map_id l

theorem conserved_after {s : Net σ μ τ} {i : ℕ} {x : Option σ} {queue gave got : List μ} {told : List τ}
    (h : Conserved cap s) (hq : s.queue ++ gave = got ++ queue) (hroom : queue.length ≤ cap) :
    Conserved cap (s.after i x queue gave got told) := by
  refine ⟨?_, hroom⟩
  simp only [after, List.map_append, map_snd_mk]
  rw [h.sent, List.append_assoc, hq, List.append_assoc]

theorem conserved_step {s t : Net σ μ τ} {a : NetAct σ} (h : Conserved cap s)
    (hstep : step next cap s a = some t) : Conserved cap t := by
  cases steps_of_step hstep with
  | start p => exact ⟨h.sent, h.room⟩
  | go i p p' lines hp hn => exact conserved_after h (List.append_nil _) h.room
  | count i p f hp hn => exact conserved_after h (List.append_nil _) h.room
  | send i p p' m hp hn hroom =>
    have hlen : (s.queue ++ [m]).length ≤ cap := by
      rw [List.length_append]
      exact hroom
    exact conserved_after h (List.nil_append _).symm hlen
  | receive i p f m rest hp hn hq =>
    have hlen := h.room
    rw [hq, List.length_cons] at hlen
    apply conserved_after h _ (Nat.le_of_succ_le hlen)
    rw [hq, List.append_nil]
    rfl
  | kill i p hp => exact conserved_after h (List.append_nil _) h.room

theorem run_conserved {s t : Net σ μ τ} {as : List (NetAct σ)} (h : exec (step next cap) s as = some t)
    (hs : Conserved cap s) : Conserved cap t :=
  exec_invariant (Conserved cap) (fun _ _ _ hu hstep => conserved_step hu hstep) h hs

/-! ## What a task knows -/

/-- The part of a log that is of task `i`. -/
def own {β : Type} (i : ℕ) (log : List (ℕ × β)) : List β :=
  (log.filter fun e => e.1 == i).map Prod.snd

theorem own_append_self {β : Type} (i : ℕ) (log : List (ℕ × β)) (l : List β) :
    own i (log ++ l.map (Prod.mk i)) = own i log ++ l := by
  have hall : (l.map (Prod.mk i)).filter (fun e => e.1 == i) = l.map (Prod.mk i) :=
    List.filter_eq_self.mpr fun e he => by
      obtain ⟨b, -, rfl⟩ := List.mem_map.mp he
      exact beq_self_eq_true i
  rw [own, List.filter_append, hall, List.map_append, List.map_map]
  congr 1
  exact List.map_id l

theorem own_append_ne {β : Type} {i j : ℕ} (h : i ≠ j) (log : List (ℕ × β)) (l : List β) :
    own j (log ++ l.map (Prod.mk i)) = own j log := by
  have hnone : (l.map (Prod.mk i)).filter (fun e => e.1 == j) = [] :=
    List.filter_eq_nil_iff.mpr fun e he => by
      obtain ⟨b, -, rfl⟩ := List.mem_map.mp he
      exact fun hij => h (beq_iff_eq.mp hij)
  rw [own, List.filter_append, hnone, List.append_nil, own]

theorem mem_own {β : Type} {i : ℕ} {b : β} {log : List (ℕ × β)} : b ∈ own i log ↔ (i, b) ∈ log := by
  simp only [own, List.mem_map, List.mem_filter, beq_iff_eq]
  constructor
  · rintro ⟨⟨j, c⟩, ⟨hmem, rfl⟩, rfl⟩
    exact hmem
  · exact fun hmem => ⟨(i, b), ⟨hmem, rfl⟩, rfl⟩

/-- The messages that task `i` has sent and received and the lines it has printed are as `K` says. -/
def Has (K : List μ → List μ → List τ → Prop) (s : Net σ μ τ) (i : ℕ) : Prop :=
  K (own i s.sent) (own i s.received) (own i s.out)

theorem has_after_self {K : List μ → List μ → List τ → Prop} {s : Net σ μ τ} {i : ℕ} {x : Option σ}
    {queue gave got : List μ} {told : List τ}
    (h : Has (fun a b c => K (a ++ gave) (b ++ got) (c ++ told)) s i) :
    Has K (s.after i x queue gave got told) i := by
  simp only [Has, after, own_append_self]
  exact h

theorem has_after_ne {K : List μ → List μ → List τ → Prop} {s : Net σ μ τ} {i j : ℕ} (h : i ≠ j)
    {x : Option σ} {queue gave got : List μ} {told : List τ} :
    Has K (s.after i x queue gave got told) j ↔ Has K s j := by
  simp only [Has, after, own_append_ne h]

/-- `Start c p` says that a task started as `c` begins at `p`, `Valid` is what a message can be relied
on for, `Knows c p` what a task started as `c` has done when it is at `p`. -/
structure Protocol {κ : Type} (next : σ → Move σ μ τ) (Start : κ → σ → Prop) (Valid : μ → Prop)
    (Knows : κ → σ → List μ → List μ → List τ → Prop) : Prop where
  start : ∀ c p, Start c p → Knows c p [] [] []
  go : ∀ c p p' lines gave got told, next p = .go p' lines → Knows c p gave got told →
    Knows c p' gave got (told ++ lines)
  count : ∀ c p f n gave got told, next p = .count f → Knows c p gave got told →
    Knows c (f n) gave got told
  send : ∀ c p p' m gave got told, next p = .send m p' → Knows c p gave got told →
    Valid m ∧ Knows c p' (gave ++ [m]) got told
  receive : ∀ c p f m gave got told, next p = .receive f → Valid m → Knows c p gave got told →
    Knows c (f m) gave (got ++ [m]) told

variable {κ : Type}

/-- Task `i` was started as `c`. -/
def Began (Start : κ → σ → Prop) (s : Net σ μ τ) (i : ℕ) (c : κ) : Prop :=
  ∃ o, s.started[i]? = some o ∧ Start c o

/-- Every task is where its knowledge says; one that has been killed was at such a point. -/
structure Informed (Start : κ → σ → Prop) (Valid : μ → Prop)
    (Knows : κ → σ → List μ → List μ → List τ → Prop) (s : Net σ μ τ) : Prop where
  valid : ∀ m ∈ s.queue, Valid m
  number : s.started.length = s.tasks.length
  knows : ∀ i x, s.tasks[i]? = some x →
    ∃ c p, Began Start s i c ∧ (x = some p ∨ x = none) ∧ Has (Knows c p) s i
  absent : ∀ i, s.tasks.length ≤ i → Has (fun gave got told => gave = [] ∧ got = [] ∧ told = []) s i

variable {Start : κ → σ → Prop} {Valid : μ → Prop} {Knows : κ → σ → List μ → List μ → List τ → Prop}

theorem Informed.of_live {s : Net σ μ τ} (h : Informed Start Valid Knows s) {i : ℕ} {p : σ}
    (hp : s.live i = some p) : ∃ c, Began Start s i c ∧ Has (Knows c p) s i := by
  obtain ⟨c, q, hc, hq | hq, hk⟩ := h.knows i _ (live_eq_some.mp hp)
  · cases hq
    exact ⟨c, hc, hk⟩
  · cases hq

theorem informed_empty : Informed Start Valid Knows (empty : Net σ μ τ) where
  valid := fun _ hm => by cases hm
  number := rfl
  knows := fun _ _ hx => by cases hx
  absent := fun _ _ => ⟨rfl, rfl, rfl⟩

/-- The rule for every move: only the task that moves has to be looked at. -/
theorem informed_after {s : Net σ μ τ} {i : ℕ} {c : κ} {p : σ} (p' : σ) {x : Option σ}
    {queue gave got : List μ} {told : List τ} (h : Informed Start Valid Knows s)
    (hp : s.live i = some p) (hc : Began Start s i c) (hx : x = some p' ∨ x = none)
    (hvalid : ∀ m ∈ queue, Valid m)
    (hk : Has (fun a b l => Knows c p' (a ++ gave) (b ++ got) (l ++ told)) s i) :
    Informed Start Valid Knows (s.after i x queue gave got told) := by
  have hi := lt_of_live hp
  refine ⟨hvalid, h.number.trans List.length_set.symm, fun j y hy => ?_, fun j hj => ?_⟩
  · obtain ⟨rfl, rfl⟩ | ⟨hne, hy⟩ := entry_set_cases hy
    · exact ⟨c, p', hc, hx, has_after_self hk⟩
    · obtain ⟨d, q, hd, hq, hknows⟩ := h.knows j y hy
      exact ⟨d, q, hd, hq, (has_after_ne (Ne.symm hne)).mpr hknows⟩
  · have hlen : s.tasks.length ≤ j := by
      have hset : (s.tasks.set i x).length ≤ j := hj
      rwa [List.length_set] at hset
    exact (has_after_ne (Nat.ne_of_lt (Nat.lt_of_lt_of_le hi hlen))).mpr (h.absent j hlen)

/-- A new task has done nothing yet, and the others do not notice. -/
theorem informed_start (hP : Protocol next Start Valid Knows) {s : Net σ μ τ} {c : κ} {p : σ}
    (h : Informed Start Valid Knows s) (hc : Start c p) :
    Informed Start Valid Knows
      { s with tasks := s.tasks ++ [some p], started := s.started ++ [p] } := by
  refine ⟨h.valid, ?_, fun j y hy => ?_, fun j hj => ?_⟩
  · rw [List.length_append, List.length_append, h.number]
    rfl
  · obtain ⟨hj, hy⟩ | ⟨rfl, rfl⟩ := entry_snoc_cases hy
    · obtain ⟨d, q, ⟨o, ho, hd⟩, hq, hknows⟩ := h.knows j y hy
      refine ⟨d, q, ⟨o, ?_, hd⟩, hq, hknows⟩
      rw [← h.number] at hj
      exact (List.getElem?_append_left hj).trans ho
    · obtain ⟨hgave, hgot, htold⟩ := h.absent s.tasks.length (Nat.le_refl _)
      refine ⟨c, p, ⟨p, ?_, hc⟩, Or.inl rfl, ?_⟩
      · rw [← h.number]
        exact List.getElem?_concat_length
      · simp only [Has, hgave, hgot, htold]
        exact hP.start c p hc
  · rw [List.length_append] at hj
    exact h.absent j (Nat.le_of_succ_le hj)

theorem Protocol.step (hP : Protocol next Start Valid Knows) {s t : Net σ μ τ} {a : NetAct σ}
    (h : Informed Start Valid Knows s) (ha : ∀ p, a = .start p → ∃ c, Start c p)
    (hstep : step next cap s a = some t) : Informed Start Valid Knows t := by
  cases steps_of_step hstep with
  | start p =>
    obtain ⟨c, hc⟩ := ha p rfl
    exact informed_start hP h hc
  | go i p p' lines hp hn =>
    obtain ⟨c, hc, hknows⟩ := h.of_live hp
    have hk := hP.go _ _ _ _ _ _ _ hn hknows
    refine informed_after _ h hp hc (Or.inl rfl) h.valid ?_
    simp only [Has, List.append_nil]
    exact hk
  | count i p f hp hn =>
    obtain ⟨c, hc, hknows⟩ := h.of_live hp
    have hk := hP.count _ _ _ s.queue.length _ _ _ hn hknows
    refine informed_after _ h hp hc (Or.inl rfl) h.valid ?_
    simp only [Has, List.append_nil]
    exact hk
  | send i p p' m hp hn hroom =>
    obtain ⟨c, hc, hknows⟩ := h.of_live hp
    obtain ⟨hm, hk⟩ := hP.send _ _ _ _ _ _ _ hn hknows
    refine informed_after _ h hp hc (Or.inl rfl) (fun m' hm' => ?_) ?_
    · obtain hm' | hm' := List.mem_append.mp hm'
      · exact h.valid m' hm'
      · rw [List.mem_singleton.mp hm']
        exact hm
    · simp only [Has, List.append_nil]
      exact hk
  | receive i p f m rest hp hn hq =>
    obtain ⟨c, hc, hknows⟩ := h.of_live hp
    have hvalid := h.valid
    rw [hq] at hvalid
    obtain ⟨hm, hrest⟩ := List.forall_mem_cons.mp hvalid
    have hk := hP.receive _ _ _ _ _ _ _ hn hm hknows
    refine informed_after _ h hp hc (Or.inl rfl) hrest ?_
    simp only [Has, List.append_nil]
    exact hk
  | kill i p hp =>
    obtain ⟨c, hc, hknows⟩ := h.of_live hp
    refine informed_after p h hp hc (Or.inr rfl) h.valid ?_
    simp only [Has, List.append_nil]
    exact hknows

theorem Protocol.run (hP : Protocol next Start Valid Knows) {s t : Net σ μ τ} {as : List (NetAct σ)}
    (h : exec (Net.step next cap) s as = some t) (has : ∀ p, .start p ∈ as → ∃ c, Start c p)
    (hs : Informed Start Valid Knows s) : Informed Start Valid Knows t := by
  refine exec_invariant_of (fun a => ∀ p, a = .start p → ∃ c, Start c p) (Informed Start Valid Knows)
    (fun s a t hs ha hstep => hP.step hs ha hstep) h (fun a ha p hp => has p ?_) hs
  rw [← hp]
  exact ha

end
end Net
end LinuxAppSamp.Execution
