import LinuxAppSamp.Echo.Network

/-! # How the exchange over UDP ends

Neither program waits with a limit or sends anything twice.

* `finishes_iff`: every run is bounded by the number of clients and of the network's additions, and where
  the programs cannot move a client has come through its loop iff what it has lost does not exceed what
  has been copied for it, or what it has given up;
* `own_answers`: without a copy and without a failed `recvfrom` a client reads the answer to each request
  in the pass of that request; one of either is enough for it to read an older one.
-/

namespace LinuxAppSamp.Echo.Network
open Memory Messages Execution
set_option autoImplicit false
set_option maxHeartbeats 250000

/-! ## The moves of the programs -/

/-- The moves of the programs weigh nothing; a copy and a stranger's text bring work of their own. -/
def weight : Act → ℕ
  | .send _ | .read _ _ | .serve _ true => 0
  | .copy _ | .inject _ _ => 3
  | .miss _ | .serve _ false | .fail | .lose _ => 1

/-- Nothing is left for the programs to do: no reply is in flight to a client that waits, and no request
to the server, if it is there. -/
structure Settled (s : State) : Prop where
  clients : ∀ (i : ℕ) (c : Client), s.clients[i]? = some c → c.point = .closed ∨
    c.point = .recvfrom ∧ ∀ d ∈ s.wire.flying, d.peer = i → d.request = true
  server : ∀ b, s.server = .recvfrom b → ∀ d ∈ s.wire.flying, d.request = false

section
variable {s : State}

theorem step_send {i : ℕ} {c : Client} (hi : s.clients[i]? = some c) (hc : c.point = .sendto) :
    step s (.send i) ≠ none := by
  rw [step, hi, Option.bind_some, if_pos hc]
  exact Option.some_ne_none _

theorem step_read {i k : ℕ} {c : Client} {d : Datagram} (hi : s.clients[i]? = some c)
    (hc : c.point = .recvfrom) (hk : s.wire.flying[k]? = some d) (hd : d.request = false)
    (hpeer : d.peer = i) : step s (.read i k) ≠ none := by
  rw [step, hi, Option.bind_some, Wire.take_eq hk, Option.bind_some, if_pos ⟨hc, hd, hpeer⟩]
  exact Option.some_ne_none _

theorem step_serve {k : ℕ} {b : Buffer sizeBuf} {d : Datagram} (hb : s.server = .recvfrom b)
    (hk : s.wire.flying[k]? = some d) (hd : d.request = true) (sendOK : Bool) :
    step s (.serve k sendOK) ≠ none := by
  unfold step
  rw [hb]
  show (s.wire.take k).bind _ ≠ none
  rw [Wire.take_eq hk, Option.bind_some, if_pos hd]
  exact Option.some_ne_none _

theorem Client.Sound.cases {c : Client} (h : c.Sound) :
    c.point = .sendto ∨ c.point = .recvfrom ∨ c.point = .closed := by
  have hpoint := h.point
  split at hpoint
  · obtain hp | hp := hpoint
    · exact .inl hp
    · exact .inr (.inl hp)
  · exact .inr (.inr hpoint)

/-- Where no move of the programs is possible, the exchange has settled. -/
theorem settled_of_stuck {n : ℕ} (h : Invariant n s) (hstuck : ∀ a, weight a = 0 → step s a = none) :
    Settled s where
  clients := by
    intro i c hi
    obtain hc | hc | hc := (h.sound i c hi).cases
    · exact absurd (hstuck (.send i) rfl) (step_send hi hc)
    · refine .inr ⟨hc, fun d hd hpeer => ?_⟩
      by_contra hreply
      obtain ⟨k, hk⟩ := List.mem_iff_getElem?.mp hd
      exact step_read hi hc hk (Bool.not_eq_true _ ▸ hreply) hpeer (hstuck (.read i k) rfl)
    · exact .inl hc
  server := by
    intro b hb d hd
    by_contra hrequest
    obtain ⟨k, hk⟩ := List.mem_iff_getElem?.mp hd
    exact step_serve hb hk (Bool.not_eq_false _ ▸ hrequest) true (hstuck (.serve k true) rfl)

end

/-! ## The rank -/

def Client.rest (c : Client) : ℕ :=
  match c.point with
  | .sendto => 4 * (3 - c.loop)
  | .recvfrom => 4 * (3 - c.loop) - 3
  | _ => 0

def Datagram.rest (d : Datagram) : ℕ := if d.request then 2 else 1

def Server.rest : Server → ℕ
  | .recvfrom _ => 1
  | _ => 0

def rank (s : State) : ℕ := tally Client.rest s.clients + tally Datagram.rest s.wire.flying + s.server.rest

theorem Datagram.rest_pos (d : Datagram) : 1 ≤ d.rest := by
  rw [Datagram.rest]
  split <;> omega

theorem Datagram.rest_le (d : Datagram) : d.rest ≤ 2 := by
  rw [Datagram.rest]
  split <;> omega

theorem Server.rest_le (x : Server) : x.rest ≤ 1 := by
  cases x with
  | recvfrom b => exact Nat.le_refl 1
  | exited => exact Nat.zero_le 1
  | crashed => exact Nat.zero_le 1

theorem Client.rest_send {c : Client} (h : c.Sound) (hc : c.point = .sendto) : c.send.rest + 3 = c.rest := by
  have hloop := h.waiting (by rw [hc]; decide)
  have hsend : c.send.rest = 4 * (3 - c.loop) - 3 := rfl
  rw [hsend, Client.rest, hc]
  show _ = 4 * (3 - c.loop)
  omega

theorem Client.rest_pass {c : Client} (h : c.Sound) (hc : c.point = .recvfrom) (szBuf : Buffer sizeBuf)
    (line : List UInt8) (round : Option ℕ) : (c.pass szBuf line round).rest + 1 = c.rest := by
  have hloop := h.waiting (by rw [hc]; decide)
  have hwait : c.rest = 4 * (3 - c.loop) - 3 := by rw [Client.rest, hc]
  by_cases hmore : c.loop + 1 < 3
  · have hpoint : (c.pass szBuf line round).point = .sendto := if_pos hmore
    rw [Client.rest, hpoint, hwait]
    show 4 * (3 - (c.loop + 1)) + 1 = _
    omega
  · have hpoint : (c.pass szBuf line round).point = .closed := if_neg hmore
    rw [Client.rest, hpoint, hwait]
    show 0 + 1 = _
    omega

section
variable {n : ℕ} {s t : State}

theorem tally_replies (d : Datagram) : tally Datagram.rest (replies d) ≤ 1 := by
  rw [replies, reply]
  split
  · exact Nat.le_refl 1
  · exact Nat.zero_le 1

theorem rank_client {i : ℕ} {c : Client} (e : Client) (w : Wire Datagram) (hi : s.clients[i]? = some c) :
    rank { s with clients := s.clients.set i e, wire := w } + c.rest + tally Datagram.rest s.wire.flying =
      rank s + e.rest + tally Datagram.rest w.flying := by
  have hset := tally_set Client.rest s.clients i c e hi
  unfold rank
  show tally Client.rest (s.clients.set i e) + tally Datagram.rest w.flying + s.server.rest + _ + _ = _
  omega

theorem rank_wire (w : Wire Datagram) :
    rank { s with wire := w } + tally Datagram.rest s.wire.flying = rank s + tally Datagram.rest w.flying := by
  unfold rank
  show tally Client.rest s.clients + tally Datagram.rest w.flying + s.server.rest + _ = _
  omega

theorem rank_steps {a : Act} (h : Invariant n s) (hstep : Steps s a t) : rank t + 1 ≤ rank s + weight a := by
  cases hstep with
  | @send i c hi hc =>
    have hrank := rank_client c.send (s.wire.send [⟨i, true, c.loop, toSendText ++ [0]⟩]) hi
    have hrest := Client.rest_send (h.sound i c hi) hc
    have hflying : tally Datagram.rest (s.wire.send [⟨i, true, c.loop, toSendText ++ [0]⟩]).flying =
        tally Datagram.rest s.wire.flying + 2 := Wire.tally_send _ _ _
    omega
  | @read i k c d w hi hc htake hd hpeer =>
    obtain ⟨hgood, -⟩ := h.good.taken htake
    obtain ⟨b, hread⟩ := Client.read_eq (c := c) hgood hd (hpeer ▸ h.lt hi)
    rw [hread]
    have hrank := rank_client (c.pass b rxLine (some d.round)) w hi
    have hrest := Client.rest_pass (h.sound i c hi) hc b rxLine (some d.round)
    have hflying := Wire.tally_taken Datagram.rest htake
    omega
  | @miss i c hi hc =>
    have hrank := rank_client (c.pass c.szBuf [] none) s.wire hi
    have hrest := Client.rest_pass (h.sound i c hi) hc c.szBuf [] none
    show rank { s with clients := s.clients.set i (c.pass c.szBuf [] none), wire := s.wire } + 1 ≤ _
    omega
  | @serve k sendOK b d w hrun htake hd =>
    obtain ⟨hgood, -⟩ := h.good.taken htake
    obtain ⟨server, hserve, -, -⟩ := serve_spec s b sendOK w hgood hd
    rw [hserve]
    have hflying := Wire.tally_taken Datagram.rest htake
    have hrest : d.rest = 2 := if_pos hd
    have hserver := server.rest_le
    have hbefore : s.server.rest = 1 := by rw [hrun]; rfl
    have hreplies := tally_replies d
    have hsent : tally Datagram.rest (w.send (if sendOK then replies d else [])).flying ≤
        tally Datagram.rest w.flying + 1 := by
      rw [Wire.tally_send]
      cases sendOK with
      | true => exact Nat.add_le_add_left hreplies _
      | false => exact Nat.le_succ _
    unfold rank
    show tally Client.rest s.clients + tally Datagram.rest (w.send _).flying + server.rest + 1 ≤ _
    omega
  | fail hrun =>
    have hbefore : s.server.rest = 1 := by rw [hrun]; rfl
    unfold rank
    show tally Client.rest s.clients + tally Datagram.rest s.wire.flying + 0 + 1 ≤ _
    omega
  | @lose k w hlose =>
    obtain ⟨d, -, hflying, -⟩ := Wire.tally_lost Datagram.rest hlose
    have hrank := rank_wire (s := s) w
    have hrest := d.rest_pos
    show _ + 1 ≤ rank s + 1
    omega
  | @copy k w hcopy =>
    obtain ⟨d, -, hflying, -⟩ := Wire.tally_copied Datagram.rest hcopy
    have hrank := rank_wire (s := s) w
    have hrest := d.rest_le
    show _ + 1 ≤ rank s + 3
    omega
  | inject peer msg =>
    have hrank := rank_wire (s := s) (s.wire.send [⟨peer, true, 0, msg⟩])
    have hflying : tally Datagram.rest (s.wire.send [⟨peer, true, 0, msg⟩]).flying =
        tally Datagram.rest s.wire.flying + 2 := Wire.tally_send _ _ _
    show _ + 1 ≤ rank s + 3
    omega

def Stuck (s : State) : Prop := ∀ a, weight a = 0 → step s a = none

theorem progresses (n : ℕ) : Progresses step (Allowed n) (Invariant n) Stuck rank weight where
  keeps := fun _ _ _ h ha hstep => h.step ha hstep
  moves := by
    intro s _ hopen
    unfold Stuck at hopen
    push Not at hopen
    obtain ⟨a, ha, hstep⟩ := hopen
    obtain ⟨t, ht⟩ := Option.ne_none_iff_exists'.mp hstep
    refine ⟨a, t, ?_, ha, ht⟩
    cases a with
    | inject peer msg => cases ha
    | _ => trivial
  ranks := fun _ _ _ h _ hstep => rank_steps h (steps_of_step hstep)

theorem rank_init (rcvBuf : Buffer sizeBuf) (szBufs : List (Buffer sizeBuf)) :
    rank (init rcvBuf szBufs) = 12 * szBufs.length + 1 := by
  have hclients : tally Client.rest (init rcvBuf szBufs).clients = szBufs.length * 12 := by
    rw [tally_const Client.rest 12]
    · exact congrArg (· * 12) (List.length_map _)
    · intro c hc
      obtain ⟨szBuf, -, rfl⟩ := List.mem_map.mp hc
      rfl
  unfold rank
  rw [hclients]
  show szBufs.length * 12 + 0 + 1 = _
  omega

end

/-! ## Who comes to the end -/

def unread (i : ℕ) (d : Datagram) : ℕ := if d.request then ofPeer i d else 0

/-- The datagrams of client `i` that come to nothing: those lost, those that the server has not sent, and
the requests that it has not taken. -/
def wanting (s : State) (i : ℕ) : ℕ :=
  tally (ofPeer i) s.wire.lost + tally (ofPeer i) s.unsent + tally (unread i) s.wire.flying

/-- The datagrams that client `i` can do without: one for each copy, and for each `recvfrom` that has
failed. -/
def spare (s : State) (i : ℕ) (c : Client) : ℕ := tally (ofPeer i) s.wire.copied + c.heard.count none

theorem Client.got_add (c : Client) : c.got + c.heard.count none = c.heard.length := by
  have hsplit := List.length_eq_countP_add_countP Option.isSome (l := c.heard)
  rw [hsplit, Client.got, List.count]
  congr 2
  funext x
  cases x <;> rfl

theorem closed_iff {n : ℕ} {s : State} (h : Invariant n s) (hsettled : Settled s) {i : ℕ} {c : Client}
    (hi : s.clients[i]? = some c) :
    (c.point = .closed ∨ c.point = .recvfrom) ∧ (c.point = .closed ↔ wanting s i ≤ spare s i c) := by
  have haccounts := h.accounts i c hi
  have hgot := c.got_add
  have hle : tally (unread i) s.wire.flying ≤ tally (ofPeer i) s.wire.flying := by
    refine tally_mono _ _ _ fun d => ?_
    rw [unread]
    split
    · exact Nat.le_refl _
    · exact Nat.zero_le _
  unfold Wire.Accounts Client.sent at haccounts
  unfold wanting spare
  obtain hc | ⟨hc, hreplies⟩ := hsettled.clients i c hi
  · rw [hc, show Point.closed.waits = 0 from rfl] at haccounts
    refine ⟨.inl hc, fun _ => ?_, fun _ => hc⟩
    omega
  · -- every datagram of a client that waits is a request
    have heq : tally (unread i) s.wire.flying = tally (ofPeer i) s.wire.flying := by
      refine tally_congr _ _ _ fun d hd => ?_
      rw [unread]
      split
      · rfl
      · rename_i hreply
        exact (ofPeer_ne fun hpeer => hreply (hreplies d hd hpeer)).symm
    rw [hc, show Point.recvfrom.waits = 1 from rfl] at haccounts
    refine ⟨.inr hc, fun hclosed => ?_, fun hspare => ?_⟩
    · cases hc.symm.trans hclosed
    · omega

/-- **Who comes to the end.** A run has at most 12 steps for each client and what the network's own steps
add; the programs can always go on until nothing is left to do; and then a client has come through its
loop if and only if the datagrams that have come to nothing for it are not more than those it could do
without. Otherwise it waits in `recvfrom`, for ever. -/
theorem finishes_iff {rcvBuf : Buffer sizeBuf} {szBufs : List (Buffer sizeBuf)} {as : List Act} {s : State}
    (h : exec step (init rcvBuf szBufs) as = some s) (has : ∀ a ∈ as, Allowed szBufs.length a) :
    as.length ≤ 12 * szBufs.length + 1 + tally weight as ∧
      (∃ bs t, (∀ a ∈ bs, weight a = 0) ∧ exec step s bs = some t ∧ Stuck t) ∧
      (Stuck s → ∀ (i : ℕ) (c : Client), s.clients[i]? = some c →
        (c.point = .closed ∨ c.point = .recvfrom) ∧ (c.point = .closed ↔ wanting s i ≤ spare s i c)) := by
  have hI := invariant_exec h has (invariant_init rcvBuf szBufs)
  have hprogress := progresses szBufs.length
  refine ⟨?_, ?_, fun hstuck i c hi => closed_iff hI (settled_of_stuck hI hstuck) hi⟩
  · have hlen := hprogress.length_le h has (invariant_init rcvBuf szBufs)
    rw [rank_init] at hlen
    omega
  · obtain ⟨bs, t, hbs, hrun, ht⟩ := hprogress.reaches_final hI
    exact ⟨bs, t, fun a ha => (hbs a ha).2, hrun, ht⟩

/-- Where nothing is in flight and no client is about to send, the programs cannot move. -/
theorem stuck_of_silent {s : State} (hflying : s.wire.flying = [])
    (hclients : ∀ c ∈ s.clients, c.point ≠ .sendto) : Stuck s := by
  have htake : ∀ k, s.wire.take k = none := fun k => by rw [Wire.take, hflying]; rfl
  intro a ha
  cases a with
  | send i =>
    rw [step]
    cases hi : s.clients[i]? with
    | none => rfl
    | some c => exact if_neg (hclients c (List.mem_of_getElem? hi))
  | read i k =>
    rw [step, htake]
    cases s.clients[i]? with
    | none => rfl
    | some c => rfl
  | serve k sendOK =>
    unfold step
    cases s.server with
    | recvfrom b =>
      show (s.wire.take k).bind _ = none
      rw [htake]
      rfl
    | exited => rfl
    | crashed => rfl
  | miss i => cases ha
  | fail => cases ha
  | lose k => cases ha
  | copy k => cases ha
  | inject peer msg => cases ha

/-- One pass of client `i`, where nothing else is in flight. -/
def onePass (i : ℕ) : List Act := [.send i, .serve 0 true, .read i 0]

/-- The reply to the second request of client 0 is lost; client 1 comes through its loop. -/
def oneLost : List Act :=
  onePass 0 ++ [.send 0, .serve 0 true, .lose 0] ++ onePass 1 ++ onePass 1 ++ onePass 1

theorem finishes_iff_oneLost :
    ∃ (s : State) (c e : Client),
      exec step (init (.zero sizeBuf) [.zero sizeBuf, .zero sizeBuf]) oneLost = some s ∧
      s.clients = [c, e] ∧ oneLost.length ≤ 12 * 2 + 1 + tally weight oneLost ∧
      c.point = .recvfrom ∧ ¬ wanting s 0 ≤ spare s 0 c ∧
      e.point = .closed ∧ wanting s 1 ≤ spare s 1 e := by
  obtain ⟨s, hs⟩ := Option.isSome_iff_exists.mp
    (show (exec step (init (.zero sizeBuf) [.zero sizeBuf, .zero sizeBuf]) oneLost).isSome = true by
      decide +kernel)
  have hshape : (exec step (init (.zero sizeBuf) [.zero sizeBuf, .zero sizeBuf]) oneLost).map
      (fun s => (s.clients.map Client.point, s.wire.flying)) = some ([.recvfrom, .closed], []) := by
    decide +kernel
  rw [hs] at hshape
  obtain ⟨hpoints, hflying⟩ := Prod.mk.injEq .. ▸ Option.some.inj hshape
  obtain ⟨c, l, hc, hpc, hl⟩ := List.map_eq_cons_iff.mp hpoints
  obtain ⟨e, l, rfl, hpe, hnil⟩ := List.map_eq_cons_iff.mp hl
  cases List.map_eq_nil_iff.mp hnil
  have hallowed : ∀ a ∈ oneLost, Allowed [Buffer.zero sizeBuf, Buffer.zero sizeBuf].length a :=
    allowed_of_ours (by decide)
  have hstuck : Stuck s := by
    refine stuck_of_silent hflying fun x hx => ?_
    rw [hc] at hx
    obtain rfl | hx := List.mem_cons.mp hx
    · rw [hpc]
      decide
    · rw [List.mem_singleton.mp hx, hpe]
      decide
  obtain ⟨hlen, -, hend⟩ := finishes_iff hs hallowed
  have hiffc := (hend hstuck 0 c (by rw [hc]; rfl)).2
  have hiffe := (hend hstuck 1 e (by rw [hc]; rfl)).2
  refine ⟨s, c, e, hs, hc, hlen, hpc, fun h => ?_, hpe, hiffe.mp hpe⟩
  cases hpc.symm.trans (hiffc.mpr h)

/-! ## Whose answer a client reads -/

/-- As long as nothing has been copied for client `i` and it has given up nothing, its datagrams in flight
belong to its present pass, and it has read the answers in order. -/
def InStep (s : State) : Prop :=
  ∀ (i : ℕ) (c : Client), s.clients[i]? = some c → tally (ofPeer i) s.wire.copied = 0 → none ∉ c.heard →
    (∀ d ∈ s.wire.flying, d.peer = i → d.round = c.loop) ∧ c.heard = (List.range c.loop).map some

section
variable {n : ℕ} {s t : State}

/-- Nothing is in flight for a client that waits for nothing. -/
theorem none_flying (h : Invariant n s) {i : ℕ} {c : Client} (hi : s.clients[i]? = some c)
    (hc : c.point.waits = 0) (hcopied : tally (ofPeer i) s.wire.copied = 0) (hheard : none ∉ c.heard) :
    ∀ d ∈ s.wire.flying, d.peer ≠ i := by
  intro d hd hpeer
  have haccounts := h.accounts i c hi
  have hgot := c.got_add
  have hnone : c.heard.count none = 0 := List.count_eq_zero.mpr hheard
  have hmem := le_tally (ofPeer i) s.wire.flying d hd
  rw [← hpeer, ofPeer_self, hpeer] at hmem
  unfold Wire.Accounts Client.sent at haccounts
  omega

theorem InStep.send (h : Invariant n s) (hs : InStep s) {i : ℕ} {c : Client} (hi : s.clients[i]? = some c)
    (hc : c.point = .sendto) :
    InStep { s with
      clients := s.clients.set i c.send
      wire := s.wire.send [⟨i, true, c.loop, toSendText ++ [0]⟩] } := by
  intro j x hj hcopied hheard
  obtain ⟨rfl, rfl⟩ | ⟨hne, hj⟩ := entry_set_cases hj
  · have hquiet := none_flying h hi (by rw [hc]; rfl) hcopied hheard
    refine ⟨fun d hd hpeer => ?_, (hs j c hi hcopied hheard).2⟩
    obtain hd | hd := List.mem_append.mp hd
    · exact absurd hpeer (hquiet d hd)
    · rw [List.mem_singleton.mp hd]
      rfl
  · obtain ⟨hrounds, hrange⟩ := hs j x hj hcopied hheard
    refine ⟨fun d hd hpeer => ?_, hrange⟩
    obtain hd | hd := List.mem_append.mp hd
    · exact hrounds d hd hpeer
    · rw [List.mem_singleton.mp hd] at hpeer
      exact absurd hpeer (Ne.symm hne)

/-- The invariant of the state after the step says that nothing is in flight for the client. -/
theorem InStep.read {i k : ℕ} {c : Client} {d : Datagram} {w : Wire Datagram} {szBuf : Buffer sizeBuf}
    {line : List UInt8} (hs : InStep s) (hi : s.clients[i]? = some c)
    (ht : Invariant n { s with clients := s.clients.set i (c.pass szBuf line (some d.round)), wire := w })
    (htake : s.wire.take k = some (d, w)) (hpeer : d.peer = i) :
    InStep { s with clients := s.clients.set i (c.pass szBuf line (some d.round)), wire := w } := by
  obtain ⟨hk, rfl⟩ := Wire.taken_inv htake
  intro j x hj hcopied hheard
  have hj' := hj
  obtain ⟨rfl, rfl⟩ | ⟨hne, hj⟩ := entry_set_cases hj
  · have hquiet := none_flying ht hj' (Client.waits_pass szBuf line (some d.round)) hcopied hheard
    obtain ⟨hrounds, hrange⟩ := hs j c hi hcopied fun hmem => hheard (List.mem_append_left _ hmem)
    refine ⟨fun d' hd' hpeer' => absurd hpeer' (hquiet d' hd'), ?_⟩
    show c.heard ++ [some d.round] = (List.range (c.loop + 1)).map some
    rw [hrange, hrounds d (List.mem_of_getElem? hk) hpeer, List.range_succ, List.map_append,
      List.map_singleton]
  · obtain ⟨hrounds, hrange⟩ := hs j x hj hcopied hheard
    exact ⟨fun d' hd' => hrounds d' (List.mem_of_mem_eraseIdx hd'), hrange⟩

theorem InStep.miss (hs : InStep s) {i : ℕ} {c : Client} :
    InStep { s with clients := s.clients.set i (c.pass c.szBuf [] none) } := by
  intro j x hj hcopied hheard
  obtain ⟨rfl, rfl⟩ | ⟨-, hj⟩ := entry_set_cases hj
  · exact absurd (List.mem_append_right _ (List.mem_singleton_self none)) hheard
  · exact hs j x hj hcopied hheard

/-- Steps in which the clients stay where they are, nothing is copied, and what is in flight has been
before, up to the round and the peer. -/
theorem InStep.mono (hs : InStep s) (hclients : t.clients = s.clients)
    (hcopied : t.wire.copied = s.wire.copied)
    (hflying : ∀ d ∈ t.wire.flying, (∃ e ∈ s.wire.flying, d.peer = e.peer ∧ d.round = e.round) ∨
      s.clients.length ≤ d.peer) : InStep t := by
  intro i c hi hzero hheard
  rw [hclients] at hi
  rw [hcopied] at hzero
  obtain ⟨hrounds, hrange⟩ := hs i c hi hzero hheard
  refine ⟨fun d hd hpeer => ?_, hrange⟩
  obtain ⟨e, he, hep, her⟩ | hstranger := hflying d hd
  · rw [her]
    exact hrounds e he (hep.symm.trans hpeer)
  · have hlt := (List.getElem?_eq_some_iff.mp hi).1
    omega

theorem InStep.copy (hs : InStep s) {k : ℕ} {w : Wire Datagram} (hcopy : s.wire.copy k = some w) :
    InStep { s with wire := w } := by
  obtain ⟨d, hk, rfl⟩ := Wire.copied_inv hcopy
  intro i c hi hzero hheard
  have hsum : tally (ofPeer i) (s.wire.copied ++ [d]) = 0 := hzero
  rw [tally_snoc] at hsum
  have hother : d.peer ≠ i := by
    intro hpeer
    rw [← hpeer, ofPeer_self] at hsum
    omega
  obtain ⟨hrounds, hrange⟩ := hs i c hi (by omega) hheard
  refine ⟨fun e he hpeer => ?_, hrange⟩
  obtain he | he := List.mem_append.mp he
  · exact hrounds e he hpeer
  · rw [List.mem_singleton.mp he] at hpeer
    exact absurd hpeer hother

theorem InStep.step {a : Act} (h : Invariant n s) (hs : InStep s) (ha : Allowed n a)
    (hstep : step s a = some t) : InStep t := by
  have ht := h.step ha hstep
  cases steps_of_step hstep with
  | send hi hc => exact hs.send h hi hc
  | @read i k c d w hi hc htake hd hpeer =>
    obtain ⟨hgood, -⟩ := h.good.taken htake
    obtain ⟨b, hread⟩ := Client.read_eq (c := c) hgood hd (hpeer ▸ h.lt hi)
    rw [hread] at ht ⊢
    exact hs.read hi ht htake hpeer
  | miss hi hc => exact hs.miss
  | @serve k sendOK b d w hrun htake hd =>
    obtain ⟨hgood, -⟩ := h.good.taken htake
    obtain ⟨server, hserve, -, -⟩ := serve_spec s b sendOK w hgood hd
    obtain ⟨hk, rfl⟩ := Wire.taken_inv htake
    rw [hserve]
    refine hs.mono rfl rfl fun e he => .inl ?_
    obtain he | he := List.mem_append.mp he
    · exact ⟨e, List.mem_of_mem_eraseIdx he, rfl, rfl⟩
    · cases sendOK with
      | true =>
        obtain ⟨m, -, rfl⟩ := List.mem_map.mp he
        exact ⟨d, List.mem_of_getElem? hk, rfl, rfl⟩
      | false => cases he
  | fail hrun => exact hs.mono rfl rfl fun e he => .inl ⟨e, he, rfl, rfl⟩
  | lose hlose =>
    obtain ⟨d, -, rfl⟩ := Wire.lost_inv hlose
    exact hs.mono rfl rfl fun e he => .inl ⟨e, List.mem_of_mem_eraseIdx he, rfl, rfl⟩
  | copy hcopy => exact hs.copy hcopy
  | inject peer msg =>
    refine hs.mono rfl rfl fun e he => ?_
    obtain he | he := List.mem_append.mp he
    · exact .inl ⟨e, he, rfl, rfl⟩
    · rw [List.mem_singleton.mp he]
      refine .inr ?_
      rw [h.clients]
      exact ha.1

end

theorem inStep_init (rcvBuf : Buffer sizeBuf) (szBufs : List (Buffer sizeBuf)) :
    InStep (init rcvBuf szBufs) := by
  intro i c hi _ _
  obtain ⟨szBuf, hc⟩ := List.mem_map.mp (List.mem_of_getElem? hi)
  rw [← hc.2]
  exact ⟨(fun d hd => by cases hd), rfl⟩

/-- The heard answers of client 0 after a run of one client. -/
def heard (as : List Act) : Option (List (Option ℕ)) :=
  (exec step (init (.zero sizeBuf) [.zero sizeBuf]) as).bind fun s => s.clients[0]?.map Client.heard

/-- The first reply is copied, and the copy is read in the second pass. -/
def copiedReply : List Act :=
  [.send 0, .serve 0 true, .copy 0, .read 0 0, .send 0, .read 0 0]

/-- The first `recvfrom` fails, and the reply comes in the second pass. -/
def lateReply : List Act := [.send 0, .miss 0, .send 0, .serve 0 true, .read 0 1]

/-- **Own answers.** A client for which nothing has been copied, and none of whose `recvfrom` has failed,
has read the answers to its requests in order, one in each pass, whatever is lost or delayed and whatever
the others do. After one copy, or one failed `recvfrom`, it can read the answer to an older request. -/
theorem own_answers :
    (∀ (rcvBuf : Buffer sizeBuf) (szBufs : List (Buffer sizeBuf)) (as : List Act) (s : State),
      exec step (init rcvBuf szBufs) as = some s → (∀ a ∈ as, Allowed szBufs.length a) →
      ∀ (i : ℕ) (c : Client), s.clients[i]? = some c → tally (ofPeer i) s.wire.copied = 0 →
        none ∉ c.heard → c.heard = (List.range c.heard.length).map some) ∧
      heard copiedReply = some [some 0, some 0] ∧ heard lateReply = some [none, some 0] := by
  refine ⟨fun rcvBuf szBufs as s h has i c hi hcopied hheard => ?_, by decide +kernel, by decide +kernel⟩
  have hboth : ∀ s a t, Invariant szBufs.length s ∧ InStep s → Allowed szBufs.length a →
      step s a = some t → Invariant szBufs.length t ∧ InStep t :=
    fun s a t hs ha hstep => ⟨hs.1.step ha hstep, hs.2.step hs.1 ha hstep⟩
  obtain ⟨hI, hS⟩ := exec_invariant_of _ _ hboth h has
    ⟨invariant_init rcvBuf szBufs, inStep_init rcvBuf szBufs⟩
  have hrange := (hS i c hi hcopied hheard).2
  rw [(hI.sound i c hi).loop] at hrange
  exact hrange

/-- Client 0 comes through its loop; the answer to client 1 overtakes its first and is lost at last. -/
def overtaken : List Act :=
  [.send 0, .send 1, .serve 1 true, .serve 0 true, .read 0 1, .send 0, .serve 1 true, .read 0 1,
    .send 0, .serve 1 true, .lose 0, .read 0 0]

theorem own_answers_overtaken :
    ∃ (s : State) (c : Client),
      exec step (init (.zero sizeBuf) [.zero sizeBuf, .zero sizeBuf]) overtaken = some s ∧
      s.clients[0]? = some c ∧ c.heard.length = 3 ∧ c.heard = (List.range c.heard.length).map some := by
  obtain ⟨s, hs⟩ := Option.isSome_iff_exists.mp
    (show (exec step (init (.zero sizeBuf) [.zero sizeBuf, .zero sizeBuf]) overtaken).isSome = true by
      decide +kernel)
  have hshape : (exec step (init (.zero sizeBuf) [.zero sizeBuf, .zero sizeBuf]) overtaken).map
      (fun s => (s.clients[0]?.map fun c => (c.heard.length, decide (none ∈ c.heard)),
        tally (ofPeer 0) s.wire.copied)) = some (some (3, false), 0) := by
    decide +kernel
  rw [hs] at hshape
  obtain ⟨hclient, hcopied⟩ := Prod.mk.injEq .. ▸ Option.some.inj hshape
  obtain ⟨c, hc, hheard⟩ := Option.map_eq_some_iff.mp hclient
  obtain ⟨hlen, hnone⟩ := Prod.mk.injEq .. ▸ hheard
  have hallowed : ∀ a ∈ overtaken, Allowed [Buffer.zero sizeBuf, Buffer.zero sizeBuf].length a :=
    allowed_of_ours (by decide)
  refine ⟨s, c, hs, hc, hlen, ?_⟩
  exact own_answers.1 _ _ overtaken s hs hallowed 0 c hc hcopied (of_decide_eq_false hnone)

end LinuxAppSamp.Echo.Network
