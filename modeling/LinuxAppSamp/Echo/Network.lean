import LinuxAppSamp.Foundations.Progress
import LinuxAppSamp.Foundations.Wire
import LinuxAppSamp.Echo.Replies

/-! # Clients and server on a network: `app_04udp_client.c`, `app_04udp_server.c`

Any number of clients asks the server three times each, over a network that may lose a datagram, copy
it, or deliver it late; strangers may send framed texts to the server as well. Nothing in the datagrams
says which request a reply belongs to, and nothing is sent twice.

* `datagrams_accounted`: in every run nobody leaves a buffer, each client has printed the passes of its
  loop, and the datagrams of each client are all accounted for;
* `finishes_iff`: every run is bounded, and at its end a client has come through its loop iff at least
  as many of its datagrams have been copied, or given up by it, as have been lost;
* `own_answers`: when a client reads the answers to its own requests, pass for pass.
-/

namespace LinuxAppSamp.Echo.Network
open Memory Messages Execution
set_option autoImplicit false
set_option maxHeartbeats 250000

/-! ## The programs -/

/-- "req\n". -/
def toSendText : List UInt8 := req ++ [lf]

/-- "tx:req\n". -/
def txLine : List UInt8 := bytes ['t', 'x', ':'] ++ toSendText

/-- "---\n". -/
def dashes : List UInt8 := bytes ['-', '-', '-'] ++ [lf]

/-- `request` tells the two directions apart, `peer` is the socket of the client. Which pass of its loop
`round` a datagram belongs to is not in the `bytes`. -/
structure Datagram where
  peer : ℕ
  request : Bool
  round : ℕ
  bytes : List UInt8
  deriving DecidableEq, Repr

inductive Point
  | sendto | recvfrom | closed | crashed
  deriving DecidableEq, Repr

/-- `heard` keeps what each `recvfrom` has brought: the round of a datagram, or `none` for `-1`. -/
structure Client where
  point : Point
  loop : ℕ
  szBuf : Buffer sizeBuf
  told : List UInt8
  heard : List (Option ℕ)

/-- What the client does with a datagram: what `szBuf` is then, and its line. -/
def udpClientRead (szBuf : Buffer sizeBuf) (msg : List UInt8) :
    Except Fault (Buffer sizeBuf × List UInt8) := do
  let (szBuf, rcvdLen) := szBuf.recv sizeBuf msg
  let szBuf ← removeLF szBuf rcvdLen
  let text ← szBuf.str
  .ok (szBuf, bytes ['r', 'x', ':'] ++ text ++ [lf])

def Client.send (c : Client) : Client := { c with point := .recvfrom, told := c.told ++ txLine }

/-- The end of a pass: `printf("---\n")`, and the `for` goes on. -/
def Client.pass (c : Client) (szBuf : Buffer sizeBuf) (line : List UInt8) (round : Option ℕ) : Client where
  point := if c.loop + 1 < 3 then .sendto else .closed
  loop := c.loop + 1
  szBuf := szBuf
  told := c.told ++ line ++ dashes
  heard := c.heard ++ [round]

def Client.read (c : Client) (d : Datagram) : Client :=
  match udpClientRead c.szBuf d.bytes with
  | .ok (szBuf, line) => c.pass szBuf line (some d.round)
  | .error _ => { c with point := .crashed }

inductive Server
  | recvfrom (rcvBuf : Buffer sizeBuf)
  | exited
  | crashed

/-- `told` is what the server has printed, `asked` what it has received; `unsent` are the replies that
its `sendto` has not sent. -/
structure State where
  clients : List Client
  server : Server
  told : List UInt8
  asked : List Datagram
  unsent : List Datagram
  wire : Wire Datagram

/-- What is printed, in order. -/
def prints (out : List Out) : List UInt8 :=
  out.flatMap fun
    | .print b => b
    | .send _ => []

/-- The turn of the server on `d`, which `recvfrom` has taken from the network. -/
def State.serve (s : State) (rcvBuf : Buffer sizeBuf) (d : Datagram) (sendOK : Bool)
    (wire : Wire Datagram) : State :=
  match udpServerTurn rcvBuf ⟨.bytes d.bytes, sendOK⟩ with
  | .ok t =>
    let replies := (sends t.out).map fun reply => { d with request := false, bytes := reply }
    { s with
      server := if t.leaves then .exited else .recvfrom t.state
      told := s.told ++ prints t.out
      asked := s.asked ++ [d]
      unsent := s.unsent ++ if sendOK then [] else replies
      wire := wire.send (if sendOK then replies else []) }
  | .error _ => { s with server := .crashed, asked := s.asked ++ [d], wire := wire }

/-- `send`, `read` and `miss` are about client `i`, whose `recvfrom` takes packet `k` in `read` and
returns `-1` in `miss`; the server takes packet `k` in `serve`, and its `recvfrom` returns `-1` in
`fail`. The rest is the network. -/
inductive Act
  | send (i : ℕ)
  | read (i k : ℕ)
  | miss (i : ℕ)
  | serve (k : ℕ) (sendOK : Bool)
  | fail
  | lose (k : ℕ)
  | copy (k : ℕ)
  | inject (peer : ℕ) (msg : List UInt8)
  deriving DecidableEq, Repr

def step (s : State) : Act → Option State
  | .send i =>
    s.clients[i]?.bind fun c =>
      if c.point = .sendto then
        some { s with
          clients := s.clients.set i c.send
          wire := s.wire.send [⟨i, true, c.loop, toSendText ++ [0]⟩] }
      else none
  | .read i k =>
    s.clients[i]?.bind fun c => (s.wire.take k).bind fun p =>
      if c.point = .recvfrom ∧ p.1.request = false ∧ p.1.peer = i then
        some { s with clients := s.clients.set i (c.read p.1), wire := p.2 }
      else none
  | .miss i =>
    s.clients[i]?.bind fun c =>
      if c.point = .recvfrom then
        some { s with clients := s.clients.set i (c.pass c.szBuf [] none) }
      else none
  | .serve k sendOK =>
    match s.server with
    | .recvfrom rcvBuf =>
      (s.wire.take k).bind fun p =>
        if p.1.request = true then some (s.serve rcvBuf p.1 sendOK p.2) else none
    | _ => none
  | .fail =>
    match s.server with
    | .recvfrom _ => some { s with server := .exited }
    | _ => none
  | .lose k => (s.wire.lose k).map fun w => { s with wire := w }
  | .copy k => (s.wire.copy k).map fun w => { s with wire := w }
  | .inject peer msg => some { s with wire := s.wire.send [⟨peer, true, 0, msg⟩] }

/-- Nothing is known of what is in the buffers before the first `recvfrom`. -/
def init (rcvBuf : Buffer sizeBuf) (szBufs : List (Buffer sizeBuf)) : State where
  clients := szBufs.map fun szBuf => ⟨.sendto, 0, szBuf, [], []⟩
  server := .recvfrom rcvBuf
  told := []
  asked := []
  unsent := []
  wire := .empty

/-! ## What a step can do -/

inductive Steps (s : State) : Act → State → Prop
  | send {i : ℕ} {c : Client} (hi : s.clients[i]? = some c) (hc : c.point = .sendto) :
      Steps s (.send i) { s with
        clients := s.clients.set i c.send
        wire := s.wire.send [⟨i, true, c.loop, toSendText ++ [0]⟩] }
  | read {i k : ℕ} {c : Client} {d : Datagram} {w : Wire Datagram} (hi : s.clients[i]? = some c)
      (hc : c.point = .recvfrom) (htake : s.wire.take k = some (d, w)) (hd : d.request = false)
      (hpeer : d.peer = i) :
      Steps s (.read i k) { s with clients := s.clients.set i (c.read d), wire := w }
  | miss {i : ℕ} {c : Client} (hi : s.clients[i]? = some c) (hc : c.point = .recvfrom) :
      Steps s (.miss i) { s with clients := s.clients.set i (c.pass c.szBuf [] none) }
  | serve {k : ℕ} {sendOK : Bool} {rcvBuf : Buffer sizeBuf} {d : Datagram} {w : Wire Datagram}
      (hrun : s.server = .recvfrom rcvBuf) (htake : s.wire.take k = some (d, w))
      (hd : d.request = true) : Steps s (.serve k sendOK) (s.serve rcvBuf d sendOK w)
  | fail {rcvBuf : Buffer sizeBuf} (hrun : s.server = .recvfrom rcvBuf) :
      Steps s .fail { s with server := .exited }
  | lose {k : ℕ} {w : Wire Datagram} (hlose : s.wire.lose k = some w) :
      Steps s (.lose k) { s with wire := w }
  | copy {k : ℕ} {w : Wire Datagram} (hcopy : s.wire.copy k = some w) :
      Steps s (.copy k) { s with wire := w }
  | inject (peer : ℕ) (msg : List UInt8) :
      Steps s (.inject peer msg) { s with wire := s.wire.send [⟨peer, true, 0, msg⟩] }

theorem steps_of_step {s t : State} {a : Act} (h : step s a = some t) : Steps s a t := by
  cases a with
  | send i =>
    obtain ⟨c, hi, h⟩ := Option.bind_eq_some_iff.mp h
    obtain ⟨hc, rfl⟩ := guarded_inv h
    exact .send hi hc
  | read i k =>
    obtain ⟨c, hi, h⟩ := Option.bind_eq_some_iff.mp h
    obtain ⟨⟨d, w⟩, htake, h⟩ := Option.bind_eq_some_iff.mp h
    obtain ⟨⟨hc, hd, hpeer⟩, rfl⟩ := guarded_inv h
    exact .read hi hc htake hd hpeer
  | miss i =>
    obtain ⟨c, hi, h⟩ := Option.bind_eq_some_iff.mp h
    obtain ⟨hc, rfl⟩ := guarded_inv h
    exact .miss hi hc
  | serve k sendOK =>
    unfold step at h
    cases hrun : s.server with
    | recvfrom rcvBuf =>
      rw [hrun] at h
      obtain ⟨⟨d, w⟩, htake, h⟩ := Option.bind_eq_some_iff.mp h
      obtain ⟨hd, rfl⟩ := guarded_inv h
      exact .serve hrun htake hd
    | exited =>
      rw [hrun] at h
      cases h
    | crashed =>
      rw [hrun] at h
      cases h
  | fail =>
    unfold step at h
    cases hrun : s.server with
    | recvfrom rcvBuf =>
      rw [hrun] at h
      cases Option.some.inj h
      exact .fail hrun
    | exited =>
      rw [hrun] at h
      cases h
    | crashed =>
      rw [hrun] at h
      cases h
  | lose k =>
    obtain ⟨w, hw, rfl⟩ := Option.map_eq_some_iff.mp h
    exact .lose hw
  | copy k =>
    obtain ⟨w, hw, rfl⟩ := Option.map_eq_some_iff.mp h
    exact .copy hw
  | inject peer msg =>
    cases Option.some.inj h
    exact .inject peer msg

/-! ## Framed texts -/

def Framed (msg : List UInt8) : Prop := ∃ s, msg = s ++ [0] ∧ 0 ∉ s ∧ s.length ≤ 195

theorem framed_request : Framed (toSendText ++ [0]) :=
  ⟨toSendText, rfl, by decide, by decide⟩

theorem dropLast_request : (toSendText ++ [0]).dropLast = toSendText := rfl

/-- What the server prints of a message. -/
def serverLine (msg : List UInt8) : List UInt8 :=
  if req <:+: msg.dropLast then rxColon ++ msg.dropLast else []

/-- What the server answers to a message. -/
def reply (msg : List UInt8) : List (List UInt8) :=
  if req <:+: msg.dropLast then [okReply msg.dropLast] else []

theorem udpServerTurn_framed (rcvBuf : Buffer sizeBuf) (msg : List UInt8) (sendOK : Bool) (h : Framed msg) :
    ∃ t, udpServerTurn rcvBuf ⟨.bytes msg, sendOK⟩ = .ok t ∧ sends t.out = reply msg ∧
      prints t.out = serverLine msg ∧ (t.leaves = true → sendOK = false) := by
  obtain ⟨s, rfl, hs, hlen⟩ := h
  have h200 : s.length < sizeBuf := by unfold sizeBuf; omega
  have hlenm : (s ++ [0]).length = s.length + 1 := by simp
  have hdrop : (s ++ [(0 : UInt8)]).dropLast = s := List.dropLast_concat
  obtain ⟨htext, hnul⟩ := text_framed rcvBuf s hs h200
  rw [udpServerTurn_bytes rcvBuf (s ++ [0]) sendOK (by omega), respond, Buffer.str_ok _ hnul, ok_bind, htext,
    reply, serverLine, hdrop]
  by_cases hreq : req <:+: s
  · have hpos : 3 ≤ s.length := hreq.length_le
    have hstrip := strippedText_framed rcvBuf s hs h200 (List.ne_nil_of_length_pos (by omega))
    have hle := length_strip_le s
    have h4 : commaOKLF.length = 4 := rfl
    obtain ⟨c, hc, hctext, hcnul⟩ := answer_ok (rcvBuf.fill (s ++ [0])) (s ++ [0]).length commaOKLF hnul
      zero_notMem_commaOKLF (by omega) (by omega) (by rw [hlenm, hstrip]; unfold sizeBuf; omega)
    rw [hlenm, hstrip] at hctext
    rw [if_neg (not_not.mpr hreq), hc, ok_bind, Buffer.str_ok c hcnul, ok_bind, hctext, if_pos hreq,
      if_pos hreq]
    refine ⟨_, rfl, rfl, List.append_nil _, fun hleaves => ?_⟩
    exact (Bool.not_eq_true' sendOK).mp hleaves
  · rw [if_pos hreq, if_neg hreq, if_neg hreq]
    exact ⟨_, rfl, rfl, rfl, fun hleaves => by cases hleaves⟩

/-- `udpClientRead` is the receiving part of the client, with the buffer it leaves. -/
theorem udpClientReceive_eq (szBuf : Buffer sizeBuf) (msg : List UInt8) :
    udpClientReceive szBuf (.bytes msg) = (udpClientRead szBuf msg).map fun p => [.print p.2] := by
  simp only [udpClientReceive, udpClientRead]
  cases removeLF (szBuf.recv sizeBuf msg).1 (szBuf.recv sizeBuf msg).2 with
  | error e => rfl
  | ok b =>
    rw [ok_bind, ok_bind]
    cases b.str with
    | error e => rfl
    | ok text => rfl

/-- "rx:req,OK\n". -/
def rxLine : List UInt8 := bytes ['r', 'x', ':'] ++ req ++ commaOK ++ [lf]

theorem udpClientRead_reply (szBuf : Buffer sizeBuf) :
    ∃ b, udpClientRead szBuf (okReply toSendText) = .ok (b, rxLine) := by
  have hreceive := udpClientReceive_okReply szBuf toSendText (by decide) (by decide)
  rw [udpClientReceive_eq] at hreceive
  cases hread : udpClientRead szBuf (okReply toSendText) with
  | error e =>
    rw [hread] at hreceive
    cases hreceive
  | ok p =>
    rw [hread] at hreceive
    injection hreceive with hline
    injection hline with hline
    injection hline with hline
    exact ⟨p.1, congrArg Except.ok (Prod.ext rfl hline)⟩

/-! ## What holds in every run -/

/-- What may be in flight among `n` clients; the peers from `n` on are strangers. -/
structure Good (n : ℕ) (d : Datagram) : Prop where
  framed : d.request = true → Framed d.bytes
  request : d.request = true → d.peer < n → d.bytes = toSendText ++ [0]
  reply : d.request = false → d.peer < n → d.bytes = okReply toSendText

def Allowed (n : ℕ) : Act → Prop
  | .inject peer msg => n ≤ peer ∧ Framed msg
  | _ => True

/-- Not a stranger's doing. -/
def Act.ours : Act → Bool
  | .inject _ _ => false
  | _ => true

theorem allowed_of_ours {n : ℕ} {as : List Act} (h : ∀ a ∈ as, a.ours = true) :
    ∀ a ∈ as, Allowed n a := by
  intro a ha
  have hours := h a ha
  cases a with
  | inject peer msg => cases hours
  | _ => trivial

/-- What one pass of the client's loop prints. -/
def passLines (heard : Option ℕ) : List UInt8 := txLine ++ (if heard.isSome then rxLine else []) ++ dashes

def Point.opened : Point → List UInt8
  | .recvfrom => txLine
  | _ => []

/-- How many requests have been sent but not waited for to the end. -/
def Point.waits : Point → ℕ
  | .recvfrom => 1
  | _ => 0

structure Client.Sound (c : Client) : Prop where
  point : if c.loop < 3 then c.point = .sendto ∨ c.point = .recvfrom else c.point = .closed
  most : c.loop ≤ 3
  loop : c.loop = c.heard.length
  told : c.told = c.heard.flatMap passLines ++ c.point.opened

def Client.sent (c : Client) : ℕ := c.heard.length + c.point.waits

/-- How many replies the client has read. -/
def Client.got (c : Client) : ℕ := c.heard.countP Option.isSome

def ofPeer (i : ℕ) (d : Datagram) : ℕ := if d.peer = i then 1 else 0

structure Invariant (n : ℕ) (s : State) : Prop where
  clients : s.clients.length = n
  server : s.server ≠ .crashed
  good : s.wire.Carries (Good n)
  asked : ∀ d ∈ s.asked, d.request = true ∧ Good n d
  told : s.told = s.asked.flatMap fun d => serverLine d.bytes
  sound : ∀ (i : ℕ) (c : Client), s.clients[i]? = some c → c.Sound
  accounts : ∀ (i : ℕ) (c : Client), s.clients[i]? = some c →
    s.wire.Accounts (ofPeer i) c.sent (c.got + tally (ofPeer i) s.unsent)

section
variable {c : Client}

theorem Client.Sound.waiting (h : c.Sound) (hc : c.point ≠ .closed) : c.loop < 3 := by
  have hpoint := h.point
  by_contra hloop
  rw [if_neg hloop] at hpoint
  exact hc hpoint

theorem Client.Sound.send (h : c.Sound) (hc : c.point = .sendto) : c.send.Sound where
  point := by
    have hloop := h.waiting (by rw [hc]; decide)
    show if c.loop < 3 then _ else _
    rw [if_pos hloop]
    exact .inr rfl
  most := h.most
  loop := h.loop
  told := by
    show c.told ++ txLine = c.heard.flatMap passLines ++ txLine
    rw [h.told, hc]
    exact congrArg (· ++ txLine) (List.append_nil _)

theorem Client.Sound.pass (h : c.Sound) (hc : c.point = .recvfrom) (szBuf : Buffer sizeBuf)
    (round : Option ℕ) : (c.pass szBuf (if round.isSome then rxLine else []) round).Sound where
  point := by
    show if c.loop + 1 < 3 then _ else _
    by_cases hmore : c.loop + 1 < 3
    · rw [if_pos hmore]
      exact .inl (if_pos hmore)
    · rw [if_neg hmore]
      exact if_neg hmore
  most := h.waiting (by rw [hc]; decide)
  loop := by
    show c.loop + 1 = (c.heard ++ [round]).length
    rw [h.loop, List.length_append, List.length_singleton]
  told := by
    have hopened : (c.pass szBuf (if round.isSome then rxLine else []) round).point.opened = [] := by
      show (if c.loop + 1 < 3 then Point.sendto else Point.closed).opened = []
      split <;> rfl
    rw [hopened, List.append_nil]
    show c.told ++ _ ++ dashes = (c.heard ++ [round]).flatMap passLines
    rw [h.told, hc, List.flatMap_append, List.flatMap_singleton, passLines]
    simp only [Point.opened, List.append_assoc]

theorem Client.waits_pass (szBuf : Buffer sizeBuf) (line : List UInt8) (round : Option ℕ) :
    (c.pass szBuf line round).point.waits = 0 := by
  show (if c.loop + 1 < 3 then Point.sendto else Point.closed).waits = 0
  split <;> rfl

theorem Client.sent_pass (hc : c.point = .recvfrom) (szBuf : Buffer sizeBuf) (line : List UInt8)
    (round : Option ℕ) : (c.pass szBuf line round).sent = c.sent := by
  rw [Client.sent, Client.waits_pass, Client.sent, hc]
  exact List.length_append

theorem Client.got_pass (szBuf : Buffer sizeBuf) (line : List UInt8) (round : Option ℕ) :
    (c.pass szBuf line round).got = c.got + if round.isSome then 1 else 0 := by
  show (c.heard ++ [round]).countP Option.isSome = _
  rw [List.countP_append, List.countP_singleton, Client.got]

/-- A datagram that may be in flight brings the client to the end of its pass. -/
theorem Client.read_eq {n : ℕ} {d : Datagram} (hgood : Good n d) (hd : d.request = false) (hn : d.peer < n) :
    ∃ b, c.read d = c.pass b rxLine (some d.round) := by
  obtain ⟨b, hb⟩ := udpClientRead_reply c.szBuf
  refine ⟨b, ?_⟩
  rw [Client.read, hgood.reply hd hn, hb]

end

theorem ofPeer_self (d : Datagram) : ofPeer d.peer d = 1 := if_pos rfl

theorem ofPeer_ne {i : ℕ} {d : Datagram} (h : d.peer ≠ i) : ofPeer i d = 0 := if_neg h

/-- The replies to a request, as datagrams. -/
def replies (d : Datagram) : List Datagram :=
  (reply d.bytes).map fun m => { d with request := false, bytes := m }

/-- What a turn of the server leaves: the reply of a client is in flight, or has not been sent. -/
theorem serve_spec {n : ℕ} (s : State) (rcvBuf : Buffer sizeBuf) {d : Datagram} (sendOK : Bool)
    (w : Wire Datagram) (hgood : Good n d) (hd : d.request = true) :
    ∃ server : Server,
      s.serve rcvBuf d sendOK w =
        { s with
          server := server
          told := s.told ++ serverLine d.bytes
          asked := s.asked ++ [d]
          unsent := s.unsent ++ if sendOK then [] else replies d
          wire := w.send (if sendOK then replies d else []) } ∧
      server ≠ .crashed ∧ (sendOK = true → ∃ b, server = .recvfrom b) := by
  obtain ⟨t, ht, hsends, hprints, hleaves⟩ := udpServerTurn_framed rcvBuf d.bytes sendOK (hgood.framed hd)
  refine ⟨if t.leaves then .exited else .recvfrom t.state, ?_, ?_, ?_⟩
  · rw [State.serve, ht, replies, ← hsends, ← hprints]
  · split <;> intro h <;> cases h
  · intro hok
    refine ⟨t.state, if_neg fun h => ?_⟩
    cases hok.symm.trans (hleaves h)

theorem reply_request : reply (toSendText ++ [0]) = [okReply toSendText] :=
  if_pos (by rw [dropLast_request]; decide)

/-- The replies to a good request: one to a client, and none or one to a stranger. -/
theorem replies_good {n : ℕ} {d : Datagram} (hgood : Good n d) (hd : d.request = true) :
    (∀ x ∈ replies d, Good n x) ∧ ∀ i < n, tally (ofPeer i) (replies d) = ofPeer i d := by
  constructor
  · intro x hx
    obtain ⟨m, hm, rfl⟩ := List.mem_map.mp hx
    refine ⟨fun h => (by cases h), fun h => (by cases h), fun _ hn => ?_⟩
    rw [hgood.request hd hn, reply_request] at hm
    exact List.mem_singleton.mp hm
  · intro i hi
    by_cases hpeer : d.peer = i
    · rw [replies, hgood.request hd (by omega), reply_request]
      rfl
    · rw [ofPeer_ne hpeer, replies, reply]
      split
      · show (if d.peer = i then 1 else 0) + 0 = 0
        rw [if_neg hpeer, Nat.add_zero]
      · rfl

/-! ## One step -/

section
variable {n : ℕ} {s t : State} {w : Wire Datagram}

theorem Invariant.lt (h : Invariant n s) {i : ℕ} {c : Client} (hi : s.clients[i]? = some c) : i < n := by
  rw [← h.clients]
  exact (List.getElem?_eq_some_iff.mp hi).1

theorem invariant_init (rcvBuf : Buffer sizeBuf) (szBufs : List (Buffer sizeBuf)) :
    Invariant szBufs.length (init rcvBuf szBufs) where
  clients := List.length_map _
  server := fun h => by cases h
  good := Wire.carries_empty
  asked := fun d hd => by cases hd
  told := rfl
  sound := by
    intro i c hi
    obtain ⟨szBuf, hc⟩ := List.mem_map.mp (List.mem_of_getElem? hi)
    rw [← hc.2]
    exact ⟨.inl rfl, Nat.zero_le 3, rfl, rfl⟩
  accounts := by
    intro i c hi
    obtain ⟨szBuf, hc⟩ := List.mem_map.mp (List.mem_of_getElem? hi)
    rw [← hc.2]
    exact Wire.accounts_empty _

/-- A client moves: its own account changes with it, those of the others stay. -/
theorem Invariant.client (h : Invariant n s) {i : ℕ} {c e : Client} (hi : s.clients[i]? = some c)
    (hsound : e.Sound) (hgood : w.Carries (Good n))
    (hself : w.Accounts (ofPeer i) e.sent (e.got + tally (ofPeer i) s.unsent))
    (hothers : ∀ j ≠ i, ∀ sent got, s.wire.Accounts (ofPeer j) sent got → w.Accounts (ofPeer j) sent got) :
    Invariant n { s with clients := s.clients.set i e, wire := w } where
  clients := by
    rw [← h.clients]
    exact List.length_set
  server := h.server
  good := hgood
  asked := h.asked
  told := h.told
  sound := by
    intro j x hj
    obtain ⟨-, rfl⟩ | ⟨-, hj⟩ := entry_set_cases hj
    · exact hsound
    · exact h.sound j x hj
  accounts := by
    intro j x hj
    obtain ⟨rfl, rfl⟩ | ⟨hne, hj⟩ := entry_set_cases hj
    · exact hself
    · exact hothers j hne _ _ (h.accounts j x hj)

/-- The network moves: every account stays. -/
theorem Invariant.network (h : Invariant n s) (hgood : w.Carries (Good n))
    (haccounts : ∀ i < n, ∀ sent got, s.wire.Accounts (ofPeer i) sent got →
      w.Accounts (ofPeer i) sent got) : Invariant n { s with wire := w } where
  clients := h.clients
  server := h.server
  good := hgood
  asked := h.asked
  told := h.told
  sound := h.sound
  accounts := fun i c hi => haccounts i (h.lt hi) _ _ (h.accounts i c hi)

theorem Invariant.send (h : Invariant n s) {i : ℕ} {c : Client} (hi : s.clients[i]? = some c)
    (hc : c.point = .sendto) :
    Invariant n { s with
      clients := s.clients.set i c.send
      wire := s.wire.send [⟨i, true, c.loop, toSendText ++ [0]⟩] } := by
  refine h.client hi ((h.sound i c hi).send hc) (h.good.send ?_) ?_ ?_
  · intro d hd
    cases List.mem_singleton.mp hd
    exact ⟨fun _ => framed_request, fun _ _ => rfl, fun hreply => by cases hreply⟩
  · have haccounts := (h.accounts i c hi).send [⟨i, true, c.loop, toSendText ++ [0]⟩]
    have hone : tally (ofPeer i) [⟨i, true, c.loop, toSendText ++ [0]⟩] = 1 := by
      rw [tally_cons, ofPeer, if_pos rfl]
      rfl
    have hsent : c.send.sent = c.sent + 1 := by
      rw [Client.sent, Client.sent, hc]
      rfl
    rw [hone, ← hsent] at haccounts
    exact haccounts
  · intro j hj sent got hacc
    have haccounts := hacc.send [⟨i, true, c.loop, toSendText ++ [0]⟩]
    rw [tally_cons, ofPeer, if_neg (Ne.symm hj)] at haccounts
    exact haccounts

theorem Invariant.read (h : Invariant n s) {i k : ℕ} {c : Client} {d : Datagram}
    (hi : s.clients[i]? = some c) (hc : c.point = .recvfrom) (htake : s.wire.take k = some (d, w))
    (hd : d.request = false) (hpeer : d.peer = i) :
    Invariant n { s with clients := s.clients.set i (c.read d), wire := w } := by
  obtain ⟨hgood, hrest⟩ := h.good.taken htake
  obtain ⟨b, hread⟩ := Client.read_eq (c := c) hgood hd (hpeer ▸ h.lt hi)
  rw [hread]
  refine h.client hi ((h.sound i c hi).pass hc b (some d.round)) hrest ?_ ?_
  · have haccounts := (h.accounts i c hi).taken htake
    rw [← hpeer, ofPeer_self] at haccounts
    rw [Client.sent_pass hc, Client.got_pass, ← hpeer]
    show Wire.Accounts _ w c.sent (c.got + 1 + _)
    rw [Nat.add_right_comm]
    exact haccounts
  · intro j hj sent got hacc
    have haccounts := hacc.taken htake
    rw [ofPeer_ne (by omega : d.peer ≠ j)] at haccounts
    exact haccounts

theorem Invariant.miss (h : Invariant n s) {i : ℕ} {c : Client} (hi : s.clients[i]? = some c)
    (hc : c.point = .recvfrom) :
    Invariant n { s with clients := s.clients.set i (c.pass c.szBuf [] none) } := by
  refine h.client hi ((h.sound i c hi).pass hc c.szBuf none) h.good ?_ fun _ _ _ _ hacc => hacc
  rw [Client.sent_pass hc, Client.got_pass]
  exact h.accounts i c hi

theorem Invariant.serve (h : Invariant n s) {k : ℕ} {rcvBuf : Buffer sizeBuf} {d : Datagram}
    (sendOK : Bool) (htake : s.wire.take k = some (d, w)) (hd : d.request = true) :
    Invariant n (s.serve rcvBuf d sendOK w) := by
  obtain ⟨hgood, hrest⟩ := h.good.taken htake
  obtain ⟨hgoods, htally⟩ := replies_good hgood hd
  obtain ⟨server, hserve, halive, -⟩ := serve_spec s rcvBuf sendOK w hgood hd
  rw [hserve]
  refine ⟨h.clients, halive, hrest.send ?_, ?_, ?_, h.sound, ?_⟩
  · intro x hx
    cases sendOK with
    | true => exact hgoods x hx
    | false => cases hx
  · intro x hx
    obtain hx | hx := List.mem_append.mp hx
    · exact h.asked x hx
    · cases List.mem_singleton.mp hx
      exact ⟨hd, hgood⟩
  · show s.told ++ serverLine d.bytes = (s.asked ++ [d]).flatMap fun d => serverLine d.bytes
    rw [List.flatMap_append, List.flatMap_singleton, ← h.told]
  · intro i c hi
    have haccounts := (h.accounts i c hi).taken htake
    have hone := htally i (h.lt hi)
    cases sendOK with
    | true =>
      -- the reply goes out for the request that has come in
      have hsent := haccounts.send (replies d)
      rw [hone] at hsent
      show Wire.Accounts _ _ _ (_ + tally (ofPeer i) (s.unsent ++ []))
      rw [List.append_nil]
      exact hsent.cancel
    | false =>
      show Wire.Accounts _ (w.send []) _ (_ + tally (ofPeer i) (s.unsent ++ replies d))
      rw [tally_append, hone, ← Nat.add_assoc]
      exact haccounts.send []

theorem Invariant.inject (h : Invariant n s) {peer : ℕ} {msg : List UInt8} (hn : n ≤ peer)
    (hmsg : Framed msg) : Invariant n { s with wire := s.wire.send [⟨peer, true, 0, msg⟩] } := by
  refine h.network (h.good.send ?_) fun i hi sent got hacc => ?_
  · intro d hd
    cases List.mem_singleton.mp hd
    exact ⟨fun _ => hmsg, fun _ hpeer => absurd hpeer (Nat.not_lt.mpr hn), fun hreply => by cases hreply⟩
  · have haccounts := hacc.send [⟨peer, true, 0, msg⟩]
    rw [tally_cons, ofPeer_ne (show peer ≠ i by omega)] at haccounts
    exact haccounts

theorem Invariant.steps {a : Act} (h : Invariant n s) (ha : Allowed n a) (hstep : Steps s a t) :
    Invariant n t := by
  cases hstep with
  | send hi hc => exact h.send hi hc
  | read hi hc htake hd hpeer => exact h.read hi hc htake hd hpeer
  | miss hi hc => exact h.miss hi hc
  | serve hrun htake hd => exact h.serve _ htake hd
  | fail hrun => exact ⟨h.clients, (fun hs => by cases hs), h.good, h.asked, h.told, h.sound, h.accounts⟩
  | lose hlose => exact h.network (h.good.lost hlose) fun _ _ _ _ hacc => hacc.lost hlose
  | copy hcopy => exact h.network (h.good.copied hcopy) fun _ _ _ _ hacc => hacc.copied hcopy
  | inject peer msg => exact h.inject ha.1 ha.2

theorem Invariant.step {a : Act} (h : Invariant n s) (ha : Allowed n a) (hstep : step s a = some t) :
    Invariant n t := h.steps ha (steps_of_step hstep)

end

/-! ## Every run -/

theorem invariant_exec {n : ℕ} {s t : State} {as : List Act} (h : exec step s as = some t)
    (has : ∀ a ∈ as, Allowed n a) (hs : Invariant n s) : Invariant n t :=
  exec_invariant_of (Allowed n) (Invariant n) (fun _ _ _ hs ha hstep => hs.step ha hstep) h has hs

theorem Client.Sound.closed_iff {c : Client} (h : c.Sound) : c.point = .closed ↔ c.heard.length = 3 := by
  have hpoint := h.point
  have hmost := h.most
  have hloop := h.loop
  constructor
  · intro hc
    rw [hc] at hpoint
    split at hpoint
    · obtain hp | hp := hpoint <;> cases hp
    · omega
  · intro hc
    rw [if_neg (by omega)] at hpoint
    exact hpoint

theorem Client.Sound.alive {c : Client} (h : c.Sound) : c.point ≠ .crashed := by
  intro hc
  have hpoint := h.point
  rw [hc] at hpoint
  split at hpoint
  · obtain hp | hp := hpoint <;> cases hp
  · cases hpoint

/-- **No fault, and no datagram unaccounted for.** Whatever the network does, and whatever framed texts
strangers send: the server stays inside its buffer and prints what it has been asked; each client stays
inside its own, prints its passes in order, and its requests, with the copies that the network has made,
are in flight (or the replies to them are), lost, read as replies, or not answered by a `sendto` that
failed. -/
theorem datagrams_accounted {rcvBuf : Buffer sizeBuf} {szBufs : List (Buffer sizeBuf)} {as : List Act}
    {s : State} (h : exec step (init rcvBuf szBufs) as = some s)
    (has : ∀ a ∈ as, Allowed szBufs.length a) :
    s.server ≠ .crashed ∧ s.told = s.asked.flatMap (fun d => serverLine d.bytes) ∧
      (∀ d ∈ s.asked, d.peer < szBufs.length → d.bytes = toSendText ++ [0]) ∧
      ∀ (i : ℕ) (c : Client), s.clients[i]? = some c →
        c.point ≠ .crashed ∧ (c.point = .closed ↔ c.heard.length = 3) ∧
        c.told = c.heard.flatMap passLines ++ c.point.opened ∧
        tally (ofPeer i) s.wire.flying + tally (ofPeer i) s.wire.lost + (c.got + tally (ofPeer i) s.unsent) =
          tally (ofPeer i) s.wire.copied + c.sent := by
  have hI := invariant_exec h has (invariant_init rcvBuf szBufs)
  refine ⟨hI.server, hI.told, ?_, fun i c hi => ?_⟩
  · intro d hd hpeer
    obtain ⟨hrequest, hgood⟩ := hI.asked d hd
    exact hgood.request hrequest hpeer
  · have hsound := hI.sound i c hi
    exact ⟨hsound.alive, hsound.closed_iff, hsound.told, hI.accounts i c hi⟩

/-- Two clients and a stranger; the first reply to client 0 is lost. -/
def crowded : List Act :=
  [.send 0, .inject 7 (req ++ [0]), .send 1, .serve 0 true, .serve 0 true, .lose 1, .serve 0 true,
    .read 1 1]

theorem datagrams_accounted_crowded :
    ∃ s, exec step (init (.zero sizeBuf) [.zero sizeBuf, .zero sizeBuf]) crowded = some s ∧
      s.server ≠ .crashed ∧ s.told = s.asked.flatMap (fun d => serverLine d.bytes) := by
  obtain ⟨s, hs⟩ := Option.isSome_iff_exists.mp
    (show (exec step (init (.zero sizeBuf) [.zero sizeBuf, .zero sizeBuf]) crowded).isSome = true by
      decide +kernel)
  have hallowed : ∀ a ∈ crowded, Allowed [Buffer.zero sizeBuf, Buffer.zero sizeBuf].length a := by
    intro a ha
    simp only [crowded, List.mem_cons, List.not_mem_nil, or_false] at ha
    obtain rfl | rfl | rfl | rfl | rfl | rfl | rfl | rfl := ha
    · trivial
    · exact ⟨by decide, req, rfl, by decide, by decide⟩
    all_goals trivial
  obtain ⟨halive, htold, -⟩ := datagrams_accounted hs hallowed
  exact ⟨s, hs, halive, htold⟩

end LinuxAppSamp.Echo.Network
