import LinuxAppSamp.Messages.Reply

/-! # The request servers `app_04tcp_server.c` and `app_04udp_server.c`

Each is one turn of its `while (1)` over the reused `rcvBuf`. They differ in when they leave, in
what they print and when; the reply they send is the same function of the buffer. `Fits` is the
condition under which a turn stays inside the buffer, `replies` what it then sends. The TCP
server's `inet_ntoa` line and both socket setups come before the loop and are not part of it.
-/

namespace LinuxAppSamp.Echo
open Memory Messages Execution
set_option autoImplicit false
set_option maxHeartbeats 250000

/-! ## The functions -/

def sizeBuf : ℕ := 200

def rxColon : List UInt8 := bytes ['r', 'x', ':', ' ']

/-- One turn of `app_04tcp_server.c`. -/
def tcpServerTurn (rcvBuf : Buffer sizeBuf) : Received → Except Fault (Turn (Buffer sizeBuf) Out)
  | .fail => .ok ⟨rcvBuf, [], true⟩
  | .bytes msg =>
    let (rcvBuf, rcvdLen) := rcvBuf.recv sizeBuf msg
    if rcvdLen = 0 then .ok ⟨rcvBuf, [], true⟩
    else do
      let text ← rcvBuf.str
      if ¬ req <:+: text then .ok ⟨rcvBuf, [], false⟩
      else do
        let rcvBuf ← answer rcvBuf rcvdLen commaOKLF
        let reply ← rcvBuf.str
        .ok ⟨rcvBuf, [.send (reply ++ [0]), .print (rxColon ++ reply)], false⟩

/-- What one turn of the UDP server meets: the result of `recvfrom`, and whether a `sendto` of
this turn succeeds. -/
structure UdpEvent where
  rcvd : Received
  sendOK : Bool
  deriving DecidableEq, Repr

/-- One turn of `app_04udp_server.c`; both calls of `exit` leave the loop. -/
def udpServerTurn (rcvBuf : Buffer sizeBuf) (e : UdpEvent) :
    Except Fault (Turn (Buffer sizeBuf) Out) :=
  match e.rcvd with
  | .fail => .ok ⟨rcvBuf, [], true⟩
  | .bytes msg => do
    let (rcvBuf, rcvdLen) := rcvBuf.recv sizeBuf msg
    let text ← rcvBuf.str
    if ¬ req <:+: text then .ok ⟨rcvBuf, [], false⟩
    else do
      let rcvBuf ← answer rcvBuf rcvdLen commaOKLF
      let reply ← rcvBuf.str
      .ok ⟨rcvBuf, [.print (rxColon ++ text), .send (reply ++ [0])], !e.sendOK⟩

/-- The `recvfrom` of `app_04udp_client.c` and the `if` after it. -/
def udpClientReceive (szBuf : Buffer sizeBuf) : Received → Except Fault (List Out)
  | .fail => .ok []
  | .bytes msg => do
    let (szBuf, rcvdLen) := szBuf.recv sizeBuf msg
    let szBuf ← removeLF szBuf rcvdLen
    let text ← szBuf.str
    .ok [.print (bytes ['r', 'x', ':'] ++ text ++ [lf])]

/-! ## One message -/

def Fits (b : Buffer sizeBuf) (m : List UInt8) : Prop :=
  0 ∈ (b.fill m).cells ∧ (req <:+: (b.fill m).text →
    2 ≤ m.length ∧ (strippedText (b.fill m) m.length).length + commaOKLF.length < sizeBuf)

def replies (b : Buffer sizeBuf) (m : List UInt8) : List (List UInt8) :=
  if req <:+: (b.fill m).text then [strippedText (b.fill m) m.length ++ commaOKLF ++ [0]] else []

instance (b : Buffer sizeBuf) (m : List UInt8) : Decidable (Fits b m) :=
  inferInstanceAs (Decidable (_ ∧ (_ → _)))

/-- What both servers do with the message in the buffer; `quiet` and `done` are their turns. -/
def respond {α : Type} (rcvBuf : Buffer sizeBuf) (rcvdLen : ℕ) (quiet : α)
    (done : List UInt8 → Buffer sizeBuf → List UInt8 → α) : Except Fault α := do
  let text ← rcvBuf.str
  if ¬ req <:+: text then .ok quiet
  else do
    let rcvBuf ← answer rcvBuf rcvdLen commaOKLF
    let reply ← rcvBuf.str
    .ok (done text rcvBuf reply)

theorem zero_notMem_commaOKLF : 0 ∉ commaOKLF := by decide

section
variable {α : Type} (b : Buffer sizeBuf) (m : List UInt8) (quiet : α)
variable (done : List UInt8 → Buffer sizeBuf → List UInt8 → α)

theorem respond_ok (h : Fits b m) (hm : m.length ≤ sizeBuf) :
    respond (b.fill m) m.length quiet done = .ok quiet ∧ replies b m = [] ∨
      ∃ text c reply, respond (b.fill m) m.length quiet done = .ok (done text c reply) ∧
        replies b m = [reply ++ [0]] := by
  obtain ⟨hnul, hroom⟩ := h
  unfold respond replies
  rw [Buffer.str_ok _ hnul, ok_bind]
  by_cases hreq : req <:+: (b.fill m).text
  · obtain ⟨h2, hfit⟩ := hroom hreq
    obtain ⟨c, hc, htext, hcnul⟩ :=
      answer_ok (b.fill m) m.length commaOKLF hnul zero_notMem_commaOKLF h2 hm hfit
    refine .inr ⟨(b.fill m).text, c, c.text, ?_, ?_⟩
    · rw [if_neg (not_not.mpr hreq), hc, ok_bind, Buffer.str_ok c hcnul, ok_bind]
    · rw [if_pos hreq, htext]
  · exact .inl ⟨if_pos hreq, if_neg hreq⟩

theorem respond_isOk_iff (hm : m.length ≤ sizeBuf) :
    (respond (b.fill m) m.length quiet done).isOk ↔ Fits b m := by
  constructor
  · intro hok
    unfold respond at hok
    rw [isOk_bind] at hok
    obtain ⟨text, htext, hok⟩ := hok
    obtain ⟨hnul, rfl⟩ := Buffer.str_inv htext
    refine ⟨hnul, fun hreq => ?_⟩
    rw [if_neg (not_not.mpr hreq), isOk_bind] at hok
    obtain ⟨c, hc, -⟩ := hok
    apply (answer_isOk_iff (b.fill m) m.length commaOKLF hnul zero_notMem_commaOKLF hm).mp
    rw [hc]
    rfl
  · intro h
    obtain ⟨hq, -⟩ | ⟨text, c, reply, hd, -⟩ := respond_ok b m quiet done h hm
    · rw [hq]
      rfl
    · rw [hd]
      rfl

end

/-! ## The turns -/

section
variable (b : Buffer sizeBuf) (m : List UInt8)

theorem tcpServerTurn_bytes (hpos : 1 ≤ m.length) (hm : m.length ≤ sizeBuf) :
    tcpServerTurn b (.bytes m) = respond (b.fill m) m.length ⟨b.fill m, [], false⟩
      fun _ c reply => ⟨c, [.send (reply ++ [0]), .print (rxColon ++ reply)], false⟩ := by
  simp only [tcpServerTurn, Buffer.recv_eq b sizeBuf m hm]
  rw [if_neg (by omega)]
  rfl

theorem udpServerTurn_bytes (sendOK : Bool) (hm : m.length ≤ sizeBuf) :
    udpServerTurn b ⟨.bytes m, sendOK⟩ = respond (b.fill m) m.length ⟨b.fill m, [], false⟩
      fun text c reply => ⟨c, [.print (rxColon ++ text), .send (reply ++ [0])], !sendOK⟩ := by
  simp only [udpServerTurn, Buffer.recv_eq b sizeBuf m hm]
  rfl

theorem tcpServerTurn_ok (h : Fits b m) (hpos : 1 ≤ m.length) (hm : m.length ≤ sizeBuf) :
    ∃ t, tcpServerTurn b (.bytes m) = .ok t ∧ t.leaves = false ∧ sends t.out = replies b m := by
  rw [tcpServerTurn_bytes b m hpos hm]
  obtain ⟨hq, hrep⟩ | ⟨text, c, reply, hd, hrep⟩ := respond_ok b m _ _ h hm
  · exact ⟨_, hq, rfl, hrep.symm⟩
  · exact ⟨_, hd, rfl, hrep.symm⟩

theorem udpServerTurn_ok (sendOK : Bool) (h : Fits b m) (hm : m.length ≤ sizeBuf) :
    ∃ t, udpServerTurn b ⟨.bytes m, sendOK⟩ = .ok t ∧ sends t.out = replies b m := by
  rw [udpServerTurn_bytes b m sendOK hm]
  obtain ⟨hq, hrep⟩ | ⟨text, c, reply, hd, hrep⟩ := respond_ok b m _ _ h hm
  · exact ⟨_, hq, hrep.symm⟩
  · exact ⟨_, hd, hrep.symm⟩

theorem tcpServerTurn_isOk_iff (hpos : 1 ≤ m.length) (hm : m.length ≤ sizeBuf) :
    (tcpServerTurn b (.bytes m)).isOk ↔ Fits b m := by
  rw [tcpServerTurn_bytes b m hpos hm]
  exact respond_isOk_iff b m _ _ hm

theorem udpServerTurn_isOk_iff (sendOK : Bool) (hm : m.length ≤ sizeBuf) :
    (udpServerTurn b ⟨.bytes m, sendOK⟩).isOk ↔ Fits b m := by
  rw [udpServerTurn_bytes b m sendOK hm]
  exact respond_isOk_iff b m _ _ hm

end

end LinuxAppSamp.Echo
