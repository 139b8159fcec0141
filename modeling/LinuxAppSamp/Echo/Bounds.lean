import LinuxAppSamp.Echo.Servers
import LinuxAppSamp.Transfer.Server

/-! # When the request handlers stay inside their buffers

The three handlers keep one receive buffer for the whole run and never clear it, so whether a turn
stays inside depends on what the turns before left there. For each handler a run is free of faults
exactly when every turn it comes to meets a condition on the buffer and the message:
`handlers_stay_inside_iff`.
-/

namespace LinuxAppSamp.Echo
open Memory Messages Execution Transfer Signed
set_option autoImplicit false
set_option maxHeartbeats 250000

/-! ## The handler of `app_05tcp_trans1MB_server.c` -/

/-- Its reply is built in the larger `s_txBuf`, so only the receive buffer can be left. -/
def FitsCopy (b : Buffer sizeRcvBuf) (m : List UInt8) : Prop :=
  0 ∈ (b.fill m).cells ∧ (req <:+: (b.fill m).text → 2 ≤ m.length)

instance (b : Buffer sizeRcvBuf) (m : List UInt8) : Decidable (FitsCopy b m) :=
  inferInstanceAs (Decidable (_ ∧ (_ → _)))

section
variable (P : ℕ) (data : List UInt8) (b : Buffer sizeRcvBuf) (m : List UInt8)
variable (hP : sizeRcvBuf ≤ P) (hdata : data.length ≤ intMax)
variable (hpos : 1 ≤ m.length) (hm : m.length ≤ sizeRcvBuf)
include hP hdata hpos hm

/-- The receive buffer keeps the message. -/
theorem serverTurn_ok (h : FitsCopy b m) :
    ∃ out, serverTurn P data b (.bytes m) = .ok ⟨b.fill m, out, false⟩ := by
  obtain ⟨hnul, hlong⟩ := h
  have hP200 : sizeRcvBuf = 200 := rfl
  simp only [serverTurn, Buffer.recv_eq b sizeRcvBuf m hm]
  rw [if_neg (by omega), Buffer.str_ok _ hnul, ok_bind]
  by_cases hreq : req <:+: (b.fill m).text
  · obtain ⟨txBuf, -, printed, hsend⟩ := sendReqOK_ok P (b.fill m) m.length hP hnul (hlong hreq) hm
    rw [if_neg (not_not.mpr hreq), hsend, ok_bind, sendDataBlock_eq P data (by omega) hdata]
    exact ⟨_, rfl⟩
  · exact ⟨[], if_pos hreq⟩

theorem serverTurn_isOk_iff : (serverTurn P data b (.bytes m)).isOk ↔ FitsCopy b m := by
  constructor
  · intro hok
    simp only [serverTurn, Buffer.recv_eq b sizeRcvBuf m hm] at hok
    rw [if_neg (by omega), isOk_bind] at hok
    obtain ⟨text, htext, hok⟩ := hok
    obtain ⟨hnul, rfl⟩ := Buffer.str_inv htext
    refine ⟨hnul, fun hreq => ?_⟩
    rw [if_neg (not_not.mpr hreq), isOk_bind] at hok
    obtain ⟨reply, hreply, -⟩ := hok
    apply (sendReqOK_isOk_iff P (b.fill m) m.length hP hnul hm).mp
    rw [hreply]
    rfl
  · intro h
    obtain ⟨out, hout⟩ := serverTurn_ok P data b m hP hdata hpos hm h
    rw [hout]
    rfl

end

/-! ## Runs -/

/-- A TCP turn on a failed or an empty receive leaves at once; any other needs `fits`. -/
def OnBytes {n : ℕ} (fits : Buffer n → List UInt8 → Prop) (b : Buffer n) : Received → Prop
  | .fail => True
  | .bytes m => m = [] ∨ fits b m

def OnDatagram (b : Buffer sizeBuf) (e : UdpEvent) : Prop :=
  ∀ m, e.rcvd = .bytes m → Fits b m

def Within (n : ℕ) (r : Received) : Prop := ∀ m, r = .bytes m → m.length ≤ n

theorem onBytes_iff {n : ℕ} {body : Buffer n → Received → Except Fault (Turn (Buffer n) Out)}
    {fits : Buffer n → List UInt8 → Prop}
    (hfail : ∀ b, (body b .fail).isOk) (hnil : ∀ b, (body b (.bytes [])).isOk)
    (hbytes : ∀ b m, 1 ≤ m.length → m.length ≤ n → ((body b (.bytes m)).isOk ↔ fits b m))
    (b : Buffer n) (r : Received) (hr : Within n r) : (body b r).isOk ↔ OnBytes fits b r := by
  cases r with
  | fail => exact ⟨fun _ => trivial, fun _ => hfail b⟩
  | bytes m =>
    cases m with
    | nil => exact ⟨fun _ => .inl rfl, fun _ => hnil b⟩
    | cons x m =>
      have hb := hbytes b (x :: m) (by simp) (hr _ rfl)
      exact ⟨fun h => .inr (hb.mp h), fun h => hb.mpr (h.resolve_left (by simp))⟩

theorem tcpServerTurn_isOk_iff_onBytes (b : Buffer sizeBuf) (r : Received) (hr : Within sizeBuf r) :
    (tcpServerTurn b r).isOk ↔ OnBytes Fits b r :=
  onBytes_iff (fun _ => rfl) (fun _ => rfl) tcpServerTurn_isOk_iff b r hr

theorem udpServerTurn_isOk_iff_onDatagram (b : Buffer sizeBuf) (e : UdpEvent)
    (he : Within sizeBuf e.rcvd) : (udpServerTurn b e).isOk ↔ OnDatagram b e := by
  obtain ⟨rcvd, sendOK⟩ := e
  cases rcvd with
  | fail =>
    refine ⟨fun _ m hm => ?_, fun _ => rfl⟩
    cases hm
  | bytes m =>
    rw [udpServerTurn_isOk_iff b m sendOK (he m rfl)]
    constructor
    · rintro h _ ⟨⟩
      exact h
    · exact fun h => h m rfl

/-- **The handlers stay inside their buffers** exactly when every message that is handled leaves
a NUL in the buffer and, where the string then in it contains `req`, has two bytes at least and
(in the two servers that append in place) leaves room for `,OK`, the line feed and the NUL. -/
theorem handlers_stay_inside_iff (data : List UInt8) (hdata : data.length = sizeLargeData)
    (b : Buffer sizeBuf) (b' : Buffer sizeRcvBuf) (rs : List Received) (es : List UdpEvent)
    (hrs : ∀ r ∈ rs, Within sizeBuf r) (hes : ∀ e ∈ es, Within sizeBuf e.rcvd) :
    ((loop tcpServerTurn b rs).isOk ↔ Along tcpServerTurn (OnBytes Fits) b rs) ∧
      ((loop udpServerTurn b es).isOk ↔ Along udpServerTurn OnDatagram b es) ∧
      ((loop (serverTurn sizeOnePacket data) b' rs).isOk ↔
        Along (serverTurn sizeOnePacket data) (OnBytes FitsCopy) b' rs) := by
  have hint : data.length ≤ intMax := by rw [hdata]; decide
  refine ⟨?_, ?_, ?_⟩
  · apply loop_isOk_iff_along
    exact fun s r hr => tcpServerTurn_isOk_iff_onBytes s r (hrs r hr)
  · apply loop_isOk_iff_along
    exact fun s e he => udpServerTurn_isOk_iff_onDatagram s e (hes e he)
  · apply loop_isOk_iff_along
    intro s r hr
    apply onBytes_iff (fun _ => rfl) (fun _ => rfl) _ s r (hrs r hr)
    exact fun b m => serverTurn_isOk_iff sizeOnePacket data b m (by decide) hint

/-- A request; two bytes in front of what it leaves in the buffer are another. -/
def firstRequest : List UInt8 := bytes ['h', 'i', ',', 'r', 'e', 'q'] ++ [lf, 0]

def requests : List (List UInt8) := [firstRequest, bytes ['h', 'o']]

def afterRequests : Buffer sizeRcvBuf :=
  ((Buffer.zero sizeRcvBuf).fill firstRequest).fill (bytes ['h', 'o'])

def block : List UInt8 := List.replicate sizeLargeData kDataCode

theorem length_block : block.length = sizeLargeData := List.length_replicate

theorem length_block_le : block.length ≤ intMax := by
  rw [length_block]
  decide

/-- The two messages keep the server of the block in its loop. -/
theorem serverTurn_requests :
    ∃ out, loop (serverTurn sizeOnePacket block) (Buffer.zero sizeRcvBuf) (requests.map .bytes) =
      .ok ⟨afterRequests, out, false, []⟩ := by
  obtain ⟨out, hout⟩ := serverTurn_ok sizeOnePacket block (Buffer.zero sizeRcvBuf) firstRequest
    (by decide) length_block_le (by decide) (by decide) (by decide +kernel)
  obtain ⟨out', hout'⟩ := serverTurn_ok sizeOnePacket block
    ((Buffer.zero sizeRcvBuf).fill firstRequest) (bytes ['h', 'o'])
    (by decide) length_block_le (by decide) (by decide) (by decide +kernel)
  refine ⟨out ++ (out' ++ []), ?_⟩
  rw [requests, List.map_cons, List.map_cons, loop_cons_stays hout rfl, loop_cons_stays hout' rfl]
  rfl

theorem serverTurn_requests_short :
    ¬ (loop (serverTurn sizeOnePacket block) (Buffer.zero sizeRcvBuf)
      ((requests ++ [[104]]).map .bytes)).isOk := by
  obtain ⟨out, hout⟩ := serverTurn_requests
  rw [List.map_append, loop_append hout rfl, isOk_bind]
  rintro ⟨q, hq, -⟩
  obtain ⟨t, ht, -⟩ := loop_cons_inv hq
  have hfits := (serverTurn_isOk_iff sizeOnePacket block afterRequests [104] (by decide)
    length_block_le (by decide) (by decide)).mp (by rw [ht]; rfl)
  exact absurd hfits (by decide +kernel)

/-- Three messages over what is left over: the third, of one byte, is too short. -/
theorem handlers_stay_inside_iff_requests :
    (Along tcpServerTurn (OnBytes Fits) (Buffer.zero sizeBuf) (requests.map .bytes) ∧
      ¬ Along tcpServerTurn (OnBytes Fits) (Buffer.zero sizeBuf)
        ((requests ++ [[104]]).map .bytes)) ∧
    (Along udpServerTurn OnDatagram (Buffer.zero sizeBuf) (requests.map fun m => ⟨.bytes m, true⟩) ∧
      ¬ Along udpServerTurn OnDatagram (Buffer.zero sizeBuf)
        ((requests ++ [[104]]).map fun m => ⟨.bytes m, true⟩)) ∧
    (Along (serverTurn sizeOnePacket block) (OnBytes FitsCopy) (Buffer.zero sizeRcvBuf)
        (requests.map .bytes) ∧
      ¬ Along (serverTurn sizeOnePacket block) (OnBytes FitsCopy) (Buffer.zero sizeRcvBuf)
        ((requests ++ [[104]]).map .bytes)) := by
  have hgood := handlers_stay_inside_iff block length_block (Buffer.zero sizeBuf)
    (Buffer.zero sizeRcvBuf) (requests.map .bytes) (requests.map fun m => ⟨.bytes m, true⟩)
    (by simp [Within, requests, firstRequest, bytes, sizeBuf])
    (by simp [Within, requests, firstRequest, bytes, sizeBuf])
  have hshort := handlers_stay_inside_iff block length_block (Buffer.zero sizeBuf)
    (Buffer.zero sizeRcvBuf) ((requests ++ [[104]]).map .bytes)
    ((requests ++ [[104]]).map fun m => ⟨.bytes m, true⟩)
    (by simp [Within, requests, firstRequest, bytes, sizeBuf])
    (by simp [Within, requests, firstRequest, bytes, sizeBuf])
  obtain ⟨out, hout⟩ := serverTurn_requests
  refine ⟨⟨hgood.1.mp (by decide +kernel), mt hshort.1.mpr (by decide +kernel)⟩,
    ⟨hgood.2.1.mp (by decide +kernel), mt hshort.2.1.mpr (by decide +kernel)⟩,
    hgood.2.2.mp (by rw [hout]; rfl), mt hshort.2.2.mpr serverTurn_requests_short⟩

/-- Over a left-over `req` one byte is too few, and so is an empty datagram. -/
theorem handlers_leave_buffer :
    ¬ (loop tcpServerTurn ((Buffer.zero sizeBuf).fill req) [.bytes [114]]).isOk ∧
      ¬ (loop udpServerTurn ((Buffer.zero sizeBuf).fill req) [⟨.bytes [], true⟩]).isOk ∧
      ¬ (loop (serverTurn sizeOnePacket (List.replicate sizeLargeData kDataCode))
          ((Buffer.zero sizeRcvBuf).fill req) [.bytes [114]]).isOk := by
  refine ⟨by decide, by decide, by decide⟩

end LinuxAppSamp.Echo
