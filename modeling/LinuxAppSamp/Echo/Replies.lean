import LinuxAppSamp.Echo.Servers

/-! # Framed requests

A client frames a request by its NUL. When a message is one framed text, nothing that the buffer
held before takes part in the reply: `replies_framed`. From it: `answersAll_framed`, one reply to
each request over TCP as long as each arrives in a `recv` of its own, and `udp_round_trip`.
-/

namespace LinuxAppSamp.Echo
open Memory Messages Execution
set_option autoImplicit false
set_option maxHeartbeats 250000

/-! ## One request -/

def okReply (s : List UInt8) : List UInt8 := strip s ++ commaOKLF ++ [0]

theorem replies_framed (b : Buffer sizeBuf) (s : List UInt8) (hs : 0 ∉ s) (hpos : 1 ≤ s.length)
    (hlen : s.length ≤ 195) :
    Fits b (s ++ [0]) ∧
      replies b (s ++ [0]) = if req <:+: s then [okReply s] else [] := by
  have h200 : s.length < sizeBuf := by unfold sizeBuf; omega
  obtain ⟨htext, hnul⟩ := text_framed b s hs h200
  have hstrip := strippedText_framed b s hs h200 (List.ne_nil_of_length_pos hpos)
  have hle := length_strip_le s
  have hlenm : (s ++ [0]).length = s.length + 1 := by simp
  refine ⟨⟨hnul, fun _ => ⟨by omega, ?_⟩⟩, ?_⟩
  · have h4 : commaOKLF.length = 4 := rfl
    rw [hlenm, hstrip]
    unfold sizeBuf
    omega
  · rw [replies, htext, hlenm, hstrip]
    rfl

/-! ## TCP -/

structure IsRequest (s : List UInt8) : Prop where
  nulFree : 0 ∉ s
  asks : req <:+: s
  short : s.length ≤ 195

theorem IsRequest.length_pos {s : List UInt8} (h : IsRequest s) : 1 ≤ s.length :=
  le_trans (by decide : 1 ≤ req.length) h.asks.length_le

/-- The `recv` results are some cut of the stream in which the client sends `requests`. -/
structure Segments (requests segments : List (List UInt8)) : Prop where
  flatten : segments.flatten = (requests.map (· ++ [0])).flatten
  lengths : ∀ m ∈ segments, 1 ≤ m.length ∧ m.length ≤ sizeBuf

/-- The server sends one reply for each request, in order, and waits for the next. -/
def AnswersAll (b : Buffer sizeBuf) (requests segments : List (List UInt8)) : Prop :=
  ∃ r, loop tcpServerTurn b (segments.map .bytes) = .ok r ∧ r.left = false ∧
    sends r.out = requests.map okReply

/-- **One reply for each request**, when each arrives in a `recv` of its own. -/
theorem answersAll_framed (b : Buffer sizeBuf) (requests : List (List UInt8))
    (h : ∀ s ∈ requests, IsRequest s) :
    Segments requests (requests.map (· ++ [0])) ∧
      AnswersAll b requests (requests.map (· ++ [0])) := by
  have hlens : ∀ s ∈ requests, 1 ≤ (s ++ [0]).length ∧ (s ++ [0]).length ≤ sizeBuf := by
    intro s hs
    have hshort := (h s hs).short
    rw [List.length_append, List.length_singleton]
    unfold sizeBuf
    omega
  refine ⟨⟨rfl, ?_⟩, ?_⟩
  · intro m hm
    obtain ⟨s, hs, rfl⟩ := List.mem_map.mp hm
    exact hlens s hs
  · let out : Received → List (List UInt8) := fun
      | .bytes m => [okReply m.dropLast]
      | .fail => []
    have hstep : ∀ b, ∀ i ∈ (requests.map (· ++ [0])).map Received.bytes,
        ∃ t, tcpServerTurn b i = .ok t ∧ t.leaves = false ∧ sends t.out = out i := by
      intro b i hi
      rw [List.map_map] at hi
      obtain ⟨s, hs, rfl⟩ := List.mem_map.mp hi
      obtain ⟨hfits, hrep⟩ := replies_framed b s (h s hs).nulFree (h s hs).length_pos (h s hs).short
      obtain ⟨t, ht, hl, hsend⟩ := tcpServerTurn_ok b (s ++ [0]) hfits (hlens s hs).1 (hlens s hs).2
      refine ⟨t, ht, hl, ?_⟩
      rw [hsend, hrep, if_pos (h s hs).asks]
      show _ = [okReply (s ++ [0]).dropLast]
      rw [List.dropLast_concat]
    obtain ⟨t, os, ht, hos⟩ := loop_outputs sends rfl sends_append out _ hstep b
    refine ⟨_, ht, rfl, ?_⟩
    rw [hos, List.map_map, List.flatMap_map, List.map_eq_flatMap]
    apply List.flatMap_congr
    intro s _
    show [okReply (s ++ [0]).dropLast] = [okReply s]
    rw [List.dropLast_concat]

theorem answersAll_framed_two :
    Segments [req, req ++ [lf]] [req ++ [0], req ++ [lf] ++ [0]] ∧
      AnswersAll (Buffer.zero sizeBuf) [req, req ++ [lf]] [req ++ [0], req ++ [lf] ++ [0]] := by
  apply answersAll_framed (Buffer.zero sizeBuf) [req, req ++ [lf]]
  intro s hs
  obtain rfl | rfl : s = req ∨ s = req ++ [lf] := by simpa using hs
  · exact ⟨by decide, by decide, by decide⟩
  · exact ⟨by decide, by decide, by decide⟩

/-- Two requests in one `recv` get one reply, and a request cut in two gets none. -/
theorem joined_and_split_requests :
    ¬ (∀ b requests segments, (∀ s ∈ requests, IsRequest s) → Segments requests segments →
        AnswersAll b requests segments) ∧
      ¬ AnswersAll (Buffer.zero sizeBuf) [req, req] [req ++ [0] ++ (req ++ [0])] ∧
      ¬ AnswersAll (Buffer.zero sizeBuf) [req] [[114, 101], [113, 0]] := by
  have hjoin : ¬ AnswersAll (Buffer.zero sizeBuf) [req, req] [req ++ [0] ++ (req ++ [0])] := by
    rintro ⟨r, hr, -, hsends⟩
    have hlen := congrArg List.length hsends
    have hrun : (loop tcpServerTurn (Buffer.zero sizeBuf)
        ([req ++ [0] ++ (req ++ [0])].map .bytes)).map (fun r => (sends r.out).length) = .ok 1 := by
      rfl
    rw [hr] at hrun
    cases (Except.ok.inj hrun).symm.trans hlen
  have hsplit : ¬ AnswersAll (Buffer.zero sizeBuf) [req] [[114, 101], [113, 0]] := by
    rintro ⟨r, hr, -, hsends⟩
    have hlen := congrArg List.length hsends
    have hrun : (loop tcpServerTurn (Buffer.zero sizeBuf)
        ([[114, 101], [113, 0]].map .bytes)).map (fun r => (sends r.out).length) = .ok 0 := by
      rfl
    rw [hr] at hrun
    cases (Except.ok.inj hrun).symm.trans hlen
  refine ⟨fun h => hjoin (h _ _ _ ?_ ⟨rfl, by decide⟩), hjoin, hsplit⟩
  intro s hs
  obtain rfl : s = req := by simpa using hs
  exact ⟨by decide, by decide, by decide⟩

/-! ## UDP -/

theorem strip_append_lf (s : List UInt8) : strip (s ++ [lf]) = s := by
  unfold strip
  rw [List.getLast?_concat, if_pos rfl, List.dropLast_concat]

theorem udpClientReceive_framed (szBuf : Buffer sizeBuf) (u : List UInt8) (hu : 0 ∉ u)
    (hpos : 1 ≤ u.length) (hlen : u.length < sizeBuf) :
    udpClientReceive szBuf (.bytes (u ++ [0])) =
      .ok [.print (bytes ['r', 'x', ':'] ++ strip u ++ [lf])] := by
  obtain ⟨htext, hnul⟩ := text_framed szBuf u hu hlen
  have hlenm : (u ++ [0]).length = u.length + 1 := by simp
  obtain ⟨c, hc, hctext, hcnul⟩ := removeLF_ok (szBuf.fill (u ++ [0])) (u ++ [0]).length hnul
    (by omega) (by omega)
  rw [hlenm, strippedText_framed szBuf u hu hlen (List.ne_nil_of_length_pos hpos)] at hctext
  simp only [udpClientReceive, Buffer.recv_eq szBuf sizeBuf (u ++ [0]) (by omega)]
  rw [hc, ok_bind, Buffer.str_ok c hcnul, ok_bind, hctext]

theorem udpClientReceive_okReply (szBuf : Buffer sizeBuf) (s : List UInt8) (hs : 0 ∉ s)
    (hlen : s.length ≤ 195) :
    udpClientReceive szBuf (.bytes (okReply s)) =
      .ok [.print (bytes ['r', 'x', ':'] ++ strip s ++ commaOK ++ [lf])] := by
  have hle := length_strip_le s
  have hnul : 0 ∉ strip s ++ commaOKLF := by
    rw [List.mem_append]
    exact fun h => h.elim (zero_notMem_strip s hs) zero_notMem_commaOKLF
  have hulen : (strip s ++ commaOKLF).length = (strip s).length + 4 := List.length_append
  unfold okReply
  rw [udpClientReceive_framed szBuf _ hnul (by omega) (by unfold sizeBuf; omega)]
  unfold commaOKLF
  rw [← List.append_assoc, strip_append_lf, ← List.append_assoc]

/-- **UDP round trip.** After any history that leaves the server running, a framed text is
answered exactly when it asks, and the client prints the answer on one line. -/
theorem udp_round_trip (b szBuf : Buffer sizeBuf) (hist : List UdpEvent)
    (r : Outcome (Buffer sizeBuf) UdpEvent Out) (hrun : loop udpServerTurn b hist = .ok r)
    (hl : r.left = false) (s : List UInt8) (hs : 0 ∉ s) (hpos : 1 ≤ s.length)
    (hlen : s.length ≤ 195) (sendOK : Bool) :
    ∃ q, loop udpServerTurn b (hist ++ [⟨.bytes (s ++ [0]), sendOK⟩]) = .ok q ∧
      sends q.out = sends r.out ++ (if req <:+: s then [okReply s] else []) ∧
      udpClientReceive szBuf (.bytes (okReply s)) =
        .ok [.print (bytes ['r', 'x', ':'] ++ strip s ++ commaOK ++ [lf])] := by
  obtain ⟨hfits, hrep⟩ := replies_framed r.state s hs hpos hlen
  have hmlen : (s ++ [0]).length ≤ sizeBuf := by
    rw [List.length_append, List.length_singleton]
    unfold sizeBuf
    omega
  obtain ⟨t, ht, hsend⟩ := udpServerTurn_ok r.state (s ++ [0]) sendOK hfits hmlen
  obtain ⟨q, hq, hqout⟩ := loop_single ht
  refine ⟨{ q with out := r.out ++ q.out }, ?_, ?_, udpClientReceive_okReply szBuf s hs hlen⟩
  · rw [loop_append hrun hl, hq, ok_bind]
  · show sends (r.out ++ q.out) = _
    rw [sends_append, hqout, hsend, hrep]

theorem udp_round_trip_req :
    ∃ q, loop udpServerTurn (Buffer.zero sizeBuf)
        ([⟨.bytes [120, 0], true⟩] ++ [⟨.bytes (req ++ [lf] ++ [0]), true⟩]) = .ok q ∧
      sends q.out = sends [] ++ (if req <:+: req ++ [lf] then [okReply (req ++ [lf])] else []) ∧
      udpClientReceive (Buffer.zero sizeBuf) (.bytes (okReply (req ++ [lf]))) =
        .ok [.print (bytes ['r', 'x', ':'] ++ strip (req ++ [lf]) ++ commaOK ++ [lf])] :=
  udp_round_trip (Buffer.zero sizeBuf) (Buffer.zero sizeBuf) [⟨.bytes [120, 0], true⟩]
    ⟨(Buffer.zero sizeBuf).fill [120, 0], [], false, []⟩ rfl rfl (req ++ [lf]) (by decide)
    (by decide) (by decide) true

end LinuxAppSamp.Echo
