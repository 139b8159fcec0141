import Mathlib.Algebra.BigOperators.Group.List.Basic
import Mathlib.Algebra.GroupWithZero.Nat
import LinuxAppSamp.Messages.Reply

/-! # Texts over a stream: `socket_tcp_server.c`, `socket_udp_server.c` and their clients

The clients send one text again and again, its NUL included, and the servers print what is at the start
of a buffer that they do not clear. Over UDP each text arrives by itself. Over TCP the stream may be cut
anywhere: `texts_shown_iff` says that the server prints each text once exactly if each `recv` brings one.
-/

namespace LinuxAppSamp.Sockets
open Memory Messages Execution
set_option autoImplicit false
set_option maxHeartbeats 250000

/-! ## The programs -/

def sizeBuf : ℕ := 200

/-- "test message". -/
def toSendText : List UInt8 := bytes ['t', 'e', 's', 't', ' ', 'm', 'e', 's', 's', 'a', 'g', 'e']

/-- "rx: %s\n". -/
def rxLine (s : List UInt8) : List UInt8 := bytes ['r', 'x', ':', ' '] ++ s ++ [lf]

/-- One turn of a server; only the one with a `stream` takes `rcvdLen == 0` for its end. -/
def receiveTurn (stream : Bool) (szBuf : Buffer sizeBuf) :
    Received → Except Fault (Turn (Buffer sizeBuf) (List UInt8))
  | .fail => .ok ⟨szBuf, [], true⟩
  | .bytes msg =>
    let (szBuf, rcvdLen) := szBuf.recv sizeBuf msg
    if stream = true ∧ rcvdLen = 0 then .ok ⟨szBuf, [], true⟩
    else do
      let text ← szBuf.str
      .ok ⟨szBuf, [rxLine text], false⟩

def tcpServerTurn : Buffer sizeBuf → Received → Except Fault (Turn (Buffer sizeBuf) (List UInt8)) :=
  receiveTurn true

def udpServerTurn : Buffer sizeBuf → Received → Except Fault (Turn (Buffer sizeBuf) (List UInt8)) :=
  receiveTurn false

/-- What `k` calls of `send` put into the stream. -/
def sent (s : List UInt8) (k : ℕ) : List UInt8 := (List.replicate k (s ++ [0])).flatten

theorem sent_succ (s : List UInt8) (k : ℕ) : sent s (k + 1) = s ++ 0 :: sent s k := by
  rw [sent, List.replicate_succ, List.flatten_cons, List.append_assoc]
  rfl

theorem sent_one (s : List UInt8) : sent s 1 = s ++ [0] := sent_succ s 0

theorem rxLine_injective {s t : List UInt8} (h : rxLine s = rxLine t) : s = t := by
  unfold rxLine at h
  exact List.append_cancel_left (List.append_cancel_right h)

/-! ## One turn -/

theorem receiveTurn_bytes (stream : Bool) (b : Buffer sizeBuf) {m : List UInt8} (hpos : m ≠ [])
    (hm : m.length ≤ sizeBuf) :
    receiveTurn stream b (.bytes m) =
      ((b.fill m).str >>= fun text => .ok ⟨b.fill m, [rxLine text], false⟩) := by
  simp only [receiveTurn, Buffer.recv_eq b sizeBuf m hm]
  rw [if_neg fun h => hpos (List.length_eq_zero_iff.mp h.2)]

theorem text_fill_sent (b : Buffer sizeBuf) {s rest : List UInt8} (hs : 0 ∉ s)
    (hm : (s ++ 0 :: rest).length ≤ sizeBuf) :
    (b.fill (s ++ 0 :: rest)).text = s ∧ 0 ∈ (b.fill (s ++ 0 :: rest)).cells := by
  have hcells := b.cells_fill (s ++ 0 :: rest) hm
  rw [List.append_assoc, List.cons_append] at hcells
  refine ⟨Buffer.text_of_cells _ _ _ hcells hs, ?_⟩
  rw [hcells]
  exact List.mem_append_right _ List.mem_cons_self

/-- A message that begins with a whole text brings this text. -/
theorem receiveTurn_sent (stream : Bool) (b : Buffer sizeBuf) {s rest : List UInt8} (hs : 0 ∉ s)
    (hm : (s ++ 0 :: rest).length ≤ sizeBuf) :
    ∃ t, receiveTurn stream b (.bytes (s ++ 0 :: rest)) = .ok t ∧ t.leaves = false ∧ t.out = [rxLine s] := by
  obtain ⟨htext, hnul⟩ := text_fill_sent b hs hm
  rw [receiveTurn_bytes stream b (List.append_ne_nil_of_right_ne_nil s (List.cons_ne_nil 0 rest)) hm,
    Buffer.str_ok _ hnul, ok_bind, htext]
  exact ⟨_, rfl, rfl, rfl⟩

theorem shows_cons {b : Buffer sizeBuf} {m : List UInt8} {ms : List (List UInt8)}
    {r : Outcome (Buffer sizeBuf) Received (List UInt8)} (hpos : m ≠ []) (hm : m.length ≤ sizeBuf)
    (h : loop tcpServerTurn b ((m :: ms).map .bytes) = .ok r) :
    ∃ q, loop tcpServerTurn (b.fill m) (ms.map .bytes) = .ok q ∧
      r.out = rxLine (b.fill m).text :: q.out ∧ r.left = q.left := by
  obtain ⟨t, ht, hcases⟩ := loop_cons_inv h
  rw [tcpServerTurn, receiveTurn_bytes true b hpos hm] at ht
  obtain ⟨text, htext, ht⟩ := bind_eq_ok ht
  obtain ⟨-, rfl⟩ := Buffer.str_inv htext
  cases Except.ok.inj ht
  obtain ⟨hl, -⟩ | ⟨-, q, hq, rfl⟩ := hcases
  · cases hl
  · exact ⟨q, hq, rfl, rfl⟩

/-! ## Cuts of the stream -/

/-- The results of `recv` are a cut of a stream. -/
structure Cut (stream : List UInt8) (segments : List (List UInt8)) : Prop where
  flatten : segments.flatten = stream
  lengths : ∀ m ∈ segments, m ≠ [] ∧ m.length ≤ sizeBuf

theorem Cut.tail {stream m : List UInt8} {ms : List (List UInt8)} (h : Cut stream (m :: ms)) :
    Cut ms.flatten ms := ⟨rfl, fun x hx => h.lengths x (List.mem_cons_of_mem m hx)⟩

section
variable {s : List UInt8}

/-- Where a text has begun in an earlier segment, the segment with its end shows something else. The
induction goes on to that segment. -/
theorem not_shown_from_middle {u rest : List UInt8} {segments : List (List UInt8)} (hu : 0 ∉ u)
    (hlt : u.length < s.length) (hcut : Cut (u ++ 0 :: rest) segments) {b : Buffer sizeBuf}
    {r : Outcome (Buffer sizeBuf) Received (List UInt8)}
    (h : loop tcpServerTurn b (segments.map .bytes) = .ok r) : ¬ ∀ line ∈ r.out, line = rxLine s := by
  intro hall
  induction segments generalizing u b r with
  | nil => exact absurd hcut.flatten.symm (List.append_ne_nil_of_right_ne_nil u (List.cons_ne_nil 0 rest))
  | cons m ms ih =>
    obtain ⟨hpos, hm⟩ := hcut.lengths m List.mem_cons_self
    obtain ⟨q, hq, hout, -⟩ := shows_cons hpos hm h
    rw [hout] at hall
    obtain ⟨hline, hlines⟩ := List.forall_mem_cons.mp hall
    obtain ⟨a, rfl, hrest⟩ | ⟨c, rfl, hrest⟩ := List.append_eq_append_iff.mp hcut.flatten
    · have ha : 0 ∉ a := fun hmem => hu (List.mem_append_right m hmem)
      rw [List.length_append] at hlt
      exact ih ha (by omega) ⟨hrest, hcut.tail.lengths⟩ hq hlines
    · cases c with
      | nil =>
        have hpositive : ([] : List UInt8).length < s.length := Nat.zero_lt_of_lt hlt
        exact ih List.not_mem_nil hpositive ⟨hrest.symm, hcut.tail.lengths⟩ hq hlines
      | cons x c =>
        obtain ⟨rfl, -⟩ := List.cons.inj hrest
        rw [(text_fill_sent b hu hm).1] at hline
        rw [rxLine_injective hline] at hlt
        exact Nat.lt_irrefl _ hlt

/-- A cut of the stream in two is between two texts, or inside one. -/
theorem sent_eq_append {m t : List UInt8} {n : ℕ} (hs : s ≠ []) (h : m ++ t = sent s n) :
    (∃ k, k ≤ n ∧ m = sent s k ∧ t = sent s (n - k)) ∨
      ∃ w k, w.length < s.length ∧ (∀ x ∈ w, x ∈ s) ∧ t = w ++ 0 :: sent s k := by
  induction n generalizing m with
  | zero =>
    obtain ⟨rfl, rfl⟩ := List.append_eq_nil_iff.mp h
    exact .inl ⟨0, Nat.le_refl 0, rfl, rfl⟩
  | succ n ih =>
    rw [sent_succ] at h
    obtain ⟨a, rfl, ht⟩ | ⟨c, rfl, hc⟩ := List.append_eq_append_iff.mp h
    · cases m with
      | nil => exact .inl ⟨0, Nat.zero_le _, rfl, by rw [ht, Nat.sub_zero, sent_succ, List.nil_append]⟩
      | cons x m =>
        refine .inr ⟨a, n, ?_, fun y hy => List.mem_append_right _ hy, ht⟩
        rw [List.length_append, List.length_cons]
        omega
    · cases c with
      | nil =>
        exact .inr ⟨[], n, List.length_pos_of_ne_nil hs, (fun _ hx => by cases hx), hc.symm⟩
      | cons x c =>
        obtain ⟨rfl, htail⟩ := List.cons.inj hc
        obtain ⟨k, hk, rfl, rfl⟩ | hinside := ih htail.symm
        · exact .inl ⟨k + 1, by omega, (sent_succ s k).symm, by rw [Nat.add_sub_add_right]⟩
        · exact .inr hinside

/-- A segment that is shown as the text, from the beginning of one on, ends where one ends. -/
theorem segments_whole {n : ℕ} {segments : List (List UInt8)} (h0 : 0 ∉ s) (hs : s ≠ [])
    (hcut : Cut (sent s n) segments) {b : Buffer sizeBuf}
    {r : Outcome (Buffer sizeBuf) Received (List UInt8)}
    (h : loop tcpServerTurn b (segments.map .bytes) = .ok r) (hall : ∀ line ∈ r.out, line = rxLine s) :
    ∃ ks : List ℕ, segments = ks.map (sent s) ∧ (∀ k ∈ ks, 1 ≤ k) ∧ ks.sum = n := by
  induction segments generalizing n b r with
  | nil =>
    cases n with
    | zero => exact ⟨[], rfl, by simp, rfl⟩
    | succ n =>
      have hflat := hcut.flatten
      rw [sent_succ] at hflat
      exact absurd hflat.symm (List.append_ne_nil_of_left_ne_nil hs _)
  | cons m ms ih =>
    obtain ⟨hpos, hm⟩ := hcut.lengths m List.mem_cons_self
    obtain ⟨q, hq, hout, -⟩ := shows_cons hpos hm h
    rw [hout] at hall
    obtain ⟨-, hlines⟩ := List.forall_mem_cons.mp hall
    obtain ⟨k, hk, rfl, ht⟩ | ⟨w, k, hlt, hw, ht⟩ := sent_eq_append hs hcut.flatten
    · obtain ⟨ks, rfl, hks, hsum⟩ := ih ⟨ht, hcut.tail.lengths⟩ hq hlines
      refine ⟨k :: ks, rfl, List.forall_mem_cons.mpr ⟨?_, hks⟩, ?_⟩
      · by_contra hzero
        obtain rfl : k = 0 := by omega
        exact hpos rfl
      · rw [List.sum_cons, hsum]
        omega
    · have hfree : 0 ∉ w := fun hmem => h0 (hw 0 hmem)
      exact absurd hlines (not_shown_from_middle hfree hlt ⟨ht, hcut.tail.lengths⟩ hq)

/-- Segments of whole texts are shown one text each, however many they hold. -/
theorem whole_shown (stream : Bool) (b : Buffer sizeBuf) (h0 : 0 ∉ s) {ks : List ℕ} (hks : ∀ k ∈ ks, 1 ≤ k)
    (hfit : ∀ k ∈ ks, (sent s k).length ≤ sizeBuf) :
    ∃ c os, loop (receiveTurn stream) b ((ks.map (sent s)).map .bytes) = .ok ⟨c, os, false, []⟩ ∧
      os = List.replicate ks.length (rxLine s) := by
  have hstep : ∀ b, ∀ i ∈ (ks.map (sent s)).map Received.bytes,
      ∃ t, receiveTurn stream b i = .ok t ∧ t.leaves = false ∧ t.out = [rxLine s] := by
    intro b i hi
    obtain ⟨m, hm, rfl⟩ := List.mem_map.mp hi
    obtain ⟨k, hk, rfl⟩ := List.mem_map.mp hm
    have hlen := hfit k hk
    have hpos := hks k hk
    obtain ⟨k, rfl⟩ : ∃ j, k = j + 1 := ⟨k - 1, by omega⟩
    rw [sent_succ] at hlen ⊢
    exact receiveTurn_sent stream b h0 hlen
  obtain ⟨c, os, hrun, hos⟩ := loop_outputs id rfl (fun _ _ => rfl) (fun _ => [rxLine s]) _ hstep b
  refine ⟨c, os, hrun, hos.trans ?_⟩
  rw [← List.map_eq_flatMap, List.map_const', List.length_map, List.length_map]

theorem eq_ones_of_sum {ks : List ℕ} (hks : ∀ k ∈ ks, 1 ≤ k) (hsum : ks.sum = ks.length) :
    ks = List.replicate ks.length 1 := by
  induction ks with
  | nil => rfl
  | cons k ks ih =>
    obtain ⟨hk, htail⟩ := List.forall_mem_cons.mp hks
    have hle := List.length_le_sum_of_one_le ks htail
    rw [List.sum_cons, List.length_cons] at hsum
    obtain rfl : k = 1 := by omega
    rw [List.length_cons, List.replicate_succ, ← ih htail (by omega)]

end

/-! ## The programs together -/

/-- The server comes to the end of the stream, and has shown these lines. -/
def Shown (b : Buffer sizeBuf) (segments : List (List UInt8)) (lines : List (List UInt8)) : Prop :=
  ∃ r, loop tcpServerTurn b (segments.map .bytes ++ [.bytes []]) = .ok r ∧ r.left = true ∧ r.out = lines

theorem tcpServerTurn_end (b : Buffer sizeBuf) : ∃ c, tcpServerTurn b (.bytes []) = .ok ⟨c, [], true⟩ :=
  ⟨_, rfl⟩

/-- No segment ends the loop before the stream does. -/
theorem stays {segments : List (List UInt8)} (hlens : ∀ m ∈ segments, m ≠ [] ∧ m.length ≤ sizeBuf)
    {b : Buffer sizeBuf} {r : Outcome (Buffer sizeBuf) Received (List UInt8)}
    (h : loop tcpServerTurn b (segments.map .bytes) = .ok r) :
    r.left = false ∧ r.out.length = segments.length := by
  induction segments generalizing b r with
  | nil =>
    cases Except.ok.inj h
    exact ⟨rfl, rfl⟩
  | cons m ms ih =>
    obtain ⟨⟨hpos, hm⟩, hlens⟩ := List.forall_mem_cons.mp hlens
    obtain ⟨q, hq, hout, hleft⟩ := shows_cons hpos hm h
    obtain ⟨hstay, hlength⟩ := ih hlens hq
    exact ⟨hleft.trans hstay, by rw [hout, List.length_cons, hlength, List.length_cons]⟩

theorem shown_iff {segments : List (List UInt8)} (hlens : ∀ m ∈ segments, m ≠ [] ∧ m.length ≤ sizeBuf)
    (b : Buffer sizeBuf) (lines : List (List UInt8)) :
    Shown b segments lines ↔ ∃ r, loop tcpServerTurn b (segments.map .bytes) = .ok r ∧ r.out = lines := by
  constructor
  · rintro ⟨r, hr, -, rfl⟩
    cases hrun : loop tcpServerTurn b (segments.map .bytes) with
    | error e =>
      have hall : (loop tcpServerTurn b (segments.map .bytes ++ [.bytes []])).isOk := by
        rw [hr]
        rfl
      have hok := (loop_isOk_iff b _).mp hall
      have hbad : (loop tcpServerTurn b (segments.map .bytes)).isOk := by
        rw [loop_isOk_iff]
        intro pre i post hsplit q hq hl
        exact hok pre i (post ++ [.bytes []]) (by rw [hsplit]; simp) q hq hl
      rw [hrun] at hbad
      exact absurd hbad (isOk_error e)
    | ok q =>
      refine ⟨q, rfl, ?_⟩
      obtain ⟨c, hc⟩ := tcpServerTurn_end q.state
      rw [loop_append hrun (stays hlens hrun).1, loop_cons_leaves hc rfl, ok_bind] at hr
      rw [← Except.ok.inj hr]
      exact (List.append_nil _).symm
  · rintro ⟨q, hq, rfl⟩
    obtain ⟨c, hc⟩ := tcpServerTurn_end q.state
    refine ⟨⟨c, q.out ++ [], true, []⟩, ?_, rfl, List.append_nil _⟩
    rw [loop_append hq (stays hlens hq).1, loop_cons_leaves hc rfl, ok_bind]

theorem zero_notMem_toSendText : 0 ∉ toSendText := by decide

/-- **One line for each text.** The TCP client sends its text `n` times. However the stream is cut, and
whatever the buffer held, the server shows the text once for each of them exactly if each `recv` brings
one of them; where each `recv` brings one or more, the server shows as many lines as there are segments,
and the others never. The UDP server shows one line for each datagram that arrives. -/
theorem texts_shown_iff (n : ℕ) (b : Buffer sizeBuf) (segments : List (List UInt8))
    (hcut : Cut (sent toSendText n) segments) :
    (Shown b segments (List.replicate n (rxLine toSendText)) ↔
      segments = List.replicate n (toSendText ++ [0])) ∧
    (∀ ks : List ℕ, (∀ k ∈ ks, 1 ≤ k) → segments = ks.map (sent toSendText) →
      Shown b segments (List.replicate ks.length (rxLine toSendText))) ∧
    ∃ c, loop udpServerTurn b ((List.replicate n (toSendText ++ [0])).map .bytes) =
      .ok ⟨c, List.replicate n (rxLine toSendText), false, []⟩ := by
  have hwhole : ∀ ks : List ℕ, (∀ k ∈ ks, 1 ≤ k) → segments = ks.map (sent toSendText) →
      Shown b segments (List.replicate ks.length (rxLine toSendText)) := by
    rintro ks hks rfl
    have hfit : ∀ k ∈ ks, (sent toSendText k).length ≤ sizeBuf := fun k hk =>
      (hcut.lengths _ (List.mem_map_of_mem hk)).2
    obtain ⟨c, os, hrun, hos⟩ := whole_shown true b zero_notMem_toSendText hks hfit
    exact (shown_iff hcut.lengths b _).mpr ⟨_, hrun, hos⟩
  have hone : List.replicate n (toSendText ++ [0]) = (List.replicate n 1).map (sent toSendText) := by
    rw [List.map_replicate, sent_one]
  refine ⟨⟨fun h => ?_, fun h => ?_⟩, hwhole, ?_⟩
  · obtain ⟨r, hr, hout⟩ := (shown_iff hcut.lengths b _).mp h
    obtain ⟨ks, hseg, hks, hsum⟩ := segments_whole zero_notMem_toSendText (by decide) hcut hr
      (by rw [hout]; exact fun line hline => List.eq_of_mem_replicate hline)
    have hlen := (stays hcut.lengths hr).2
    rw [hout, List.length_replicate, hseg, List.length_map] at hlen
    have hones := eq_ones_of_sum hks (hsum.trans hlen)
    rw [hseg, hones, hone, ← hlen]
  · rw [hone] at h
    have hshown := hwhole _ (fun k hk => (List.eq_of_mem_replicate hk).ge) h
    rw [List.length_replicate] at hshown
    exact hshown
  · have hpos : ∀ k ∈ List.replicate n 1, 1 ≤ k := fun k hk => (List.eq_of_mem_replicate hk).ge
    have hfit : ∀ k ∈ List.replicate n 1, (sent toSendText k).length ≤ sizeBuf := by
      intro k hk
      rw [List.eq_of_mem_replicate hk]
      decide
    obtain ⟨c, os, hrun, hos⟩ := whole_shown false b zero_notMem_toSendText hpos hfit
    rw [← hone, hos, List.length_replicate] at hrun
    exact ⟨c, hrun⟩

/-- Two texts in one `recv` and a third in its own: two lines. -/
theorem texts_shown_iff_joined :
    ¬ Shown (.zero sizeBuf) [sent toSendText 2, sent toSendText 1] (List.replicate 3 (rxLine toSendText)) ∧
      Shown (.zero sizeBuf) [sent toSendText 2, sent toSendText 1]
        (List.replicate 2 (rxLine toSendText)) := by
  have hcut : Cut (sent toSendText 3) [sent toSendText 2, sent toSendText 1] := ⟨by decide, by decide⟩
  obtain ⟨hiff, hwhole, -⟩ := texts_shown_iff 3 (.zero sizeBuf) _ hcut
  exact ⟨fun h => absurd (hiff.mp h) (by decide), hwhole [2, 1] (by decide) rfl⟩

end LinuxAppSamp.Sockets
