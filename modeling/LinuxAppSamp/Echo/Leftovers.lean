import LinuxAppSamp.Echo.Servers

/-! # Which replies depend on earlier traffic

Two runs of a server, over any two histories, meet the same message. `ReplyDetermined` says that
they answer alike, and only on the bytes received. A message with a NUL decides everything; one
without a NUL runs on into what the buffer held, and `replyDetermined_iff` says exactly for which
of these that makes no difference.
-/

namespace LinuxAppSamp.Echo
open Memory Messages Execution
set_option autoImplicit false
set_option maxHeartbeats 250000

/-! ## The property -/

/-- Whatever two runs did before, on the message `m` both reply alike, and only if `m` has `req`. -/
def ReplyDetermined {ι : Type} (body : Buffer sizeBuf → ι → Except Fault (Turn (Buffer sizeBuf) Out))
    (received : ι → Received) (m : List UInt8) : Prop :=
  ∀ (b b' : Buffer sizeBuf) (hist hist' : List ι) (r r' : Outcome (Buffer sizeBuf) ι Out),
    loop body b hist = .ok r → r.left = false →
    loop body b' hist' = .ok r' → r'.left = false →
    ∀ (i i' : ι) (t t' : Turn (Buffer sizeBuf) Out), received i = .bytes m → received i' = .bytes m →
      body r.state i = .ok t → body r'.state i' = .ok t' →
      sends t.out = sends t'.out ∧ (sends t.out ≠ [] → req <:+: m)

/-- Some bytes that could stand behind `m` in the buffer make a request of it that is answered. -/
def Completable (m : List UInt8) : Prop :=
  ∃ w, w ≠ [] ∧ 0 ∉ w ∧ m.length + w.length ≤ 195 ∧ req <:+: m ++ w

def MessageDecides (m : List UInt8) : Prop :=
  0 ∈ m ∨ (m.getD (m.length - 2) 0 = lf ∧ req <:+: m) ∨
    (m.getD (m.length - 2) 0 ≠ lf ∧ ¬ Completable m)

/-! ## The buffer behind a message -/

section
variable (b : Buffer sizeBuf) (m : List UInt8)

theorem cell_fill_lf (h2 : 2 ≤ m.length) (hm : m.length ≤ sizeBuf) :
    (b.fill m).cell (m.length - 2) = m.getD (m.length - 2) 0 := by
  rw [Buffer.cell_fill b m _ (by omega), if_pos (by omega)]

theorem replies_of_nul (b' : Buffer sizeBuf) (h2 : 2 ≤ m.length) (hm : m.length ≤ sizeBuf)
    (hnul : 0 ∈ m) :
    replies b m = replies b' m ∧ (replies b m ≠ [] → req <:+: m) := by
  obtain ⟨htext, -⟩ := b.text_fill_of_mem m hm hnul
  obtain ⟨htext', -⟩ := b'.text_fill_of_mem m hm hnul
  refine ⟨?_, fun h => ?_⟩
  · unfold replies strippedText
    rw [htext, htext', cell_fill_lf b m h2 hm, cell_fill_lf b' m h2 hm]
  · by_contra hreq
    apply h
    rw [replies, htext, if_neg fun hr => hreq (hr.trans (List.takeWhile_prefix _).isInfix)]

theorem infix_text_fill (hm : m.length ≤ sizeBuf) (hnul : 0 ∉ m) (hreq : req <:+: m) :
    req <:+: (b.fill m).text := by
  rw [b.text_fill_of_notMem m hm hnul]
  exact hreq.trans (List.prefix_append _ _).isInfix

theorem replies_of_lf (h2 : 2 ≤ m.length) (hm : m.length ≤ sizeBuf) (hnul : 0 ∉ m)
    (hlf : m.getD (m.length - 2) 0 = lf) (hreq : req <:+: (b.fill m).text) :
    replies b m = [m.take (m.length - 2) ++ commaOKLF ++ [0]] := by
  have htext := b.text_fill_of_notMem m hm hnul
  have hlt : m.length - 2 < (b.fill m).text.length := by
    rw [htext, List.length_append]
    omega
  rw [replies, if_pos hreq, strippedText, cell_fill_lf b m h2 hm, if_pos ⟨hlf, hlt⟩, htext,
    List.take_append_of_le_length (by omega)]

theorem replies_of_not_lf (h2 : 2 ≤ m.length) (hm : m.length ≤ sizeBuf)
    (hlf : m.getD (m.length - 2) 0 ≠ lf) (hreq : req <:+: (b.fill m).text) :
    replies b m = [(b.fill m).text ++ commaOKLF ++ [0]] := by
  rw [replies, if_pos hreq, strippedText, cell_fill_lf b m h2 hm, if_neg fun h => hlf h.1]

theorem text_of_not_completable (hm : m.length ≤ sizeBuf) (h2 : 2 ≤ m.length) (hnul : 0 ∉ m)
    (hlf : m.getD (m.length - 2) 0 ≠ lf) (hc : ¬ Completable m) (hfits : Fits b m)
    (hreq : req <:+: (b.fill m).text) : (b.fill m).text = m := by
  have htext := b.text_fill_of_notMem m hm hnul
  have hfree := (b.fill m).zero_notMem_text
  obtain ⟨-, hroom⟩ := hfits.2 hreq
  rw [strippedText, cell_fill_lf b m h2 hm, if_neg fun h => hlf h.1] at hroom
  rw [htext] at hreq hfree hroom ⊢
  generalize (b.cells.drop m.length).takeWhile (fun x => decide (x ≠ 0)) = w at *
  have h4 : commaOKLF.length = 4 := rfl
  by_cases hw : w = []
  · rw [hw, List.append_nil]
  · refine absurd ⟨w, hw, fun h => hfree (List.mem_append_right m h), ?_, hreq⟩ hc
    rw [List.length_append] at hroom
    unfold sizeBuf at hroom
    omega

theorem replies_determined (b' : Buffer sizeBuf) (h2 : 2 ≤ m.length) (hm : m.length ≤ sizeBuf)
    (h : MessageDecides m) (hfits : Fits b m) (hfits' : Fits b' m) :
    replies b m = replies b' m ∧ (replies b m ≠ [] → req <:+: m) := by
  by_cases hnul : 0 ∈ m
  · exact replies_of_nul b m b' h2 hm hnul
  · rcases h with hz | ⟨hlf, hreq⟩ | ⟨hlf, hc⟩
    · exact absurd hz hnul
    · have hr := infix_text_fill b m hm hnul hreq
      have hr' := infix_text_fill b' m hm hnul hreq
      rw [replies_of_lf b m h2 hm hnul hlf hr, replies_of_lf b' m h2 hm hnul hlf hr']
      exact ⟨rfl, fun _ => hreq⟩
    · have hiff : ∀ c : Buffer sizeBuf, Fits c m → (req <:+: (c.fill m).text ↔ req <:+: m) := by
        intro c hcfits
        constructor
        · intro hr
          rwa [text_of_not_completable c m hm h2 hnul hlf hc hcfits hr] at hr
        · exact infix_text_fill c m hm hnul
      by_cases hreq : req <:+: m
      · have hr := (hiff b hfits).mpr hreq
        have hr' := (hiff b' hfits').mpr hreq
        rw [replies_of_not_lf b m h2 hm hlf hr, replies_of_not_lf b' m h2 hm hlf hr',
          text_of_not_completable b m hm h2 hnul hlf hc hfits hr,
          text_of_not_completable b' m hm h2 hnul hlf hc hfits' hr']
        exact ⟨rfl, fun _ => hreq⟩
      · have hr := mt (hiff b hfits).mp hreq
        have hr' := mt (hiff b' hfits').mp hreq
        rw [replies, if_neg hr, replies, if_neg hr']
        exact ⟨rfl, fun hne => absurd rfl hne⟩

end

/-! ## Two buffers that disagree -/

/-- A buffer in which `w` and a NUL stand behind the place of `m`. -/
def behind (m w : List UInt8) : Buffer sizeBuf := (Buffer.zero sizeBuf).fill (m ++ w)

theorem text_behind (m w : List UInt8) (hnul : 0 ∉ m ++ w) (hlen : (m ++ w).length < sizeBuf) :
    ((behind m w).fill m).text = m ++ w ∧ 0 ∈ ((behind m w).fill m).cells := by
  have hm : m.length ≤ (m ++ w).length := by simp
  obtain ⟨k, hk⟩ := Nat.exists_eq_add_of_lt hlen
  have hzero : (Buffer.zero sizeBuf).cells.drop (m ++ w).length = 0 :: List.replicate k 0 := by
    show (List.replicate sizeBuf 0).drop _ = _
    rw [List.drop_replicate, ← List.replicate_succ]
    congr 1
    omega
  have hcells : ((behind m w).fill m).cells = (m ++ w) ++ 0 :: List.replicate k 0 := by
    rw [Buffer.cells_fill _ m (by omega), behind, Buffer.cells_fill _ _ hlen.le, hzero,
      List.append_assoc, List.drop_left]
  exact ⟨Buffer.text_of_cells _ _ _ hcells hnul, by rw [hcells]; simp⟩

theorem replies_behind (m w : List UInt8) (h2 : 2 ≤ m.length) (hnul : 0 ∉ m ++ w)
    (hlen : (m ++ w).length ≤ 195) (hlf : m.getD (m.length - 2) 0 ≠ lf) :
    Fits (behind m w) m ∧
      replies (behind m w) m = if req <:+: m ++ w then [m ++ w ++ commaOKLF ++ [0]] else [] := by
  have h200 : (m ++ w).length < sizeBuf := by unfold sizeBuf; omega
  have hm : m.length ≤ (m ++ w).length := by simp
  have h4 : commaOKLF.length = 4 := rfl
  obtain ⟨htext, hz⟩ := text_behind m w hnul h200
  refine ⟨⟨hz, fun _ => ⟨h2, ?_⟩⟩, ?_⟩
  · rw [strippedText, cell_fill_lf _ m h2 (by omega), if_neg fun h => hlf h.1, htext]
    unfold sizeBuf
    omega
  · by_cases hreq : req <:+: m ++ w
    · rw [if_pos hreq, replies_of_not_lf _ m h2 (by omega) hlf (by rwa [htext]), htext]
    · rw [if_neg hreq, replies, if_neg (by rwa [htext])]

/-- Nothing behind, against a whole request behind. -/
theorem disagree_request (m : List UInt8) (h2 : 2 ≤ m.length) (hlen : m.length ≤ 195)
    (hnul : 0 ∉ m) (hlf : m.getD (m.length - 2) 0 = lf) (hreq : ¬ req <:+: m) :
    ∃ b b', Fits b m ∧ Fits b' m ∧ replies b m ≠ replies b' m := by
  have hnul1 : 0 ∉ m ++ [] := by rwa [List.append_nil]
  have hnul2 : 0 ∉ m ++ req := by
    rw [List.mem_append]
    exact fun hz => hz.elim hnul (by decide)
  have hlen2 : (m ++ req).length = m.length + 3 := List.length_append
  obtain ⟨htext1, hz1⟩ := text_behind m [] hnul1 (by simp [sizeBuf]; omega)
  obtain ⟨htext2, hz2⟩ := text_behind m req hnul2 (by unfold sizeBuf; omega)
  have hreq1 : ¬ req <:+: ((behind m []).fill m).text := by rwa [htext1, List.append_nil]
  have hreq2 : req <:+: ((behind m req).fill m).text := by
    rw [htext2]
    exact (List.suffix_append m req).isInfix
  refine ⟨behind m [], behind m req, ⟨hz1, fun hr => absurd hr hreq1⟩,
    ⟨hz2, fun _ => ⟨h2, ?_⟩⟩, ?_⟩
  · have h4 : commaOKLF.length = 4 := rfl
    have hlt : m.length - 2 < ((behind m req).fill m).text.length := by
      rw [htext2]
      omega
    rw [strippedText, cell_fill_lf _ m h2 (by unfold sizeBuf; omega), if_pos ⟨hlf, hlt⟩,
      List.length_take]
    unfold sizeBuf
    omega
  · rw [replies, if_neg hreq1, replies, if_pos hreq2]
    exact (List.cons_ne_nil _ _).symm

/-- Nothing behind, against a completion behind. -/
theorem disagree_completion (m : List UInt8) (h2 : 2 ≤ m.length) (hlen : m.length ≤ 195)
    (hnul : 0 ∉ m) (hlf : m.getD (m.length - 2) 0 ≠ lf) (hcompl : Completable m) :
    ∃ b b', Fits b m ∧ Fits b' m ∧ replies b m ≠ replies b' m := by
  obtain ⟨w, hw, hwnul, hwlen, hwreq⟩ := hcompl
  have hwpos := List.length_pos_of_ne_nil hw
  have hnul1 : 0 ∉ m ++ [] := by rwa [List.append_nil]
  have hnul2 : 0 ∉ m ++ w := by
    rw [List.mem_append]
    exact fun hz => hz.elim hnul hwnul
  obtain ⟨hfits1, hrep1⟩ := replies_behind m [] h2 hnul1 (by rw [List.append_nil]; omega) hlf
  obtain ⟨hfits2, hrep2⟩ := replies_behind m w h2 hnul2 (by rw [List.length_append]; omega) hlf
  refine ⟨behind m [], behind m w, hfits1, hfits2, ?_⟩
  rw [hrep1, hrep2, if_pos hwreq, List.append_nil]
  by_cases hreq : req <:+: m
  · rw [if_pos hreq]
    intro he
    have := congrArg (List.map List.length) he
    simp only [List.map_cons, List.map_nil, List.length_append, List.cons.injEq] at this
    omega
  · rw [if_neg hreq]
    exact (List.cons_ne_nil _ _).symm

theorem exists_disagreement (m : List UInt8) (h2 : 2 ≤ m.length) (hlen : m.length ≤ 195)
    (h : ¬ MessageDecides m) :
    ∃ b b', Fits b m ∧ Fits b' m ∧ replies b m ≠ replies b' m := by
  unfold MessageDecides at h
  push Not at h
  obtain ⟨hnul, hlfreq, hcompl⟩ := h
  by_cases hlf : m.getD (m.length - 2) 0 = lf
  · exact disagree_request m h2 hlen hnul hlf (hlfreq hlf)
  · exact disagree_completion m h2 hlen hnul hlf (hcompl hlf)

/-! ## Both servers -/

/-- A handler that faults unless the message fits, and then sends `replies`. -/
structure Handles {ι : Type} (body : Buffer sizeBuf → ι → Except Fault (Turn (Buffer sizeBuf) Out))
    (received : ι → Received) : Prop where
  delivers : ∀ m, ∃ i, received i = .bytes m
  turn : ∀ b i m, received i = .bytes m → 1 ≤ m.length → m.length ≤ sizeBuf → Fits b m →
    ∃ t, body b i = .ok t ∧ sends t.out = replies b m
  fits : ∀ b i m, received i = .bytes m → 1 ≤ m.length → m.length ≤ sizeBuf →
    (body b i).isOk → Fits b m

theorem handles_tcp : Handles tcpServerTurn id where
  delivers m := ⟨.bytes m, rfl⟩
  turn := by
    rintro b _ m rfl hpos hm hfits
    obtain ⟨t, ht, -, hsend⟩ := tcpServerTurn_ok b m hfits hpos hm
    exact ⟨t, ht, hsend⟩
  fits := by
    rintro b _ m rfl hpos hm hok
    exact (tcpServerTurn_isOk_iff b m hpos hm).mp hok

theorem handles_udp : Handles udpServerTurn UdpEvent.rcvd where
  delivers m := ⟨⟨.bytes m, true⟩, rfl⟩
  turn := by
    rintro b ⟨_, sendOK⟩ m rfl - hm hfits
    exact udpServerTurn_ok b m sendOK hfits hm
  fits := by
    rintro b ⟨_, sendOK⟩ m rfl - hm hok
    exact (udpServerTurn_isOk_iff b m sendOK hm).mp hok

section
variable {ι : Type} {body : Buffer sizeBuf → ι → Except Fault (Turn (Buffer sizeBuf) Out)}
variable {received : ι → Received}

theorem replyDetermined_of_decides (hb : Handles body received) (m : List UInt8)
    (h2 : 2 ≤ m.length) (hlen : m.length ≤ 195) (h : MessageDecides m) :
    ReplyDetermined body received m := by
  intro b b' hist hist' r r' _ _ _ _ i i' t t' hi hi' ht ht'
  have hm : m.length ≤ sizeBuf := by unfold sizeBuf; omega
  have hfits := hb.fits r.state i m hi (by omega) hm (by rw [ht]; rfl)
  have hfits' := hb.fits r'.state i' m hi' (by omega) hm (by rw [ht']; rfl)
  obtain ⟨u, hu, hsend⟩ := hb.turn r.state i m hi (by omega) hm hfits
  obtain ⟨u', hu', hsend'⟩ := hb.turn r'.state i' m hi' (by omega) hm hfits'
  cases Except.ok.inj (ht.symm.trans hu)
  cases Except.ok.inj (ht'.symm.trans hu')
  rw [hsend, hsend']
  exact replies_determined r.state m r'.state h2 hm h hfits hfits'

theorem decides_of_replyDetermined (hb : Handles body received) (m : List UInt8)
    (h2 : 2 ≤ m.length) (hlen : m.length ≤ 195) (h : ReplyDetermined body received m) :
    MessageDecides m := by
  by_contra hnot
  have hm : m.length ≤ sizeBuf := by unfold sizeBuf; omega
  obtain ⟨b, b', hfits, hfits', hne⟩ := exists_disagreement m h2 hlen hnot
  obtain ⟨i, hi⟩ := hb.delivers m
  obtain ⟨t, ht, hsend⟩ := hb.turn b i m hi (by omega) hm hfits
  obtain ⟨t', ht', hsend'⟩ := hb.turn b' i m hi (by omega) hm hfits'
  obtain ⟨heq, -⟩ := h b b' [] [] ⟨b, [], false, []⟩ ⟨b', [], false, []⟩ rfl rfl rfl rfl i i t t'
    hi hi ht ht'
  rw [hsend, hsend'] at heq
  exact hne heq

end

/-- **A reply depends only on its message** exactly when the message decides it. -/
theorem replyDetermined_iff (m : List UInt8) (h2 : 2 ≤ m.length) (hlen : m.length ≤ 195) :
    (ReplyDetermined tcpServerTurn id m ↔ MessageDecides m) ∧
      (ReplyDetermined udpServerTurn UdpEvent.rcvd m ↔ MessageDecides m) :=
  ⟨⟨decides_of_replyDetermined handles_tcp m h2 hlen, replyDetermined_of_decides handles_tcp m h2 hlen⟩,
    ⟨decides_of_replyDetermined handles_udp m h2 hlen, replyDetermined_of_decides handles_udp m h2 hlen⟩⟩

theorem replyDetermined_iff_req :
    (ReplyDetermined tcpServerTurn id (req ++ [0]) ↔ MessageDecides (req ++ [0])) ∧
      (ReplyDetermined udpServerTurn UdpEvent.rcvd (req ++ [0]) ↔ MessageDecides (req ++ [0])) :=
  replyDetermined_iff (req ++ [0]) (by decide) (by decide)

/-- The two bytes `re` are answered when a `q` is left over behind them, and not otherwise. -/
theorem re_not_determined :
    ¬ ReplyDetermined tcpServerTurn id [114, 101] ∧
      ¬ ReplyDetermined udpServerTurn UdpEvent.rcvd [114, 101] := by
  have hnot : ¬ MessageDecides [114, 101] := by
    rintro (hz | ⟨hlf, -⟩ | ⟨-, hc⟩)
    · exact absurd hz (by decide)
    · exact absurd hlf (by decide)
    · exact hc ⟨[113], by decide, by decide, by decide, by decide⟩
  exact ⟨fun h => hnot (decides_of_replyDetermined handles_tcp _ (by decide) (by decide) h),
    fun h => hnot (decides_of_replyDetermined handles_udp _ (by decide) (by decide) h)⟩

end LinuxAppSamp.Echo
