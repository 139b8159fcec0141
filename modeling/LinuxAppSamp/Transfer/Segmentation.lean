import LinuxAppSamp.Transfer.Cuts

/-! # The transfer over every segmentation of the stream

The whole run: the server's turn on the request of the client, its bytes cut by TCP in any way,
and the client's `main` on the pieces. `transfers_iff` lists the cuts for which the client reads
the block as it was sent; they leave next to nothing to TCP.
-/

namespace LinuxAppSamp.Transfer
open Memory Messages Execution
set_option autoImplicit false
set_option maxHeartbeats 250000

/-- A way to deliver `stream`: what the first `recv` of the client returns, and every later one. -/
structure Segmentation (P : ℕ) (stream : List UInt8) where
  reply : List UInt8
  chunks : List (List UInt8)
  flatten : reply ++ chunks.flatten = stream
  reply_length : 1 ≤ reply.length ∧ reply.length ≤ sizeRcvBuf
  chunk_length : ∀ c ∈ chunks, 1 ≤ c.length ∧ c.length ≤ P + 3

def Segmentation.lengths {P : ℕ} {stream : List UInt8} (cut : Segmentation P stream) : List ℕ :=
  cut.reply.length :: cut.chunks.map List.length

/-- The client leaves its loop at an end of file with nothing of the stream unread, after one call
for each of the `N` records and without a reported failure. -/
def Transfers {P : ℕ} {stream : List UInt8} (N : ℕ) (rcvBuf : Buffer sizeRcvBuf) (rcvOK : Bool)
    (cut : Segmentation P stream) : Prop :=
  ∃ rx run, clientMain P rcvBuf rcvOK (.data cut.reply) (cut.chunks.map .data) = .ok (rx, some run) ∧
    Clean run ∧ run.state.cnt = N

theorem clientMain_data (P : ℕ) (rcvBuf : Buffer sizeRcvBuf) (rcvOK : Bool) (reply : List UInt8)
    (rs : List RecvResult) (hpos : 1 ≤ reply.length) (hlen : reply.length ≤ sizeRcvBuf) :
    clientMain P rcvBuf rcvOK (.data reply) rs = (do
      let t ← (rcvBuf.fill reply).str
      let o ← loop (clientTurn P) ⟨0, rcvOK⟩ rs
      .ok (bytes ['r', 'x', ':'] ++ t ++ [lf], some o)) := by
  simp only [clientMain, Buffer.recv_eq rcvBuf sizeRcvBuf reply hlen]
  rw [if_neg (by omega)]

section
variable {P N : ℕ} {stream : List UInt8} {rcvBuf : Buffer sizeRcvBuf} {rcvOK : Bool}
variable {cut : Segmentation P stream}

theorem Segmentation.short (cut : Segmentation P stream) : ∀ c ∈ cut.chunks, c.length ≤ P + 3 :=
  fun c hc => (cut.chunk_length c hc).2

theorem Transfers.inv (h : Transfers N rcvBuf rcvOK cut) :
    cut.chunks.length = N ∧ CleanRun P cut.chunks := by
  obtain ⟨rx, run, hrun, hclean, hcnt⟩ := h
  rw [clientMain_data P rcvBuf rcvOK _ _ cut.reply_length.1 cut.reply_length.2] at hrun
  obtain ⟨t, -, hrun⟩ := bind_eq_ok hrun
  obtain ⟨o, ho, hrun⟩ := bind_eq_ok hrun
  cases Except.ok.inj hrun
  refine ⟨?_, (loop_clean_iff P ⟨0, rcvOK⟩ cut.chunks cut.short).mp ⟨_, ho, hclean⟩⟩
  have hturns := loop_cnt ho
  rw [hclean.rest, hcnt, List.length_map] at hturns
  simpa using hturns.symm

theorem transfers_of_clean (hnul : 0 ∈ cut.reply) (hclean : CleanRun P cut.chunks)
    (hN : cut.chunks.length = N) : Transfers N rcvBuf rcvOK cut := by
  obtain ⟨-, hz⟩ := rcvBuf.text_fill_of_mem cut.reply cut.reply_length.2 hnul
  obtain ⟨o, ho, hc⟩ := (loop_clean_iff P ⟨0, rcvOK⟩ cut.chunks cut.short).mpr hclean
  refine ⟨bytes ['r', 'x', ':'] ++ (rcvBuf.fill cut.reply).text ++ [lf], o, ?_, hc, ?_⟩
  · rw [clientMain_data P rcvBuf rcvOK _ _ cut.reply_length.1 cut.reply_length.2,
      Buffer.str_ok _ hz, ok_bind, ho, ok_bind]
  · have hturns := loop_cnt ho
    rw [hc.rest, List.length_map, hN] at hturns
    simpa using hturns

end

theorem length_of_mem_passingCuts (P m : ℕ) (l : ℕ) (ls : List ℕ)
    (h : l :: ls ∈ passingCuts P (m + 3)) : 7 ≤ l ∧ ls.length = m + 3 := by
  simp only [passingCuts, List.mem_cons, List.not_mem_nil, or_false, List.cons.injEq] at h
  obtain ⟨rfl, rfl⟩ | ⟨rfl, rfl⟩ | ⟨rfl, rfl⟩ | ⟨rfl, rfl⟩ | ⟨rfl, rfl⟩ := h
  all_goals simp

theorem transfers_iff_mem (P m : ℕ) (hP : 400 ≤ P) (hP' : P ≤ 65535)
    (hA : P / 256 ≠ kDataCode.toNat) (hB : P % 256 = 0) (rcvBuf : Buffer sizeRcvBuf) (rcvOK : Bool)
    (cut : Segmentation P (reqOK ++ blockStream P (m + 2))) :
    Transfers (m + 3) rcvBuf rcvOK cut ↔ cut.lengths ∈ passingCuts P (m + 3) := by
  have h7 : reqOK.length = 7 := rfl
  have hlen := cut.reply_length.2
  unfold sizeRcvBuf at hlen
  -- behind the reply the pieces are a cut of the records, as soon as there are as many of them
  have hcut : cut.chunks.length = m + 3 →
      7 ≤ cut.reply.length ∧ Cut P (m + 2) (cut.reply.length - 7) cut.chunks := by
    intro hnum
    have hbound := length_flatten_le (P + 3) cut.chunks cut.short
    have htotal := congrArg List.length cut.flatten
    rw [List.length_append, List.length_append, length_blockStream, h7] at htotal
    rw [hnum] at hbound
    have h7le : 7 ≤ cut.reply.length := by
      generalize (m + 3) * (P + 3) = total at hbound htotal
      omega
    refine ⟨h7le, hnum, cut.short, ?_⟩
    have hdrop := congrArg (List.drop cut.reply.length) cut.flatten
    rw [List.drop_left, List.drop_append, List.drop_eq_nil_of_le (by omega), List.nil_append,
      h7] at hdrop
    exact hdrop
  have hiff : cut.chunks.length = m + 3 →
      (CleanRun P cut.chunks ↔ cut.lengths ∈ passingCuts P (m + 3)) := by
    intro hnum
    obtain ⟨h7le, hc⟩ := hcut hnum
    rw [hc.clean_iff hP hP' hA hB (by omega), Nat.add_sub_cancel' h7le]
    rfl
  constructor
  · intro h
    obtain ⟨hnum, hclean⟩ := h.inv
    exact (hiff hnum).mp hclean
  · intro h
    obtain ⟨h7le, hnum⟩ := length_of_mem_passingCuts P m _ _ h
    rw [List.length_map] at hnum
    refine transfers_of_clean ?_ ((hiff hnum).mpr h) hnum
    -- the whole reply has been received, its NUL included
    have hpre : reqOK <+: cut.reply := by
      have hstream : reqOK <+: cut.reply ++ cut.chunks.flatten := by
        rw [cut.flatten]
        exact List.prefix_append _ _
      exact List.prefix_of_prefix_length_le hstream (List.prefix_append _ _) (by omega)
    exact hpre.subset (by decide)

/-! ## At the shipped constants -/

theorem sizeLargeData_eq : sizeLargeData = (122 + 2 + 1) * sizeOnePacket := by decide

theorem shipped_stream (rxBuf : Buffer sizeRcvBuf) :
    ∃ data t, setLargeData sizeLargeData = .ok data ∧
      serverTurn sizeOnePacket data rxBuf (.bytes clientRequest) = .ok t ∧
      (sends t.out).flatten = reqOK ++ blockStream sizeOnePacket (122 + 2) := by
  obtain ⟨records, hrecs, hflat⟩ := sendDataBlock_stream sizeOnePacket (122 + 2) (by decide)
    (by decide)
  obtain ⟨t, ht, -, hsends⟩ := serverTurn_request sizeOnePacket _ rxBuf records (by decide) hrecs
  rw [hflat] at hsends
  refine ⟨_, t, ?_, ht, hsends⟩
  rw [setLargeData_eq, if_pos (by decide), sizeLargeData_eq]

/-- **Which segmentations get through.** Of all ways to deliver the reply and the 125 records,
exactly those in `passingCuts` let the client read the block as it was sent. -/
theorem transfers_iff (rxBuf rcvBuf : Buffer sizeRcvBuf) (rcvOK : Bool) :
    ∃ data t, setLargeData sizeLargeData = .ok data ∧
      serverTurn sizeOnePacket data rxBuf (.bytes clientRequest) = .ok t ∧
      ∀ cut : Segmentation sizeOnePacket (sends t.out).flatten,
        Transfers 125 rcvBuf rcvOK cut ↔ cut.lengths ∈ passingCuts sizeOnePacket 125 := by
  obtain ⟨data, t, hdata, ht, hsends⟩ := shipped_stream rxBuf
  refine ⟨data, t, hdata, ht, ?_⟩
  rw [hsends]
  exact transfers_iff_mem sizeOnePacket 122 (by decide) (by decide) (by decide) (by decide) rcvBuf
    rcvOK

/-- The first record arrives as one byte and the rest, everything else as it was sent. -/
def brokenCut (P m : ℕ) : Segmentation P (reqOK ++ blockStream P (m + 1)) where
  reply := reqOK
  chunks := (filledRecord P 0 0).take 1 :: (filledRecord P 0 0).drop 1 ::
    (List.replicate m (filledRecord P 0 0) ++
      [filledRecord P (UInt8.ofNat (P / 256)) (UInt8.ofNat (P % 256))])
  flatten := by
    rw [blockStream_succ, List.flatten_cons, List.flatten_cons, ← List.append_assoc (List.take _ _),
      List.take_append_drop, List.flatten_append, List.flatten_singleton]
    rfl
  reply_length := by decide
  chunk_length := by
    have hlen : ∀ a b, (filledRecord P a b).length = P + 3 := length_filledRecord P
    intro c hc
    simp only [List.mem_cons, List.mem_append, List.mem_replicate, List.not_mem_nil, or_false] at hc
    obtain rfl | rfl | ⟨-, rfl⟩ | rfl := hc
    · rw [List.length_take, hlen]
      omega
    · rw [List.length_drop, hlen]
      omega
    · rw [hlen]
      omega
    · rw [hlen]
      omega

theorem length_brokenCut (P m : ℕ) : (brokenCut P m).chunks.length = m + 3 := by
  simp [brokenCut]

theorem not_every_segmentation :
    ¬ ∀ (rxBuf rcvBuf : Buffer sizeRcvBuf) (rcvOK : Bool) (data : List UInt8)
      (t : Turn (Buffer sizeRcvBuf) Out), setLargeData sizeLargeData = .ok data →
      serverTurn sizeOnePacket data rxBuf (.bytes clientRequest) = .ok t →
      ∀ cut : Segmentation sizeOnePacket (sends t.out).flatten, Transfers 125 rcvBuf rcvOK cut := by
  intro h
  obtain ⟨data, t, hdata, ht, hsends⟩ := shipped_stream (Buffer.zero sizeRcvBuf)
  have hall := h (Buffer.zero sizeRcvBuf) (Buffer.zero sizeRcvBuf) true data t hdata ht
  rw [hsends] at hall
  obtain ⟨hnum, -⟩ := (hall (brokenCut sizeOnePacket 123)).inv
  rw [length_brokenCut] at hnum
  omega

end LinuxAppSamp.Transfer
