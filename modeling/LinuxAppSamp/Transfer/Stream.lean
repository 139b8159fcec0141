import LinuxAppSamp.Transfer.Blocks

/-! # The bytes of one transfer

After the request `req` the server sends one reply and then the records of the block, and TCP
carries them as one stream. For a filled block of full records every record but the last has the
same bytes, so `blockStream P m`, the stream of `m + 1` records, needs no positions in the block.
`serverTurn_request` says that this is what one turn of the server sends.
-/

namespace LinuxAppSamp.Transfer
open Memory Messages Execution Signed
set_option autoImplicit false
set_option maxHeartbeats 250000

/-! ## A record of filled data -/

/-- Byte `i` of a full record of filled data with the trailer `a`, `b`. -/
def filledByte (P : ℕ) (a b : UInt8) (i : ℕ) : UInt8 :=
  if i = 0 then 48
  else if i = 1 then 49
  else if i = 2 then 50
  else if i < P - 2 then kDataCode
  else if i ≤ P then 69
  else if i = eofPosA P then a
  else b

def filledRecord (P : ℕ) (a b : UInt8) : List UInt8 := (List.range (P + 3)).map (filledByte P a b)

@[simp] theorem length_filledRecord (P : ℕ) (a b : UInt8) :
    (filledRecord P a b).length = P + 3 := by
  simp [filledRecord]

theorem getD_filledRecord (P : ℕ) (a b : UInt8) (i : ℕ) (hi : i < P + 3) :
    (filledRecord P a b).getD i 0 = filledByte P a b i := by
  rw [filledRecord, List.getD_eq_getElem _ _ (by simpa using hi), List.getElem_map,
    List.getElem_range]

theorem filledByte_trailer (P : ℕ) (a b a' b' : UInt8) (i : ℕ) (hi : i ≤ P) :
    filledByte P a b i = filledByte P a' b' i := by
  unfold filledByte
  rw [if_pos hi, if_pos hi]

theorem filledByte_data (P : ℕ) (a b : UInt8) (i : ℕ) (h3 : 3 ≤ i) (hi : i < P - 2) :
    filledByte P a b i = kDataCode := by
  unfold filledByte
  rw [if_neg (by omega), if_neg (by omega), if_neg (by omega), if_pos hi]

theorem filledByte_zero (P i : ℕ) (hP : 3 ≤ P) (hi : P < i) : filledByte P 0 0 i = 0 := by
  unfold filledByte
  rw [if_neg (by omega), if_neg (by omega), if_neg (by omega), if_neg (by omega), if_neg (by omega),
    ite_self]

theorem record_filled (P L start : ℕ) (sendEOF : Bool) (hP : 8 ≤ P) (hL : start + P ≤ L) :
    record P (List.replicate L kDataCode) start P sendEOF =
      filledRecord P (trailerByte P P sendEOF (P / 256)) (trailerByte P P sendEOF (P % 256)) := by
  apply List.map_congr_left
  intro i hi
  have hlt := List.mem_range.mp hi
  have hdata : i < P → (List.replicate L kDataCode).getD (start + i) 0 = kDataCode :=
    fun h => getD_filled L (start + i) (by omega)
  unfold recordByte filledByte eofPosB eofPosA
  grind

/-! ## The stream of a block -/

/-- The bytes of `m` records and the last. -/
def blockStream (P m : ℕ) : List UInt8 :=
  (List.replicate m (filledRecord P 0 0)).flatten ++
    filledRecord P (UInt8.ofNat (P / 256)) (UInt8.ofNat (P % 256))

theorem blockStream_succ (P m : ℕ) :
    blockStream P (m + 1) = filledRecord P 0 0 ++ blockStream P m := by
  rw [blockStream, List.replicate_succ, List.flatten_cons, List.append_assoc]
  rfl

theorem length_blockStream (P m : ℕ) : (blockStream P m).length = (m + 1) * (P + 3) := by
  induction m with
  | zero => simp [blockStream]
  | succ m ih => rw [blockStream_succ, List.length_append, ih, length_filledRecord, Nat.succ_mul (m + 1),
      Nat.add_comm]

theorem getD_blockStream_last (P j : ℕ) (hj : j < P + 3) :
    (blockStream P 0).getD j 0 =
      filledByte P (UInt8.ofNat (P / 256)) (UInt8.ofNat (P % 256)) j := by
  exact getD_filledRecord P _ _ j hj

theorem getD_blockStream_head (P m j : ℕ) (hj : j ≤ P) :
    (blockStream P m).getD j 0 = filledByte P 0 0 j := by
  cases m with
  | zero => rw [getD_blockStream_last P j (by omega), filledByte_trailer P _ _ 0 0 j hj]
  | succ m => rw [blockStream_succ, List.getD_append _ _ _ _ (by simp; omega),
      getD_filledRecord P 0 0 j (by omega)]

/-- Byte `j` of a stream that begins with a record that is not the last, up to the trailer of
the second. -/
def cutByte (P j : ℕ) : UInt8 :=
  if j < P + 3 then filledByte P 0 0 j else filledByte P 0 0 (j - (P + 3))

theorem getD_blockStream (P m j : ℕ) (hj : j ≤ P + 3 + P) :
    (blockStream P (m + 1)).getD j 0 = cutByte P j := by
  rw [blockStream_succ]
  unfold cutByte
  by_cases h : j < P + 3
  · rw [if_pos h, List.getD_append _ _ _ _ (by simpa using h), getD_filledRecord P 0 0 j h]
  · rw [if_neg h, List.getD_append_right _ _ _ _ (by simp; omega), length_filledRecord,
      getD_blockStream_head P m _ (by omega)]

/-! ## What the server sends -/

theorem sendDataBlock_stream (P m : ℕ) (hP : 8 ≤ P) (hint : (m + 1) * P ≤ intMax) :
    ∃ records, sendDataBlock P (List.replicate ((m + 1) * P) kDataCode) = .ok records ∧
      records.flatten = blockStream P m := by
  have hcount : packetCount P ((m + 1) * P) = m + 1 := packetCount_mul P (m + 1) (by omega)
  have hsize : lastSize P ((m + 1) * P) = P := lastSize_mul P (m + 1) (by omega) (by omega)
  refine ⟨_, sendDataBlock_filled P _ (by omega) hint, ?_⟩
  have hlen : (List.replicate ((m + 1) * P) kDataCode).length = (m + 1) * P := List.length_replicate
  have hpos : 0 < (m + 1) * P := Nat.mul_pos (by omega) (by omega)
  have hmid : ∀ k ∈ List.range m, blockRecord P (List.replicate ((m + 1) * P) kDataCode) 0
      ((m + 1) * P) k = filledRecord P 0 0 := by
    intro k hk
    have hkm := List.mem_range.mp hk
    obtain ⟨hle, hrec⟩ := blockRecord_mid P (List.replicate ((m + 1) * P) kDataCode) k (by omega)
      (by rw [hlen, hcount]; omega)
    rw [hlen] at hle hrec
    rw [hrec, record_filled P _ _ false hP hle]
    simp [trailerByte]
  have hlast := blockRecord_last P (List.replicate ((m + 1) * P) kDataCode) (by omega)
    (by rwa [hlen])
  rw [hlen, hcount, hsize, Nat.add_sub_cancel,
    record_filled P _ _ true hP (by rw [Nat.succ_mul])] at hlast
  rw [hcount, List.range_succ, List.map_append, List.map_congr_left hmid, List.map_singleton, hlast,
    List.flatten_append, List.flatten_singleton, List.map_const', List.length_range]
  simp [blockStream, trailerByte]

def reqOK : List UInt8 := req ++ commaOK ++ [0]

theorem serverTurn_request (P : ℕ) (data : List UInt8) (rxBuf : Buffer sizeRcvBuf)
    (records : List (List UInt8)) (hP : sizeRcvBuf ≤ P) (hdata : sendDataBlock P data = .ok records) :
    ∃ t, serverTurn P data rxBuf (.bytes clientRequest) = .ok t ∧ t.leaves = false ∧
      (sends t.out).flatten = reqOK ++ records.flatten := by
  obtain ⟨htext, hnul⟩ : (rxBuf.fill clientRequest).text = req ∧
      0 ∈ (rxBuf.fill clientRequest).cells := text_framed rxBuf req (by decide) (by decide)
  obtain ⟨txBuf, htx, printed, hsend⟩ := sendReqOK_ok P (rxBuf.fill clientRequest) 4 hP hnul
    (by decide) (by decide)
  rw [htext] at htx
  have hcell : txBuf.cell 2 ≠ lf := by
    rw [txBuf.cell_text 2 (by rw [htx]; decide), htx]
    decide
  have hstrip : strippedText txBuf 4 = req := by
    rw [strippedText, if_neg fun h => hcell h.1, htx]
  have hrec : rxBuf.recv sizeRcvBuf clientRequest = (rxBuf.fill clientRequest, 4) :=
    Buffer.recv_eq rxBuf sizeRcvBuf clientRequest (by decide)
  have hstr : (rxBuf.fill clientRequest).str = .ok req := by
    rw [Buffer.str_ok _ hnul, htext]
  refine ⟨⟨rxBuf.fill clientRequest, [.send reqOK, .print printed] ++ records.map .send, false⟩,
    ?_, rfl, ?_⟩
  · simp only [serverTurn, hrec]
    rw [if_neg (by decide), hstr, ok_bind, if_neg (by decide), hsend, ok_bind, hdata, ok_bind, hstrip]
    rfl
  · have hmap : sends (records.map Out.send) = records := by
      unfold sends
      rw [List.filterMap_map]
      exact List.filterMap_some
    rw [sends_append, hmap, List.flatten_append]
    simp [sends]

end LinuxAppSamp.Transfer
