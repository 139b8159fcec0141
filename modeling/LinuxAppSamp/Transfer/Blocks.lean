import LinuxAppSamp.Transfer.Client

/-! # What the receiver makes of the sender's records

The two programs meet at the record. `posA_record` and `posB_record` say which trailer lands,
`checked_record` that the checking loop sees exactly the data bytes 5 to `size - 6`, on full and
on last records. From these: `roundTrips_iff` (when a filled block of any length comes back
record by record) and `corruption_localised` (which records are reported, for any block).
-/

namespace LinuxAppSamp.Transfer
open Memory Messages Execution Signed
set_option autoImplicit false
set_option maxHeartbeats 250000

/-! ## Sizes -/

theorem packetCount_bounds (P L : ℕ) (hP : 0 < P) (hL : 0 < L) :
    (packetCount P L - 1) * P < L ∧ L ≤ packetCount P L * P := by
  have hdiv := Nat.div_add_mod (L + P - 1) P
  have hmod := Nat.mod_lt (L + P - 1) hP
  have hpos := packetCount_pos P L hP hL
  rw [← packetCount, Nat.mul_comm] at hdiv
  have hpred : packetCount P L * P = (packetCount P L - 1) * P + P := by
    conv_lhs => rw [← Nat.sub_add_cancel hpos]
    exact Nat.succ_mul _ _
  constructor <;> omega

def lastSize (P L : ℕ) : ℕ := L - (packetCount P L - 1) * P

theorem lastSize_bounds (P L : ℕ) (hP : 0 < P) (hL : 0 < L) :
    1 ≤ lastSize P L ∧ lastSize P L ≤ P ∧ (packetCount P L - 1) * P + lastSize P L = L := by
  obtain ⟨h1, h2⟩ := packetCount_bounds P L hP hL
  have hpos := packetCount_pos P L hP hL
  have hpred : packetCount P L * P = (packetCount P L - 1) * P + P := by
    conv_lhs => rw [← Nat.sub_add_cancel hpos]
    exact Nat.succ_mul _ _
  rw [lastSize]
  omega

theorem packetCount_mul (P N : ℕ) (hP : 0 < P) : packetCount P (N * P) = N := by
  rw [packetCount, Nat.add_sub_assoc (by omega), Nat.mul_comm, Nat.mul_add_div hP,
    Nat.div_eq_of_lt (by omega), Nat.add_zero]

theorem lastSize_mul (P N : ℕ) (hP : 0 < P) (hN : 0 < N) : lastSize P (N * P) = P := by
  have hpred : N * P = (N - 1) * P + P := by
    conv_lhs => rw [← Nat.sub_add_cancel hN]
    exact Nat.succ_mul _ _
  rw [lastSize, packetCount_mul P N hP, hpred, Nat.add_sub_cancel_left]

theorem blockRecord_mid (P : ℕ) (data : List UInt8) (k : ℕ) (hP : 0 < P)
    (hk : k + 1 < packetCount P data.length) :
    k * P + P ≤ data.length ∧ blockRecord P data 0 data.length k = record P data (k * P) P false := by
  have hL : 0 < data.length := by
    by_contra h
    have h0 : data.length = 0 := by omega
    rw [h0, packetCount_zero P hP] at hk
    omega
  obtain ⟨h1, -⟩ := packetCount_bounds P data.length hP hL
  have hmul : (k + 1) * P ≤ (packetCount P data.length - 1) * P := Nat.mul_le_mul_right P (by omega)
  rw [Nat.succ_mul] at hmul
  refine ⟨by omega, ?_⟩
  rw [blockRecord, Nat.zero_add, Nat.min_eq_left (by omega), decide_eq_false (by omega)]

theorem blockRecord_last (P : ℕ) (data : List UInt8) (hP : 0 < P) (hL : 0 < data.length) :
    blockRecord P data 0 data.length (packetCount P data.length - 1) =
      record P data ((packetCount P data.length - 1) * P) (lastSize P data.length) true := by
  obtain ⟨-, h2, -⟩ := lastSize_bounds P data.length hP hL
  have hpos := packetCount_pos P data.length hP hL
  rw [lastSize] at h2 ⊢
  rw [blockRecord, Nat.zero_add, Nat.min_eq_right h2, decide_eq_true (by omega)]

/-! ## One record -/

section
variable (P : ℕ) (data : List UInt8) (start size : ℕ) (sendEOF : Bool)

theorem cell_landed_record (i : ℕ) (hi : i < P + 3) :
    (landed P (record P data start size sendEOF)).cell i =
      recordByte P data start size sendEOF i := by
  rw [cell_landed P _ (by simp) i (by omega), getD_record _ _ _ _ _ i hi]

theorem posA_record (hP : 2 ≤ P) :
    posA P (record P data start size sendEOF) = trailerByte P size sendEOF (size / 256) := by
  have hA : eofPosA P = P + 1 := rfl
  rw [posA, cell_landed_record _ _ _ _ _ _ (by omega), recordByte]
  rw [if_neg (by omega), if_neg (by omega), if_neg (by omega), if_neg (by omega), if_pos rfl]

theorem posB_record (hP : 2 ≤ P) :
    posB P (record P data start size sendEOF) = trailerByte P size sendEOF (size % 256) := by
  have hA : eofPosA P = P + 1 := rfl
  have hB : eofPosB P = P + 2 := rfl
  rw [posB, cell_landed_record _ _ _ _ _ _ (by omega), recordByte]
  rw [if_neg (by omega), if_neg (by omega), if_neg (by omega), if_neg (by omega),
    if_neg (by omega), if_pos rfl]

/-- Neither the debug letters nor the trailer reach the offsets that are checked. -/
theorem checked_record (hP : 2 ≤ P) (hsize : size ≤ P) :
    Checked P (record P data start size sendEOF) size ↔
      ∀ i, 5 ≤ i → i < size - 5 → data.getD (start + i) 0 = kDataCode := by
  refine forall_congr' fun i => ?_
  refine imp_congr_right fun h5 => ?_
  refine imp_congr_right fun hi => ?_
  have hA : eofPosA P = P + 1 := rfl
  have hB : eofPosB P = P + 2 := rfl
  rw [cell_landed_record _ _ _ _ _ i (by omega), recordByte, if_neg (by omega), if_neg (by omega),
    if_neg (by omega), if_neg (by omega), if_neg (by omega), if_neg (by omega), if_pos (by omega)]

theorem trailer_full (hP : 2 ≤ P) :
    ¬ CodeInTrailer P (record P data start P false) ∧ eofPos P (record P data start P false) = 0 := by
  have hA := posA_record P data start P false hP
  have hB := posB_record P data start P false hP
  have hzero : ∀ v, trailerByte P P false v = 0 := fun v => by simp [trailerByte]
  rw [hzero] at hA hB
  refine ⟨?_, by rw [eofPos, hA, hB]; rfl⟩
  rw [CodeInTrailer, hA, hB]
  decide

theorem ofNat_eq_kDataCode (v : ℕ) (hv : v < 256) :
    UInt8.ofNat v = kDataCode ↔ v = kDataCode.toNat := by
  constructor
  · intro h
    have := congrArg UInt8.toNat h
    rwa [UInt8.toNat_ofNat_of_lt' hv] at this
  · rintro rfl
    rfl

theorem trailer_last (hP : 2 ≤ P) (hsize : size ≤ 65535) :
    (CodeInTrailer P (record P data start size true) ↔
        size / 256 = kDataCode.toNat ∨ size % 256 = kDataCode.toNat) ∧
      eofPos P (record P data start size true) = size := by
  have hA := posA_record P data start size true hP
  have hB := posB_record P data start size true hP
  have htb : ∀ v, trailerByte P size true v = UInt8.ofNat v := fun v => by simp [trailerByte]
  have hdiv : size / 256 < 256 := by omega
  have hmod : size % 256 < 256 := Nat.mod_lt _ (by decide)
  rw [htb] at hA hB
  refine ⟨?_, ?_⟩
  · rw [CodeInTrailer, hA, hB, ofNat_eq_kDataCode _ hdiv, ofNat_eq_kDataCode _ hmod]
  · rw [eofPos, hA, hB, UInt8.toNat_ofNat_of_lt' hdiv, UInt8.toNat_ofNat_of_lt' hmod]
    omega

end

/-! ## Round trip of a filled block -/

/-- Fed to `rcvDataBlock` one by one, the records of a filled block of `L` bytes are all accepted,
the last one alone as the end, with its size. -/
def RoundTrips (P L : ℕ) : Prop :=
  ∃ data records, setLargeData L = .ok data ∧ sendDataBlock P data = .ok records ∧
    records.length = packetCount P L ∧
    ∀ k, ∀ h : k < records.length, records[k].length = P + 3 ∧
      ∀ rcvOK, ∃ o, rcvDataBlock P (.data records[k]) rcvOK = .ok o ∧ o.rcvOK = true ∧
        (o.rcvdEOF = true ↔ k + 1 = packetCount P L) ∧
        (k + 1 = packetCount P L → o.size = some (lastSize P L))

theorem getD_filled (L i : ℕ) (hi : i < L) :
    (List.replicate L kDataCode).getD i 0 = kDataCode := by
  rw [List.getD_eq_getElem _ _ (by simpa using hi), List.getElem_replicate]

theorem rcvDataBlock_filled_mid (P L k : ℕ) (rcvOK : Bool) (hP : 2 ≤ P)
    (hk : k + 1 < packetCount P L) :
    rcvDataBlock P (.data (blockRecord P (List.replicate L kDataCode) 0 L k)) rcvOK =
      .ok ⟨false, true, some P, []⟩ := by
  have hlen : (List.replicate L kDataCode).length = L := List.length_replicate
  obtain ⟨hle, hrec⟩ := blockRecord_mid P (List.replicate L kDataCode) k (by omega) (by rwa [hlen])
  rw [hlen] at hle hrec
  obtain ⟨hC, h0⟩ := trailer_full P (List.replicate L kDataCode) (k * P) hP
  have hchk := (checked_record P (List.replicate L kDataCode) (k * P) P false hP le_rfl).mpr
    fun i _ hi => getD_filled L _ (by omega)
  rw [hrec, rcvDataBlock_data P _ _ (by simp), if_neg hC, if_pos h0, decide_eq_true hchk]

theorem rcvDataBlock_filled_last (P L : ℕ) (rcvOK : Bool) (hP : 2 ≤ P) (hP' : P ≤ 65535)
    (hL : 0 < L) :
    ∃ lines, rcvDataBlock P
        (.data (blockRecord P (List.replicate L kDataCode) 0 L (packetCount P L - 1))) rcvOK =
      .ok (if lastSize P L / 256 = kDataCode.toNat ∨ lastSize P L % 256 = kDataCode.toNat
        then ⟨false, true, none, lines⟩ else ⟨true, true, some (lastSize P L), lines⟩) := by
  have hlen : (List.replicate L kDataCode).length = L := List.length_replicate
  have hrec := blockRecord_last P (List.replicate L kDataCode) (by omega) (by rwa [hlen])
  obtain ⟨h1, h2, h3⟩ := lastSize_bounds P L (by omega) hL
  rw [hlen] at hrec
  obtain ⟨hC, h0⟩ := trailer_last P (List.replicate L kDataCode) ((packetCount P L - 1) * P)
    (lastSize P L) hP (by omega)
  have hchk := (checked_record P (List.replicate L kDataCode) ((packetCount P L - 1) * P)
    (lastSize P L) true hP h2).mpr fun i _ hi => getD_filled L _ (by omega)
  have hcall := rcvDataBlock_data P (record P (List.replicate L kDataCode)
    ((packetCount P L - 1) * P) (lastSize P L) true) rcvOK (by simp)
  rw [hrec]
  by_cases hc : lastSize P L / 256 = kDataCode.toNat ∨ lastSize P L % 256 = kDataCode.toNat
  · rw [if_pos (hC.mpr hc)] at hcall
    exact ⟨_, hcall.trans (congrArg Except.ok (if_pos hc).symm)⟩
  · rw [if_neg (hC.not.mpr hc), if_neg (by omega), if_pos (by omega), h0,
      decide_eq_true hchk] at hcall
    exact ⟨_, hcall.trans (congrArg Except.ok (if_neg hc).symm)⟩

theorem sendDataBlock_filled (P L : ℕ) (hP : 2 ≤ P) (hL : L ≤ intMax) :
    sendDataBlock P (List.replicate L kDataCode) = .ok ((List.range (packetCount P L)).map
      (blockRecord P (List.replicate L kDataCode) 0 L)) := by
  rw [sendDataBlock_eq P _ hP (by simpa using hL), List.length_replicate]

theorem roundTrips_of_size (P L : ℕ) (hL : 1 ≤ L) (hP : 2 ≤ P) (hP' : P ≤ 65535)
    (hint : L ≤ intMax)
    (hc : ¬ (lastSize P L / 256 = kDataCode.toNat ∨ lastSize P L % 256 = kDataCode.toNat)) :
    RoundTrips P L := by
  have hpos := packetCount_pos P L (by omega) hL
  refine ⟨_, _, by rw [setLargeData_eq, if_pos hint], sendDataBlock_filled P L hP hint,
    by simp, fun k hk => ⟨by simp [blockRecord], fun rcvOK => ?_⟩⟩
  simp only [List.length_map, List.length_range] at hk
  simp only [List.getElem_map, List.getElem_range]
  by_cases hlast : k + 1 = packetCount P L
  · obtain ⟨lines, ho⟩ := rcvDataBlock_filled_last P L rcvOK hP hP' hL
    have hk' : packetCount P L - 1 = k := by omega
    rw [if_neg hc, hk'] at ho
    exact ⟨_, ho, rfl, ⟨fun _ => hlast, fun _ => rfl⟩, fun _ => rfl⟩
  · exact ⟨_, rcvDataBlock_filled_mid P L k rcvOK hP (by omega), rfl,
      iff_of_false Bool.false_ne_true hlast, fun h => absurd h hlast⟩

theorem not_roundTrips_of_code (P L : ℕ) (hL : 1 ≤ L) (hP : 2 ≤ P) (hP' : P ≤ 65535)
    (hc : lastSize P L / 256 = kDataCode.toNat ∨ lastSize P L % 256 = kDataCode.toNat) :
    ¬ RoundTrips P L := by
  rintro ⟨data, records, hdata, hrecs, hlen, hall⟩
  have hpos := packetCount_pos P L (by omega) hL
  by_cases hint : L ≤ intMax
  · rw [setLargeData_eq, if_pos hint] at hdata
    cases Except.ok.inj hdata
    rw [sendDataBlock_filled P L hP hint] at hrecs
    cases Except.ok.inj hrecs
    obtain ⟨o, ho, -, heof, -⟩ := (hall (packetCount P L - 1) (by omega)).2 true
    obtain ⟨lines, ho'⟩ := rcvDataBlock_filled_last P L true hP hP' hL
    rw [if_pos hc] at ho'
    simp only [List.getElem_map, List.getElem_range, ho', Except.ok.injEq] at ho
    subst ho
    exact absurd (heof.mpr (by omega)) (by simp)
  · rw [setLargeData_eq, if_neg hint] at hdata
    cases hdata

/-- A filled block comes back exactly when its length is an `int` and neither size byte of the
last record is the data code. -/
theorem roundTrips_iff (P L : ℕ) (hL : 1 ≤ L) (hP : 2 ≤ P) (hP' : P ≤ 65535) :
    RoundTrips P L ↔
      L ≤ intMax ∧ lastSize P L / 256 ≠ kDataCode.toNat ∧ lastSize P L % 256 ≠ kDataCode.toNat := by
  constructor
  · intro h
    have hint : L ≤ intMax := by
      by_contra hint
      obtain ⟨data, records, hdata, -⟩ := h
      rw [setLargeData_eq, if_neg hint] at hdata
      cases hdata
    have hc := mt (not_roundTrips_of_code P L hL hP hP') (not_not.mpr h)
    exact ⟨hint, not_or.mp hc⟩
  · rintro ⟨hint, h1, h2⟩
    exact roundTrips_of_size P L hL hP hP' hint (not_or.mpr ⟨h1, h2⟩)

theorem roundTrips_shipped : RoundTrips sizeOnePacket sizeLargeData :=
  (roundTrips_iff sizeOnePacket sizeLargeData (by decide) (by decide) (by decide)).mpr (by decide)

/-- A block of 67 bytes never ends: its size byte is the data code. -/
theorem not_roundTrips_67 : ¬ RoundTrips sizeOnePacket 67 :=
  not_roundTrips_of_code sizeOnePacket 67 (by decide) (by decide) (by decide) (by decide)

/-! ## Where a corrupted byte shows -/

theorem checked_full (P : ℕ) (data : List UInt8) (start : ℕ) (sendEOF : Bool) (hP : 2 ≤ P) :
    ¬ Checked P (record P data start P sendEOF) P ↔
      ∃ i, 5 ≤ i ∧ i < P - 5 ∧ data.getD (start + i) 0 ≠ kDataCode := by
  rw [checked_record P data start P sendEOF hP le_rfl]
  push Not
  rfl

/-- The records of a block that ends with a full packet: the last one alone is marked. -/
theorem records_exact (P N : ℕ) (data : List UInt8) (hP : 2 ≤ P) (hN : 0 < N)
    (hlen : data.length = N * P) :
    (List.range N).map (blockRecord P data 0 data.length) =
      (List.range (N - 1)).map (fun k => record P data (k * P) P false) ++
        [record P data ((N - 1) * P) P true] := by
  have hpos : 0 < data.length := by rw [hlen]; exact Nat.mul_pos hN (by omega)
  have hcount : packetCount P data.length = N := by rw [hlen, packetCount_mul P N (by omega)]
  have hlast : lastSize P data.length = P := by rw [hlen, lastSize_mul P N (by omega) hN]
  have hmid : ∀ k, k + 1 < N → blockRecord P data 0 data.length k = record P data (k * P) P false :=
    fun k hk => (blockRecord_mid P data k (by omega) (by rwa [hcount])).2
  have hend : blockRecord P data 0 data.length (N - 1) = record P data ((N - 1) * P) P true := by
    have := blockRecord_last P data (by omega) hpos
    rwa [hcount, hlast] at this
  conv_lhs => rw [← Nat.sub_add_cancel hN, List.range_succ, List.map_append, List.map_singleton,
    hend]
  congr 1
  refine List.map_congr_left fun k hk => hmid k ?_
  have := List.mem_range.mp hk
  omega

/-- The block `data` is read in `N` turns, the last alone seeing the end, and turn `k` reports a
failure exactly when a byte of record `k` that is to be checked is not the data code. -/
def LocalisesCorruption (P N : ℕ) (data : List UInt8) (s : ClientState) : Prop :=
  ∃ records run, sendDataBlock P data = .ok records ∧
    loop (clientTurn P) s (records.map .data) = .ok run ∧
    run.left = true ∧ run.rest = [] ∧ run.out.length = N ∧ records.length = N ∧
    (∀ r ∈ records, r.length = P + 3) ∧
    ∀ k, ∀ h : k < run.out.length, (run.out[k].rcvdEOF = true ↔ k + 1 = N) ∧
      (Line.rcvFailed ∈ run.out[k].lines ↔
        ∃ i, 5 ≤ i ∧ i < P - 5 ∧ data.getD (k * P + i) 0 ≠ kDataCode)

theorem loop_exact_block (P N : ℕ) (data : List UInt8) (s : ClientState) (hP : 2 ≤ P)
    (hP' : P ≤ 65535) (hN : 0 < N) (hlen : data.length = N * P) (hint : data.length ≤ intMax)
    (hcode : ¬ (P / 256 = kDataCode.toNat ∨ P % 256 = kDataCode.toNat)) :
    LocalisesCorruption P N data s := by
  have hcount : packetCount P data.length = N := by rw [hlen, packetCount_mul P N (by omega)]
  obtain ⟨hC, h0⟩ := trailer_last P data ((N - 1) * P) P hP hP'
  let front := (List.range (N - 1)).map fun k => record P data (k * P) P false
  let last := record P data ((N - 1) * P) P true
  have hsplit : (List.range N).map (blockRecord P data 0 data.length) = front ++ [last] :=
    records_exact P N data hP hN hlen
  obtain ⟨t, ht⟩ := loop_block P front last s
    (by
      intro m hm
      obtain ⟨k, -, rfl⟩ := List.mem_map.mp hm
      obtain ⟨hCk, h0k⟩ := trailer_full P data (k * P) hP
      exact ⟨by simp, hCk, h0k⟩)
    (by simp [last]) (hC.not.mpr hcode) (by rw [h0]; omega) (by rw [h0]; omega)
  have hfront : front.length = N - 1 := by simp [front]
  refine ⟨front ++ [last], _, ?_, ht, rfl, rfl, by simp [hfront]; omega, by simp [hfront]; omega,
    ?_, ?_⟩
  · rw [sendDataBlock_eq P data hP hint, hcount, hsplit]
  · rw [← hsplit]
    intro r hr
    obtain ⟨k, -, rfl⟩ := List.mem_map.mp hr
    simp [blockRecord]
  · intro k hk
    have hk' : k < N := by simp [hfront] at hk; omega
    by_cases hkl : k + 1 = N
    · obtain rfl : k = N - 1 := by omega
      have hget : (front.map (plainPass P) ++ [eofPass P last])[N - 1] = eofPass P last := by
        rw [List.getElem_append_right (by simp [hfront])]
        simp
      simp only [hget]
      refine ⟨⟨fun _ => hkl, fun _ => rfl⟩, ?_⟩
      rw [rcvFailed_mem_eofPass, h0, checked_full P data _ true hP]
    · have hget : (front.map (plainPass P) ++ [eofPass P last])[k] =
          plainPass P (record P data (k * P) P false) := by
        rw [List.getElem_append_left (by simp [hfront]; omega)]
        simp [front]
      simp only [hget]
      refine ⟨iff_of_false Bool.false_ne_true hkl, ?_⟩
      rw [rcvFailed_mem_plainPass, checked_full P data _ false hP]

/-- **Corruption is localised.** For both documented packet sizes and any content of the block. -/
theorem corruption_localised (P : ℕ) (hP : P = 2048 ∨ P = sizeOnePacket) (data : List UInt8)
    (hdata : data.length = sizeLargeData) (s : ClientState) :
    LocalisesCorruption P (sizeLargeData / P) data s := by
  have hsize : sizeLargeData ≤ intMax := by decide
  rcases hP with rfl | rfl
  · exact loop_exact_block 2048 (sizeLargeData / 2048) data s (by decide) (by decide) (by decide)
      hdata (hdata ▸ hsize) (by decide)
  · exact loop_exact_block sizeOnePacket (sizeLargeData / sizeOnePacket) data s (by decide)
      (by decide) (by decide) hdata (hdata ▸ hsize) (by decide)

theorem corruption_localised_zeros :
    LocalisesCorruption 2048 (sizeLargeData / 2048) (List.replicate sizeLargeData 0) ⟨0, true⟩ :=
  corruption_localised 2048 (.inl rfl) (List.replicate sizeLargeData 0) List.length_replicate
    ⟨0, true⟩

end LinuxAppSamp.Transfer
