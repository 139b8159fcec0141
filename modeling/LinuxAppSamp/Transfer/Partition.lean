import LinuxAppSamp.Transfer.Server

/-! # How `sendDataBlock` divides the block

`blockPasses` runs the loop of `sendDataBlock` for its variables and its calls alone;
`sendDataBlockFrom_calls` says that the records are what `sendOnePacket` makes of these calls.
`sendDataBlock_partition` is the loop's contract: the calls tile the block from 0 to its length,
in packets of at most `P` bytes of which the last alone is marked.
-/

namespace LinuxAppSamp.Transfer
open Memory Signed
set_option autoImplicit false
set_option maxHeartbeats 250000

/-! ## Tilings -/

/-- The arguments of a call of `sendOnePacket`. -/
structure PacketCall where
  start : ℕ
  size : ℕ
  sendEOF : Bool
  deriving DecidableEq, Repr

/-- Each range begins where the one before it ended, the first at `s`, and the last ends at `e`. -/
def Tiles : ℕ → List PacketCall → ℕ → Prop
  | s, [], e => s = e
  | s, c :: cs, e => c.start = s ∧ Tiles (s + c.size) cs e

theorem tiles_le (s e : ℕ) (cs : List PacketCall) (h : Tiles s cs e) : s ≤ e := by
  induction cs generalizing s with
  | nil => exact le_of_eq h
  | cons c cs ih =>
    have := ih _ h.2
    omega

theorem tiles_inside (s e : ℕ) (cs : List PacketCall) (h : Tiles s cs e) :
    ∀ c ∈ cs, s ≤ c.start ∧ c.start + c.size ≤ e := by
  induction cs generalizing s with
  | nil => exact fun c hc => absurd hc List.not_mem_nil
  | cons d cs ih =>
    obtain ⟨hd, hcs⟩ := h
    have hle := tiles_le _ _ _ hcs
    intro c hc
    obtain rfl | hc := List.mem_cons.mp hc
    · omega
    · have := ih _ hcs c hc
      omega

theorem tiles_disjoint (s e : ℕ) (cs : List PacketCall) (h : Tiles s cs e) :
    cs.Pairwise fun c d => c.start + c.size ≤ d.start := by
  induction cs generalizing s with
  | nil => exact List.Pairwise.nil
  | cons c cs ih =>
    obtain ⟨hc, hcs⟩ := h
    refine List.Pairwise.cons ?_ (ih _ hcs)
    intro d hd
    rw [hc]
    exact (tiles_inside _ _ _ hcs d hd).1

theorem tiles_covers (s e : ℕ) (cs : List PacketCall) (h : Tiles s cs e) (i : ℕ) :
    (s ≤ i ∧ i < e) ↔ ∃ c ∈ cs, c.start ≤ i ∧ i < c.start + c.size := by
  constructor
  · induction cs generalizing s with
    | nil =>
      intro hi
      have he : s = e := h
      omega
    | cons c cs ih =>
      obtain ⟨hc, hcs⟩ := h
      intro hi
      by_cases hin : i < c.start + c.size
      · exact ⟨c, List.mem_cons_self, by omega, hin⟩
      · obtain ⟨d, hd, hi⟩ := ih _ hcs (by omega)
        exact ⟨d, List.mem_cons_of_mem c hd, hi⟩
  · rintro ⟨c, hc, hi⟩
    have := tiles_inside s e cs h c hc
    omega

/-! ## The loop -/

/-- `start` and `leftSize` when a pass begins, and the call it makes. -/
structure BlockPass where
  start : ℕ
  leftSize : ℕ
  call : Option PacketCall
  deriving DecidableEq, Repr

def blockPassesFrom (P : ℕ) : ℕ → ℕ → ℕ → Except Fault (List BlockPass)
  | 0, _, _ => .error .outOfFuel
  | fuel + 1, start, leftSize =>
    if leftSize = 0 then .ok [⟨start, leftSize, none⟩]
    else if leftSize > P then do
      let next ← toInt (start + P)
      let passes ← blockPassesFrom P fuel next (leftSize - P)
      .ok (⟨start, leftSize, some ⟨start, P, false⟩⟩ :: passes)
    else .ok [⟨start, leftSize, some ⟨start, leftSize, true⟩⟩]

def blockPasses (P L : ℕ) : Except Fault (List BlockPass) := do
  let leftSize ← toInt L
  blockPassesFrom P (L + 1) 0 leftSize

def calls (passes : List BlockPass) : List PacketCall := passes.filterMap BlockPass.call

/-- `r` is the record that the call `c` sends. -/
def Sends (P : ℕ) (data : List UInt8) (c : PacketCall) (r : List UInt8) : Prop :=
  sendOnePacket P data c.start c.size c.sendEOF = .ok r

theorem sendDataBlockFrom_calls (P : ℕ) (data : List UInt8) (fuel start left : ℕ)
    (rs : List (List UInt8)) (h : sendDataBlockFrom P data fuel start left = .ok rs) :
    ∃ passes, blockPassesFrom P fuel start left = .ok passes ∧
      List.Forall₂ (Sends P data) (calls passes) rs := by
  induction fuel generalizing start left rs with
  | zero => cases h
  | succ fuel ih =>
    rw [sendDataBlockFrom] at h
    rw [blockPassesFrom]
    by_cases h0 : left = 0
    · rw [if_pos h0] at h
      cases Except.ok.inj h
      rw [if_pos h0]
      exact ⟨_, rfl, List.Forall₂.nil⟩
    · rw [if_neg h0] at h
      rw [if_neg h0]
      by_cases hl : left > P
      · rw [if_pos hl] at h
        obtain ⟨r, hr, h⟩ := bind_eq_ok h
        obtain ⟨next, hnext, h⟩ := bind_eq_ok h
        obtain ⟨rest, hrest, h⟩ := bind_eq_ok h
        cases Except.ok.inj h
        obtain ⟨passes, hpasses, hall⟩ := ih next (left - P) rest hrest
        rw [if_pos hl, hnext, ok_bind, hpasses, ok_bind]
        exact ⟨_, rfl, List.Forall₂.cons hr hall⟩
      · rw [if_neg hl] at h
        obtain ⟨r, hr, h⟩ := bind_eq_ok h
        cases Except.ok.inj h
        rw [if_neg hl]
        exact ⟨_, rfl, List.Forall₂.cons hr List.Forall₂.nil⟩

/-- What the passes from `start` on do with the `left` bytes before `stop`. -/
structure Divides (P start left stop : ℕ) (passes : List BlockPass) : Prop where
  count : (calls passes).length = packetCount P left
  onePerPass : passes.length = (calls passes).length
  tiles : Tiles start (calls passes) stop
  size : ∀ c ∈ calls passes, 1 ≤ c.size ∧ c.size ≤ P
  eof : ∃ front last, calls passes = front ++ [last] ∧ last.sendEOF = true ∧
    ∀ c ∈ front, c.sendEOF = false
  left : ∀ p ∈ passes, p.start + p.leftSize = stop

theorem divides_last (P start left stop : ℕ) (h1 : 1 ≤ left) (hl : left ≤ P)
    (hend : start + left = stop) :
    Divides P start left stop [⟨start, left, some ⟨start, left, true⟩⟩] where
  count := (packetCount_small P left h1 hl).symm
  onePerPass := rfl
  tiles := ⟨rfl, hend⟩
  size := by
    intro c hc
    cases List.mem_singleton.mp hc
    exact ⟨h1, hl⟩
  eof := by
    refine ⟨[], _, rfl, rfl, ?_⟩
    exact fun c hc => absurd hc List.not_mem_nil
  left := by
    intro p hp
    cases List.mem_singleton.mp hp
    exact hend

theorem divides_more (P start left stop : ℕ) (passes : List BlockPass) (hP : 0 < P)
    (hl : P < left) (hend : start + left = stop)
    (h : Divides P (start + P) (left - P) stop passes) :
    Divides P start left stop (⟨start, left, some ⟨start, P, false⟩⟩ :: passes) where
  count := by
    show (calls passes).length + 1 = _
    rw [h.count, packetCount_step P left hP hl]
  onePerPass := by
    show passes.length + 1 = (calls passes).length + 1
    rw [h.onePerPass]
  tiles := ⟨rfl, h.tiles⟩
  size := by
    intro c hc
    obtain rfl | hc := List.mem_cons.mp hc
    · exact ⟨hP, le_rfl⟩
    · exact h.size c hc
  eof := by
    obtain ⟨front, last, hcalls, hlast, hfront⟩ := h.eof
    refine ⟨⟨start, P, false⟩ :: front, last, ?_, hlast, ?_⟩
    · show _ :: calls passes = _
      rw [hcalls]
      rfl
    · intro c hc
      obtain rfl | hc := List.mem_cons.mp hc
      · rfl
      · exact hfront c hc
  left := by
    intro p hp
    obtain rfl | hp := List.mem_cons.mp hp
    · exact hend
    · exact h.left p hp

theorem blockPassesFrom_divides (P fuel start left stop : ℕ) (hP : 0 < P) (h1 : 1 ≤ left)
    (hend : start + left = stop) (hint : stop ≤ intMax) (hfuel : left < fuel) :
    ∃ passes, blockPassesFrom P fuel start left = .ok passes ∧
      Divides P start left stop passes := by
  induction fuel generalizing start left with
  | zero => omega
  | succ fuel ih =>
    rw [blockPassesFrom, if_neg (by omega)]
    by_cases hl : left > P
    · obtain ⟨passes, hpasses, hdiv⟩ := ih (start + P) (left - P) (by omega) (by omega) (by omega)
      rw [if_pos hl, toInt_ok _ (by omega), ok_bind, hpasses, ok_bind]
      exact ⟨_, rfl, divides_more P start left stop passes hP hl hend hdiv⟩
    · rw [if_neg hl]
      exact ⟨_, rfl, divides_last P start left stop h1 (by omega) hend⟩

/-- The contract of `sendDataBlock` for a block of `L` bytes, over the calls that it makes. -/
structure ExactPartition (P L : ℕ) (passes : List BlockPass) : Prop extends
    Divides P 0 L L passes where
  covers : ∀ i, i < L ↔ ∃ c ∈ calls passes, c.start ≤ i ∧ i < c.start + c.size
  disjoint : (calls passes).Pairwise fun c d => c.start + c.size ≤ d.start
  inRange : ∀ c ∈ calls passes, c.start + c.size ≤ intMax ∧ c.start + c.size ≤ L ∧ c.size < P + 10

theorem exactPartition_of_divides (P L : ℕ) (passes : List BlockPass) (hint : L ≤ intMax)
    (h : Divides P 0 L L passes) : ExactPartition P L passes where
  toDivides := h
  covers := by
    intro i
    rw [← tiles_covers 0 L _ h.tiles i]
    exact ⟨fun hi => ⟨i.zero_le, hi⟩, fun hi => hi.2⟩
  disjoint := tiles_disjoint 0 L _ h.tiles
  inRange := by
    intro c hc
    have hin := tiles_inside 0 L _ h.tiles c hc
    have hsize := h.size c hc
    omega

/-- **`sendDataBlock` ends without a fault and its calls partition the block exactly.** -/
theorem sendDataBlock_partition (P : ℕ) (data : List UInt8) (hP : 2 ≤ P) (h1 : 1 ≤ data.length)
    (hL : data.length ≤ intMax) :
    ∃ passes records, blockPasses P data.length = .ok passes ∧
      sendDataBlock P data = .ok records ∧
      List.Forall₂ (Sends P data) (calls passes) records ∧
      ExactPartition P data.length passes := by
  have hrecs := sendDataBlock_eq P data hP hL
  have hfrom := hrecs
  rw [sendDataBlock, toInt_ok _ hL, ok_bind] at hfrom
  obtain ⟨passes, hpasses, hall⟩ := sendDataBlockFrom_calls P data _ _ _ _ hfrom
  obtain ⟨passes', hpasses', hdiv⟩ := blockPassesFrom_divides P (data.length + 1) 0 data.length
    data.length (by omega) h1 (by omega) hL (by omega)
  cases Except.ok.inj (hpasses.symm.trans hpasses')
  refine ⟨passes, _, ?_, hrecs, hall, exactPartition_of_divides P _ passes hL hdiv⟩
  rw [blockPasses, toInt_ok _ hL, ok_bind, hpasses]

theorem sendDataBlock_partition_five :
    ∃ passes records, blockPasses 2 ([1, 2, 3, 4, 5] : List UInt8).length = .ok passes ∧
      sendDataBlock 2 [1, 2, 3, 4, 5] = .ok records ∧
      List.Forall₂ (Sends 2 [1, 2, 3, 4, 5]) (calls passes) records ∧
      ExactPartition 2 ([1, 2, 3, 4, 5] : List UInt8).length passes :=
  sendDataBlock_partition 2 [1, 2, 3, 4, 5] (by decide) (by decide) (by decide)

end LinuxAppSamp.Transfer
