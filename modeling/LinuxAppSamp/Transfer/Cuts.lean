import LinuxAppSamp.Transfer.Stream

/-! # Which cuts of the stream the receiver survives

TCP may cut the server's stream anywhere, and the client takes every `recv` for a record. With as
many pieces as records, piece `k` begins `s` bytes into record `k`, and is `e ≤ s` bytes short:
`Cut.clean_cons` says for which `s` and `e` it is passed over, `Cut.clean_last` that the last piece
must be the last record itself. So the shift `s`, at first what the reply took too much, has to
return to 0, and it can do so only from 3 down: `Cut.clean_iff`.

`transfers_iff` puts this together with the server's turn and the client's `main`.
-/

namespace LinuxAppSamp.Transfer
open Memory Messages Execution
set_option autoImplicit false
set_option maxHeartbeats 250000

/-! ## Runs without a failure -/

/-- The pieces are read without a reported failure, and the last one ends the block. -/
def CleanRun (P : ℕ) : List (List UInt8) → Prop
  | [] => False
  | c :: cs =>
    if CodeInTrailer P c then CleanRun P cs
    else if eofPos P c = 0 then Checked P c P ∧ CleanRun P cs
    else eofPos P c < P + 10 ∧ Checked P c (eofPos P c) ∧ cs = []

structure Clean (r : Outcome ClientState RecvResult Pass) : Prop where
  left : r.left = true
  rest : r.rest = []
  silent : ∀ p ∈ r.out, Line.rcvFailed ∉ p.lines

section
variable {P : ℕ} {s : ClientState} {i : RecvResult} {rs : List RecvResult}
variable {t : Turn ClientState Pass} {p : Pass}

theorem clean_cons_stays (ht : clientTurn P s i = .ok t) (hl : t.leaves = false)
    (hp : t.out = [p]) :
    (∃ r, loop (clientTurn P) s (i :: rs) = .ok r ∧ Clean r) ↔
      Line.rcvFailed ∉ p.lines ∧ ∃ r, loop (clientTurn P) t.state rs = .ok r ∧ Clean r := by
  rw [loop_cons_stays ht hl, hp]
  constructor
  · rintro ⟨r, hr, hc⟩
    obtain ⟨q, hq, hqr⟩ := bind_eq_ok hr
    cases Except.ok.inj hqr
    refine ⟨hc.silent p (by simp), q, hq, hc.left, hc.rest, fun x hx => hc.silent x ?_⟩
    exact List.mem_append_right _ hx
  · rintro ⟨hsil, q, hq, hc⟩
    refine ⟨{ q with out := [p] ++ q.out }, by rw [hq, ok_bind], hc.left, hc.rest, fun x hx => ?_⟩
    rcases List.mem_append.mp hx with hx | hx
    · rwa [List.mem_singleton.mp hx]
    · exact hc.silent x hx

theorem clean_cons_leaves (ht : clientTurn P s i = .ok t) (hl : t.leaves = true)
    (hp : t.out = [p]) :
    (∃ r, loop (clientTurn P) s (i :: rs) = .ok r ∧ Clean r) ↔
      Line.rcvFailed ∉ p.lines ∧ rs = [] := by
  rw [loop_cons_leaves ht hl, hp]
  constructor
  · rintro ⟨r, hr, hc⟩
    cases Except.ok.inj hr
    exact ⟨hc.silent p (by simp), hc.rest⟩
  · rintro ⟨hsil, hrs⟩
    refine ⟨_, rfl, rfl, hrs, fun x hx => ?_⟩
    rwa [List.mem_singleton.mp hx]

end

theorem loop_clean_iff (P : ℕ) (s : ClientState) (cs : List (List UInt8))
    (hlen : ∀ c ∈ cs, c.length ≤ P + 3) :
    (∃ r, loop (clientTurn P) s (cs.map .data) = .ok r ∧ Clean r) ↔ CleanRun P cs := by
  induction cs generalizing s with
  | nil =>
    refine ⟨?_, False.elim⟩
    rintro ⟨r, hr, hc⟩
    cases Except.ok.inj hr
    cases hc.left
  | cons c cs ih =>
    have hc := hlen c List.mem_cons_self
    have hcs : ∀ x ∈ cs, x.length ≤ P + 3 := fun x hx => hlen x (List.mem_cons_of_mem c hx)
    unfold CleanRun
    rw [List.map_cons]
    by_cases hC : CodeInTrailer P c
    · rw [if_pos hC, clean_cons_stays (clientTurn_code s hc hC) rfl rfl, ih _ hcs]
      simp [codePass]
    · rw [if_neg hC]
      by_cases h0 : eofPos P c = 0
      · rw [if_pos h0, clean_cons_stays (clientTurn_plain s hc hC h0) rfl rfl, ih _ hcs,
          rcvFailed_mem_plainPass, not_not]
      · rw [if_neg h0]
        by_cases hin : eofPos P c < P + 10
        · rw [clean_cons_leaves (clientTurn_eof s hc hC (by omega) hin) rfl rfl,
            rcvFailed_mem_eofPass, not_not, List.map_eq_nil_iff]
          exact ⟨fun h => ⟨hin, h⟩, fun h => h.2⟩
        · rw [loop_cons_error (clientTurn_outside s hc hC (by omega))]
          refine iff_of_false ?_ fun h => hin h.1
          rintro ⟨r, hr, -⟩
          cases hr

theorem not_cleanRun_of_eof (P : ℕ) (c : List UInt8) (cs : List (List UInt8))
    (hC : ¬ CodeInTrailer P c) (h0 : eofPos P c ≠ 0) (hcs : cs ≠ []) : ¬ CleanRun P (c :: cs) := by
  unfold CleanRun
  rw [if_neg hC, if_neg h0]
  exact fun h => hcs h.2.2

theorem cleanRun_of_zero (P : ℕ) (c : List UInt8) (cs : List (List UInt8))
    (hA : posA P c = 0) (hB : posB P c = 0) :
    CleanRun P (c :: cs) ↔ Checked P c P ∧ CleanRun P cs := by
  have hC : ¬ CodeInTrailer P c := by
    rw [CodeInTrailer, hA, hB]
    decide
  have h0 : eofPos P c = 0 := by
    rw [eofPos, hA, hB]
    rfl
  conv_lhs => unfold CleanRun
  rw [if_neg hC, if_pos h0]

/-! ## Pieces in step with the records -/

/-- As many pieces as records cover the stream of `m + 1` records from its byte `s` on. -/
structure Cut (P m s : ℕ) (chunks : List (List UInt8)) : Prop where
  number : chunks.length = m + 1
  short : ∀ c ∈ chunks, c.length ≤ P + 3
  covers : chunks.flatten = (blockStream P m).drop s

theorem length_flatten_le (k : ℕ) (cs : List (List UInt8)) (h : ∀ c ∈ cs, c.length ≤ k) :
    cs.flatten.length ≤ cs.length * k := by
  induction cs with
  | nil => simp
  | cons c cs ih =>
    have hc := h c List.mem_cons_self
    have hrest := ih fun x hx => h x (List.mem_cons_of_mem c hx)
    rw [List.flatten_cons, List.length_append, List.length_cons, Nat.succ_mul]
    omega

/-- The bytes of a piece as they land, when it starts `s` bytes into a record that is not the
last and is `e` bytes short. -/
def LandsAt (P s e : ℕ) (c : List UInt8) : Prop :=
  ∀ i < P + 10, (landed P c).cell i = if i + e < P + 3 then cutByte P (s + i) else 0

section
variable {P m s e : ℕ} {c : List UInt8} {cs : List (List UInt8)}

theorem Cut.uncons (h : Cut P (m + 1) s (c :: cs)) (hs : s ≤ P) :
    ∃ e, e ≤ s ∧ c.length + e = P + 3 ∧ Cut P m (s - e) cs ∧ LandsAt P s e c := by
  have hc := h.short c List.mem_cons_self
  have hcs : ∀ x ∈ cs, x.length ≤ P + 3 := fun x hx => h.short x (List.mem_cons_of_mem c hx)
  have hnum : cs.length = m + 1 := by simpa using h.number
  have hbound := length_flatten_le (P + 3) cs hcs
  have hcov := h.covers
  rw [List.flatten_cons] at hcov
  have htotal := congrArg List.length hcov
  rw [List.length_append, List.length_drop, length_blockStream, Nat.succ_mul] at htotal
  rw [hnum] at hbound
  generalize (m + 1) * (P + 3) = total at htotal hbound
  refine ⟨P + 3 - c.length, by omega, by omega, ⟨hnum, hcs, ?_⟩, ?_⟩
  · have hdrop := congrArg (List.drop c.length) hcov
    rw [List.drop_left, List.drop_drop, blockStream_succ, List.drop_append,
      List.drop_eq_nil_of_le (by simp; omega), List.nil_append, length_filledRecord] at hdrop
    rw [hdrop]
    congr 1
    omega
  · intro i hi
    rw [cell_landed P c hc i hi]
    by_cases hlt : i < c.length
    · have hget : c.getD i 0 = ((blockStream P (m + 1)).drop s).getD i 0 := by
        rw [← hcov, List.getD_append _ _ _ _ hlt]
      rw [if_pos (by omega), hget, ← getD_blockStream P m (s + i) (by omega)]
      simp only [List.getD_eq_getElem?_getD, List.getElem?_drop]
    · rw [if_neg (by omega), List.getD_eq_default _ _ (by omega)]

theorem posA_landsAt (hP : 400 ≤ P) (h : LandsAt P s e c) :
    posA P c = if 1 < e then 0 else if s ≤ 1 then 0 else filledByte P 0 0 (s - 2) := by
  rw [posA, h _ (by unfold eofPosA; omega)]
  unfold eofPosA cutByte
  by_cases he : 1 < e
  · rw [if_neg (by omega), if_pos he]
  · rw [if_pos (by omega), if_neg he]
    by_cases hs : s ≤ 1
    · rw [if_pos (by omega), if_pos hs, filledByte_zero P _ (by omega) (by omega)]
    · rw [if_neg (by omega), if_neg hs]
      congr 1
      omega

theorem posB_landsAt (hP : 400 ≤ P) (h : LandsAt P s e c) :
    posB P c = if 0 < e then 0 else if s = 0 then 0 else filledByte P 0 0 (s - 1) := by
  rw [posB, h _ (by unfold eofPosB eofPosA; omega)]
  unfold eofPosB eofPosA cutByte
  by_cases he : 0 < e
  · rw [if_neg (by omega), if_pos he]
  · rw [if_pos (by omega), if_neg he]
    by_cases hs : s = 0
    · rw [if_pos (by omega), if_pos hs, filledByte_zero P _ (by omega) (by omega)]
    · rw [if_neg (by omega), if_neg hs]
      congr 1
      omega

/-- The bytes to check are data as long as the letters `EEE` stay behind them. -/
theorem checked_landsAt (hP : 400 ≤ P) (hs : s ≤ 193) (he : e ≤ s) (h : LandsAt P s e c) :
    Checked P c P ↔ s ≤ 3 := by
  constructor
  · intro hchk
    by_contra h4
    have hE := hchk (P - 2 - s) (by omega) (by omega)
    rw [h _ (by omega), if_pos (by omega)] at hE
    unfold cutByte filledByte at hE
    rw [if_pos (by omega), if_neg (by omega), if_neg (by omega), if_neg (by omega),
      if_neg (by omega), if_pos (by omega)] at hE
    exact absurd hE (by decide)
  · intro h3 i h5 hi
    rw [h i (by omega), if_pos (by omega), cutByte, if_pos (by omega),
      filledByte_data P 0 0 _ (by omega) (by omega)]

/-- The shifts and shortages with which a piece before the last record is passed over: it ends in
step, or it hides its last two bytes, or the client takes data for the trailer. -/
def Passes (s e : ℕ) : Prop := e = s ∧ s ≤ 3 ∨ s = 3 ∧ e = 2 ∨ e ≤ 1 ∧ 4 ≤ s - e

theorem cleanRun_landsAt (hP : 400 ≤ P) (hs : s ≤ 193) (he : e ≤ s) (h : LandsAt P s e c)
    (hcs : cs ≠ []) : CleanRun P (c :: cs) ↔ Passes s e ∧ CleanRun P cs := by
  have hA := posA_landsAt hP h
  have hB := posB_landsAt hP h
  by_cases hzero : 1 < e ∨ s ≤ 1 ∧ e = s
  · -- the trailer is read as zero
    have hA0 : posA P c = 0 := by
      rw [hA]
      split
      · rfl
      · rw [if_pos (by omega)]
    have hB0 : posB P c = 0 := by
      rw [hB]
      split
      · rfl
      · rw [if_pos (by omega)]
    have hiff : Passes s e ↔ s ≤ 3 := by
      unfold Passes
      omega
    rw [cleanRun_of_zero P c cs hA0 hB0, checked_landsAt hP hs he h, hiff]
  · rw [if_neg (by omega)] at hA
    by_cases hcode : 4 ≤ s - e
    · -- a data byte is read as trailer
      have hC : CodeInTrailer P c := by
        by_cases he0 : e = 0
        · refine .inr ?_
          rw [hB, if_neg (by omega), if_neg (by omega), filledByte_data P 0 0 _ (by omega) (by omega)]
        · refine .inl ?_
          rw [hA, if_neg (by omega), filledByte_data P 0 0 _ (by omega) (by omega)]
      conv_lhs => unfold CleanRun
      rw [if_pos hC]
      exact ⟨fun hr => ⟨.inr (.inr ⟨by omega, hcode⟩), hr⟩, fun hr => hr.2⟩
    · -- one of the digits written over a record is read as trailer
      have hpass : ¬ Passes s e := by
        unfold Passes
        omega
      have hdigits : (s = 1 ∧ e = 0) ∨ (s = 2 ∧ e = 0) ∨ (s = 2 ∧ e = 1) ∨ (s = 3 ∧ e = 0) ∨
          (s = 3 ∧ e = 1) ∨ (s = 4 ∧ e = 1) := by omega
      have htrailer : ¬ CodeInTrailer P c ∧ eofPos P c ≠ 0 := by
        unfold CodeInTrailer eofPos
        rw [hA, hB]
        obtain ⟨rfl, rfl⟩ | ⟨rfl, rfl⟩ | ⟨rfl, rfl⟩ | ⟨rfl, rfl⟩ | ⟨rfl, rfl⟩ | ⟨rfl, rfl⟩ := hdigits
        all_goals simp [filledByte, kDataCode]
      exact ⟨fun hr => absurd hr (not_cleanRun_of_eof P c cs htrailer.1 htrailer.2 hcs),
        fun hr => absurd hr.1 hpass⟩

theorem Cut.clean_cons (h : Cut P (m + 1) s (c :: cs)) (hP : 400 ≤ P) (hs : s ≤ 193) :
    ∃ e, e ≤ s ∧ c.length + e = P + 3 ∧ Cut P m (s - e) cs ∧
      (CleanRun P (c :: cs) ↔ Passes s e ∧ CleanRun P cs) := by
  obtain ⟨e, he, hlen, hcut, hlands⟩ := h.uncons (by omega)
  have hne : cs ≠ [] := List.ne_nil_of_length_pos (by rw [hcut.number]; omega)
  exact ⟨e, he, hlen, hcut, cleanRun_landsAt hP hs he hlands hne⟩

theorem Cut.clean_last (h : Cut P 0 s [c]) (hP : 400 ≤ P) (hP' : P ≤ 65535) (hs : s ≤ 193)
    (hA : P / 256 ≠ kDataCode.toNat) (hB : P % 256 = 0) :
    c.length + s = P + 3 ∧ (CleanRun P [c] ↔ s = 0) := by
  have hc : c = (blockStream P 0).drop s := by simpa using h.covers
  have hlen : c.length + s = P + 3 := by
    have := congrArg List.length hc
    rw [List.length_drop, length_blockStream] at this
    omega
  refine ⟨hlen, ?_⟩
  by_cases h0 : s = 0
  · subst h0
    have hrec : c = record P (List.replicate P kDataCode) 0 P true := by
      rw [hc, record_filled P P 0 true (by omega) (by omega)]
      simp [blockStream, trailerByte]
    obtain ⟨hC, hpos⟩ := trailer_last P (List.replicate P kDataCode) 0 P (by omega) hP'
    have hchk := (checked_record P (List.replicate P kDataCode) 0 P true (by omega) le_rfl).mpr
      fun i _ hi => getD_filled P _ (by omega)
    have h67 : kDataCode.toNat = 67 := rfl
    rw [← hrec] at hC hpos hchk
    refine ⟨fun _ => rfl, fun _ => ?_⟩
    unfold CleanRun
    rw [if_neg (hC.not.mpr (by omega)), if_neg (by omega), hpos]
    exact ⟨by omega, hchk, rfl⟩
  · have hcell : ∀ i, P + 1 ≤ i → i < P + 3 → (landed P c).cell i = 0 := by
      intro i hi hi'
      rw [cell_landed P c (by omega) i (by omega)]
      by_cases hlt : i < c.length
      · -- only the last byte of the trailer is left, which is zero
        have hget : c.getD i 0 = (blockStream P 0).getD (s + i) 0 := by
          rw [hc]
          simp only [List.getD_eq_getElem?_getD, List.getElem?_drop]
        rw [hget, getD_blockStream_last P (s + i) (by omega), hB]
        unfold filledByte eofPosA
        rw [if_neg (by omega), if_neg (by omega), if_neg (by omega), if_neg (by omega),
          if_neg (by omega), if_neg (by omega)]
        rfl
      · rw [List.getD_eq_default _ _ (by omega)]
    have hiff := cleanRun_of_zero P c [] (hcell _ (by unfold eofPosA; omega) (by unfold eofPosA; omega))
      (hcell _ (by unfold eofPosB eofPosA; omega) (by unfold eofPosB eofPosA; omega))
    rw [hiff]
    exact ⟨fun hr => hr.2.elim, fun hr => absurd hr h0⟩

end

/-! ## Whole cuts -/

/-- The lengths of the pieces, that of the reply first, with which `N` records get through. -/
def passingCuts (P N : ℕ) : List (List ℕ) :=
  [7 :: List.replicate N (P + 3),
    8 :: (P + 2) :: List.replicate (N - 1) (P + 3),
    9 :: (P + 1) :: List.replicate (N - 1) (P + 3),
    10 :: P :: List.replicate (N - 1) (P + 3),
    10 :: (P + 1) :: (P + 2) :: List.replicate (N - 2) (P + 3)]

theorem mem_passingCuts (P m s c d : ℕ) (ls : List ℕ) :
    (7 + s) :: c :: d :: ls ∈ passingCuts P (m + 3) ↔
      (s ≤ 3 ∧ c + s = P + 3 ∧ d :: ls = List.replicate (m + 2) (P + 3)) ∨
        (s = 3 ∧ c = P + 1 ∧ d + 1 = P + 3 ∧ ls = List.replicate (m + 1) (P + 3)) := by
  have h0 : List.replicate (m + 3) (P + 3) = (P + 3) :: List.replicate (m + 2) (P + 3) := rfl
  simp only [passingCuts, List.mem_cons, List.not_mem_nil, or_false, List.cons.injEq, h0,
    show m + 3 - 1 = m + 2 from rfl, show m + 3 - 2 = m + 1 from rfl,
    List.replicate_succ (n := m + 1)]
  constructor
  · rintro (⟨h, hc, hl⟩ | ⟨h, hc, hl⟩ | ⟨h, hc, hl⟩ | ⟨h, hc, hl⟩ | ⟨h, hc, hd, hl⟩)
    · exact .inl ⟨by omega, by omega, hl⟩
    · exact .inl ⟨by omega, by omega, hl⟩
    · exact .inl ⟨by omega, by omega, hl⟩
    · exact .inl ⟨by omega, by omega, hl⟩
    · exact .inr ⟨by omega, hc, by omega, hl⟩
  · rintro (⟨h, hc, hl⟩ | ⟨h, hc, hd, hl⟩)
    · obtain rfl | rfl | rfl | rfl : s = 0 ∨ s = 1 ∨ s = 2 ∨ s = 3 := by omega
      · exact .inl ⟨rfl, by omega, hl⟩
      · exact .inr (.inl ⟨rfl, by omega, hl⟩)
      · exact .inr (.inr (.inl ⟨rfl, by omega, hl⟩))
      · exact .inr (.inr (.inr (.inl ⟨rfl, by omega, hl⟩)))
    · exact .inr (.inr (.inr (.inr ⟨by omega, hc, by omega, hl⟩)))

section
variable {P m s : ℕ} {chunks : List (List UInt8)}
variable (hP : 400 ≤ P) (hP' : P ≤ 65535) (hA : P / 256 ≠ kDataCode.toNat) (hB : P % 256 = 0)
include hP hP' hA hB

theorem Cut.clean_in_step (h : Cut P m 0 chunks) :
    CleanRun P chunks ∧ chunks.map List.length = List.replicate (m + 1) (P + 3) := by
  induction m generalizing chunks with
  | zero =>
    obtain ⟨c, rfl⟩ := List.length_eq_one_iff.mp h.number
    obtain ⟨hlen, hiff⟩ := h.clean_last hP hP' (by omega) hA hB
    exact ⟨hiff.mpr rfl, by simpa using hlen⟩
  | succ m ih =>
    obtain ⟨c, cs, rfl⟩ := List.exists_cons_of_length_eq_add_one h.number
    obtain ⟨e, he, hlen, hcut, hiff⟩ := h.clean_cons hP (by omega)
    obtain rfl : e = 0 := by omega
    obtain ⟨hclean, hlens⟩ := ih hcut
    refine ⟨hiff.mpr ⟨.inl ⟨rfl, by omega⟩, hclean⟩, ?_⟩
    rw [Nat.add_zero] at hlen
    rw [List.map_cons, hlens, hlen, ← List.replicate_succ]

/-- From a shift of 4 or more there is no way back. -/
theorem Cut.not_clean (h : Cut P m s chunks) (hs : s ≤ 193) (h4 : 4 ≤ s) : ¬ CleanRun P chunks := by
  induction m generalizing s chunks with
  | zero =>
    obtain ⟨c, rfl⟩ := List.length_eq_one_iff.mp h.number
    have := (h.clean_last hP hP' hs hA hB).2
    exact fun hr => absurd (this.mp hr) (by omega)
  | succ m ih =>
    obtain ⟨c, cs, rfl⟩ := List.exists_cons_of_length_eq_add_one h.number
    obtain ⟨e, he, -, hcut, hiff⟩ := h.clean_cons hP hs
    intro hr
    obtain ⟨hpass, hclean⟩ := hiff.mp hr
    have hshift : 4 ≤ s - e := by
      unfold Passes at hpass
      omega
    exact ih hcut (by omega) hshift hclean

variable {c : List UInt8} {cs : List (List UInt8)}

theorem Cut.clean_made_up (h : Cut P (m + 1) s (c :: cs)) (h3 : s ≤ 3) (hc : c.length + s = P + 3) :
    CleanRun P (c :: cs) ∧ cs.map List.length = List.replicate (m + 1) (P + 3) := by
  obtain ⟨e, he, hlen, hcut, hiff⟩ := h.clean_cons hP (by omega)
  obtain rfl : e = s := by omega
  rw [Nat.sub_self] at hcut
  obtain ⟨hclean, hlens⟩ := hcut.clean_in_step hP hP' hA hB
  exact ⟨hiff.mpr ⟨.inl ⟨rfl, h3⟩, hclean⟩, hlens⟩

omit hP' hA hB in
/-- A shift of 3 may be made up for in two pieces, by 2 and by 1. -/
theorem Cut.clean_half (h : Cut P (m + 1) 3 (c :: cs)) (hc : c.length = P + 1) :
    Cut P m 1 cs ∧ (CleanRun P (c :: cs) ↔ CleanRun P cs) := by
  obtain ⟨e, he, hlen, hcut, hiff⟩ := h.clean_cons hP (by omega)
  obtain rfl : e = 2 := by omega
  exact ⟨hcut, hiff.trans ⟨fun hr => hr.2, fun hr => ⟨.inr (.inl ⟨rfl, rfl⟩), hr⟩⟩⟩

theorem Cut.not_clean_of_first (h : Cut P (m + 1) s (c :: cs)) (hs : s ≤ 193)
    (h1 : ¬ (s ≤ 3 ∧ c.length + s = P + 3)) (h2 : ¬ (s = 3 ∧ c.length = P + 1)) :
    ¬ CleanRun P (c :: cs) := by
  obtain ⟨e, he, hlen, hcut, hiff⟩ := h.clean_cons hP hs
  intro hr
  obtain ⟨hpass, hclean⟩ := hiff.mp hr
  have hshift : 4 ≤ s - e := by
    unfold Passes at hpass
    omega
  exact hcut.not_clean hP hP' hA hB (by omega) hshift hclean

theorem Cut.clean_iff (h : Cut P (m + 2) s chunks) (hs : s ≤ 193) :
    CleanRun P chunks ↔ (7 + s) :: chunks.map List.length ∈ passingCuts P (m + 3) := by
  obtain ⟨c, cs, rfl⟩ := List.exists_cons_of_length_eq_add_one h.number
  obtain ⟨d, ds, rfl⟩ := List.exists_cons_of_length_eq_add_one
    (by simpa using h.number : cs.length = m + 1 + 1)
  rw [List.map_cons, List.map_cons, mem_passingCuts]
  by_cases h1 : s ≤ 3 ∧ c.length + s = P + 3
  · obtain ⟨hclean, hlens⟩ := h.clean_made_up hP hP' hA hB h1.1 h1.2
    exact ⟨fun _ => .inl ⟨h1.1, h1.2, hlens⟩, fun _ => hclean⟩
  · by_cases h2 : s = 3 ∧ c.length = P + 1
    · obtain ⟨rfl, hc⟩ := h2
      obtain ⟨hcut, hiff⟩ := h.clean_half hP hc
      rw [hiff]
      by_cases hd : d.length + 1 = P + 3
      · obtain ⟨hclean, hlens⟩ := hcut.clean_made_up hP hP' hA hB (by omega) hd
        exact ⟨fun _ => .inr ⟨rfl, hc, hd, hlens⟩, fun _ => hclean⟩
      · have hnot := hcut.not_clean_of_first hP hP' hA hB (by omega) (by omega) (by omega)
        refine ⟨fun hr => absurd hr hnot, ?_⟩
        rintro (hr | hr)
        · exact absurd ⟨hr.1, hr.2.1⟩ h1
        · exact absurd hr.2.2.1 hd
    · have hnot := h.not_clean_of_first hP hP' hA hB hs h1 h2
      refine ⟨fun hr => absurd hr hnot, ?_⟩
      rintro (hr | hr)
      · exact absurd ⟨hr.1, hr.2.1⟩ h1
      · exact absurd ⟨hr.1, hr.2.1⟩ h2

end

end LinuxAppSamp.Transfer
