import LinuxAppSamp.Foundations.Decimal
import LinuxAppSamp.Messages.Reply

/-! # The interface listing: `network_03getIpAddr.c`

`main` goes through the list of `getifaddrs` and prints a line for each entry, from three buffers
that it uses again. `itr_spec` says what one entry does to them, and `listing_iff` which lists are
shown in full: the pointers that an entry may leave null are followed without a look.
-/

namespace LinuxAppSamp.Network
open Memory Messages Decimal
set_option autoImplicit false
set_option maxHeartbeats 250000

/-! ## The list of `getifaddrs` -/

structure SinAddr where
  b1 : UInt8
  b2 : UInt8
  b3 : UInt8
  b4 : UInt8
  deriving DecidableEq, Repr

/-- A `struct sockaddr`; `sinAddr` is what stands where `struct sockaddr_in` has `sin_addr`. -/
structure SockAddr where
  saFamily : UInt16
  sinAddr : SinAddr
  deriving DecidableEq, Repr

/-- A `struct ifaddrs`; a null pointer is `none`, and `ifa_next` is the rest of the list. -/
structure IfAddrs where
  ifaName : List UInt8
  ifaAddr : Option SockAddr
  ifaNetmask : Option SockAddr
  deriving DecidableEq, Repr

def afInet : UInt16 := 2

def afInet6 : UInt16 := 10

def afPacket : UInt16 := 17

/-! ## The program -/

/-- Only an address is computed: a null pointer is not followed here. -/
def toSinAddr (p : Option SockAddr) : Option SinAddr := p.map SockAddr.sinAddr

/-- `192.168.0.1` -/
def dotted (a : SinAddr) : List UInt8 :=
  bytes (decimal a.b1.toNat ++ '.' :: (decimal a.b2.toNat ++ '.' :: (decimal a.b3.toNat ++
    '.' :: decimal a.b4.toNat)))

/-- `inet_ntop(AF_INET, src, dst, sizeof(dst))`; a `dst` without room is left as it is. -/
def inetNtop {n : ℕ} (src : Option SinAddr) (dst : Buffer n) : Except Fault (Buffer n) :=
  match src with
  | none => .error .outOfBounds
  | some a => if n ≤ (dotted a).length then .ok dst else dst.strcpy (dotted a)

/-- The arrays of `main`. -/
structure Locals where
  caddr : Buffer 256
  cnetmask : Buffer 256
  cfamily : Buffer 100
  deriving DecidableEq, Repr

/-- What the three `printf` of one pass show. -/
structure Line where
  name : List UInt8
  cfamily : List UInt8
  caddr : List UInt8
  cnetmask : List UInt8
  deriving DecidableEq, Repr

def Line.text (l : Line) : List UInt8 :=
  l.name ++ bytes [':', ' ', '\t'] ++ l.cfamily ++ bytes ['\t'] ++ l.caddr ++ bytes ['\t'] ++
    l.cnetmask ++ [lf]

def familyName (saFamily : UInt16) : List UInt8 :=
  if saFamily = afInet then bytes ['I', 'P', 'v', '4']
  else if saFamily = afInet6 then bytes ['I', 'P', 'v', '6']
  else if saFamily = afPacket then bytes ['A', 'F', '_', 'P', 'A', 'C', 'K', 'E', 'T']
  else bytes ['o', 't', 'h', 'e', 'r']

/-- The two calls for `AF_INET`. -/
def convert (s : Locals) (pitr : IfAddrs) : Except Fault Locals := do
  let caddr ← inetNtop (toSinAddr pitr.ifaAddr) s.caddr
  let cnetmask ← inetNtop (toSinAddr pitr.ifaNetmask) s.cnetmask
  .ok ⟨caddr, cnetmask, s.cfamily⟩

/-- The `switch`, which reads the family through `ifa_addr`. -/
def switchFamily (s : Locals) (pitr : IfAddrs) : Except Fault Locals :=
  match pitr.ifaAddr with
  | none => .error .outOfBounds
  | some sa => do
    let cfamily ← s.cfamily.strcpy (familyName sa.saFamily)
    if sa.saFamily = afInet then convert ⟨s.caddr, s.cnetmask, cfamily⟩ pitr
    else .ok ⟨s.caddr, s.cnetmask, cfamily⟩

def printLine (s : Locals) (pitr : IfAddrs) : Except Fault Line := do
  let cfamily ← s.cfamily.str
  let caddr ← s.caddr.str
  let cnetmask ← s.cnetmask.str
  .ok ⟨pitr.ifaName, cfamily, caddr, cnetmask⟩

/-- One pass of the loop, `pitr` at the entry. -/
def itr (s : Locals) (pitr : IfAddrs) : Except Fault (Locals × Line) := do
  let s ← switchFamily ⟨Buffer.zero 256, Buffer.zero 256, s.cfamily⟩ pitr
  let line ← printLine s pitr
  .ok (s, line)

def traverse : Locals → List IfAddrs → Except Fault (List Line)
  | _, [] => .ok []
  | s, pitr :: next => do
    let (s, line) ← itr s pitr
    let lines ← traverse s next
    .ok (line :: lines)

/-- What `main` prints; none is a failed `getifaddrs`. -/
def main (s : Locals) (phead : Option (List IfAddrs)) : Except Fault (List UInt8) :=
  match phead with
  | none => .ok []
  | some phead => do
    let lines ← traverse s phead
    .ok (lines.flatMap Line.text)

/-! ## One entry -/

def IsInet (e : IfAddrs) : Prop := ∃ sa, e.ifaAddr = some sa ∧ sa.saFamily = afInet

/-- The line of an entry: its name, its own address and netmask where its family is `AF_INET`, and
neither where it is not. -/
structure Shows (e : IfAddrs) (l : Line) : Prop where
  name : l.name = e.ifaName
  family : ∀ sa, e.ifaAddr = some sa → l.cfamily = familyName sa.saFamily
  caddr : ∀ sa, e.ifaAddr = some sa → sa.saFamily = afInet → l.caddr = dotted sa.sinAddr
  cnetmask : ∀ sa, e.ifaNetmask = some sa → IsInet e → l.cnetmask = dotted sa.sinAddr
  shown : IsInet e → l.caddr ≠ [] ∧ l.cnetmask ≠ []
  blank : ¬ IsInet e → l.caddr = [] ∧ l.cnetmask = []

/-- No pointer that the pass follows is null. -/
def Complete (e : IfAddrs) : Prop :=
  ∃ sa, e.ifaAddr = some sa ∧ (sa.saFamily = afInet → e.ifaNetmask ≠ none)

/-! ## The texts -/

theorem familyName_fits (saFamily : UInt16) :
    0 ∉ familyName saFamily ∧ (familyName saFamily).length < 100 := by
  unfold familyName
  split
  · decide
  · split
    · decide
    · split <;> decide

theorem length_decimal_byte (b : UInt8) : (decimal b.toNat).length ≤ 3 := by
  have hb := b.toNat_lt
  rw [decimal_natCast]
  exact length_toDigits_le b.toNat 3 (by decide) (by omega)

theorem length_dotted (a : SinAddr) : (dotted a).length ≤ 15 := by
  have h1 := length_decimal_byte a.b1
  have h2 := length_decimal_byte a.b2
  have h3 := length_decimal_byte a.b3
  have h4 := length_decimal_byte a.b4
  simp only [dotted, length_bytes, List.length_append, List.length_cons]
  omega

theorem dotted_nulFree (a : SinAddr) : 0 ∉ dotted a := by
  have hnumber : ∀ z : ℤ, ∀ c ∈ decimal z, 45 ≤ c.toNat ∧ c.toNat ≤ 57 := by
    intro z c hc
    have hcode := toNat_decimal z c hc
    omega
  have hjoin : ∀ (z : ℤ) (t : List Char), (∀ c ∈ t, 45 ≤ c.toNat ∧ c.toNat ≤ 57) →
      ∀ c ∈ decimal z ++ '.' :: t, 45 ≤ c.toNat ∧ c.toNat ≤ 57 := by
    intro z t ht c hc
    obtain hc | hc := List.mem_append.mp hc
    · exact hnumber z c hc
    · obtain rfl | hc := List.mem_cons.mp hc
      · decide
      · exact ht c hc
  apply notMem_bytes
  intro c hc
  have hcode := hjoin _ _ (hjoin _ _ (hjoin _ _ (hnumber _))) c hc
  show c.toNat < 256 ∧ c.toNat ≠ 0
  omega

theorem dotted_ne_nil (a : SinAddr) : dotted a ≠ [] := by
  intro hnil
  have happ := List.map_eq_nil_iff.mp hnil
  exact absurd (List.append_eq_nil_iff.mp happ).2 (List.cons_ne_nil _ _)

theorem inetNtop_ok (a : SinAddr) (dst : Buffer 256) :
    ∃ c, inetNtop (some a) dst = .ok c ∧ c.str = .ok (dotted a) := by
  have hlen := length_dotted a
  obtain ⟨c, hc, htext, hnul⟩ := dst.strcpy_ok (dotted a) (dotted_nulFree a) (by omega)
  refine ⟨c, ?_, by rw [c.str_ok hnul, htext]⟩
  exact (if_neg (by omega)).trans hc

/-! ## One pass -/

theorem printLine_eq {s : Locals} {e : IfAddrs} {l : Line} (hname : l.name = e.ifaName)
    (hfamily : s.cfamily.str = .ok l.cfamily) (haddr : s.caddr.str = .ok l.caddr)
    (hnetmask : s.cnetmask.str = .ok l.cnetmask) : printLine s e = .ok l := by
  rw [printLine, hfamily, ok_bind, haddr, ok_bind, hnetmask, ok_bind, ← hname]

theorem convert_spec (s : Locals) (e : IfAddrs) (sa mask : SockAddr) (hsa : e.ifaAddr = some sa)
    (hmask : e.ifaNetmask = some mask) :
    ∃ t, convert s e = .ok t ∧ t.cfamily = s.cfamily ∧ t.caddr.str = .ok (dotted sa.sinAddr) ∧
      t.cnetmask.str = .ok (dotted mask.sinAddr) := by
  obtain ⟨caddr, hc, haddr⟩ := inetNtop_ok sa.sinAddr s.caddr
  obtain ⟨cnetmask, hn, hnetmask⟩ := inetNtop_ok mask.sinAddr s.cnetmask
  refine ⟨⟨caddr, cnetmask, s.cfamily⟩, ?_, rfl, haddr, hnetmask⟩
  rw [convert, hsa, hmask]
  show (inetNtop (some sa.sinAddr) s.caddr >>= _) = _
  rw [hc, ok_bind]
  show (inetNtop (some mask.sinAddr) s.cnetmask >>= _) = _
  rw [hn, ok_bind]

theorem switchFamily_some (s : Locals) (e : IfAddrs) (sa : SockAddr) (hsa : e.ifaAddr = some sa) :
    ∃ cfamily, cfamily.str = .ok (familyName sa.saFamily) ∧
      switchFamily s e = if sa.saFamily = afInet then convert ⟨s.caddr, s.cnetmask, cfamily⟩ e
        else .ok ⟨s.caddr, s.cnetmask, cfamily⟩ := by
  obtain ⟨hnul, hlen⟩ := familyName_fits sa.saFamily
  obtain ⟨cfamily, hfamily, hname, hzero⟩ := s.cfamily.strcpy_ok _ hnul hlen
  refine ⟨cfamily, by rw [cfamily.str_ok hzero, hname], ?_⟩
  rw [switchFamily, hsa]
  show (s.cfamily.strcpy (familyName sa.saFamily) >>= _) = _
  rw [hfamily, ok_bind]

theorem isInet_iff {e : IfAddrs} {sa : SockAddr} (hsa : e.ifaAddr = some sa) :
    IsInet e ↔ sa.saFamily = afInet := by
  constructor
  · rintro ⟨sa', hsa', hinet⟩
    rw [Option.some.inj (hsa.symm.trans hsa')]
    exact hinet
  · exact fun hinet => ⟨sa, hsa, hinet⟩

theorem shows_inet {e : IfAddrs} {sa mask : SockAddr} (hsa : e.ifaAddr = some sa)
    (hmask : e.ifaNetmask = some mask) (hinet : sa.saFamily = afInet) :
    Shows e ⟨e.ifaName, familyName sa.saFamily, dotted sa.sinAddr, dotted mask.sinAddr⟩ where
  name := rfl
  family sa' hsa' := by rw [Option.some.inj (hsa'.symm.trans hsa)]
  caddr sa' hsa' _ := by rw [Option.some.inj (hsa'.symm.trans hsa)]
  cnetmask mask' hmask' _ := by rw [Option.some.inj (hmask'.symm.trans hmask)]
  shown _ := ⟨dotted_ne_nil _, dotted_ne_nil _⟩
  blank hne := absurd ((isInet_iff hsa).mpr hinet) hne

theorem shows_other {e : IfAddrs} {sa : SockAddr} (hsa : e.ifaAddr = some sa)
    (hother : sa.saFamily ≠ afInet) : Shows e ⟨e.ifaName, familyName sa.saFamily, [], []⟩ where
  name := rfl
  family sa' hsa' := by rw [Option.some.inj (hsa'.symm.trans hsa)]
  caddr sa' hsa' hinet := absurd ((isInet_iff hsa).mp ⟨sa', hsa', hinet⟩) hother
  cnetmask _ _ hinet := absurd ((isInet_iff hsa).mp hinet) hother
  shown hinet := absurd ((isInet_iff hsa).mp hinet) hother
  blank _ := ⟨rfl, rfl⟩

/-- An entry without a null pointer gives its line, whatever the buffers held. -/
theorem itr_spec (s : Locals) (e : IfAddrs) (h : Complete e) :
    ∃ t l, itr s e = .ok (t, l) ∧ Shows e l := by
  obtain ⟨sa, hsa, hmask⟩ := h
  obtain ⟨cfamily, hfamily, hswitch⟩ :=
    switchFamily_some ⟨Buffer.zero 256, Buffer.zero 256, s.cfamily⟩ e sa hsa
  rw [itr, hswitch]
  by_cases hinet : sa.saFamily = afInet
  · obtain ⟨mask, hm⟩ := Option.ne_none_iff_exists'.mp (hmask hinet)
    obtain ⟨t, ht, hsame, haddr, hnetmask⟩ :=
      convert_spec ⟨Buffer.zero 256, Buffer.zero 256, cfamily⟩ e sa mask hsa hm
    have hline := shows_inet hsa hm hinet
    have hprint : printLine t e = .ok _ :=
      printLine_eq hline.name (by rw [hsame]; exact hfamily) haddr hnetmask
    rw [if_pos hinet, ht, ok_bind, hprint, ok_bind]
    exact ⟨t, _, rfl, hline⟩
  · have hblank : (Buffer.zero 256).str = .ok [] := Buffer.str_zero (by decide)
    have hline := shows_other hsa hinet
    have hprint : printLine ⟨Buffer.zero 256, Buffer.zero 256, cfamily⟩ e = .ok _ :=
      printLine_eq hline.name hfamily hblank hblank
    rw [if_neg hinet, ok_bind, hprint, ok_bind]
    exact ⟨_, _, rfl, hline⟩

/-- A pass that comes through has met no null pointer. -/
theorem complete_of_itr {s : Locals} {e : IfAddrs} {r : Locals × Line} (h : itr s e = .ok r) :
    Complete e := by
  obtain ⟨t, ht, -⟩ := bind_eq_ok h
  cases hsa : e.ifaAddr with
  | none =>
    rw [switchFamily, hsa] at ht
    cases ht
  | some sa =>
    refine ⟨sa, hsa, fun hinet hnone => ?_⟩
    obtain ⟨cfamily, -, hswitch⟩ :=
      switchFamily_some ⟨Buffer.zero 256, Buffer.zero 256, s.cfamily⟩ e sa hsa
    rw [hswitch, if_pos hinet, convert, hnone] at ht
    obtain ⟨caddr, -, ht⟩ := bind_eq_ok ht
    cases ht

/-! ## All entries -/

theorem main_eq {s : Locals} {phead : List IfAddrs} {lines : List Line}
    (h : traverse s phead = .ok lines) : main s (some phead) = .ok (lines.flatMap Line.text) := by
  show (traverse s phead >>= _) = _
  rw [h, ok_bind]

theorem traverse_of_complete {s : Locals} {phead : List IfAddrs} (h : ∀ e ∈ phead, Complete e) :
    ∃ lines, traverse s phead = .ok lines ∧ List.Forall₂ Shows phead lines := by
  induction phead generalizing s with
  | nil => exact ⟨[], rfl, .nil⟩
  | cons e next ih =>
    obtain ⟨hcomplete, hnext⟩ := List.forall_mem_cons.mp h
    obtain ⟨t, l, hitr, hline⟩ := itr_spec s e hcomplete
    obtain ⟨rest, hrest, htail⟩ := ih (s := t) hnext
    refine ⟨l :: rest, ?_, List.Forall₂.cons hline htail⟩
    rw [traverse, hitr, ok_bind]
    show (traverse t next >>= _) = _
    rw [hrest, ok_bind]

theorem complete_of_traverse {s : Locals} {phead : List IfAddrs} {lines : List Line}
    (h : traverse s phead = .ok lines) : ∀ e ∈ phead, Complete e := by
  induction phead generalizing s lines with
  | nil => exact fun e he => absurd he List.not_mem_nil
  | cons e next ih =>
    rw [traverse] at h
    obtain ⟨⟨t, l⟩, hitr, h⟩ := bind_eq_ok h
    obtain ⟨rest, hrest, -⟩ := bind_eq_ok h
    exact List.forall_mem_cons.mpr ⟨complete_of_itr hitr, ih hrest⟩

/-- The traversal follows no null pointer and gives the line of each entry, in order; `main` prints
the texts of these lines. -/
structure Lists (s : Locals) (phead : List IfAddrs) (lines : List Line) : Prop where
  traversed : traverse s phead = .ok lines
  shows : List.Forall₂ Shows phead lines
  printed : main s (some phead) = .ok (lines.flatMap Line.text)

/-- **The listing is complete exactly when every entry has an address, and every entry of family
`AF_INET` a netmask.** -/
theorem listing_iff (s : Locals) (phead : List IfAddrs) :
    (∃ lines, Lists s phead lines) ↔ ∀ e ∈ phead, Complete e := by
  constructor
  · rintro ⟨lines, hlists⟩
    exact complete_of_traverse hlists.traversed
  · intro h
    obtain ⟨lines, hlines, hshows⟩ := traverse_of_complete (s := s) h
    exact ⟨lines, hlines, hshows, main_eq hlines⟩

/-- A tunnel without an address. -/
def tun : IfAddrs := ⟨bytes ['t', 'u', 'n', '0'], none, none⟩

/-- The family of a tunnel is read through its null pointer. -/
theorem listing_null :
    ¬ ∀ (s : Locals) (phead : List IfAddrs), ∃ lines, Lists s phead lines := by
  intro h
  obtain ⟨lines, hlists⟩ := h ⟨Buffer.zero 256, Buffer.zero 256, Buffer.zero 100⟩ [tun]
  cases hlists.traversed

end LinuxAppSamp.Network
