import LinuxAppSamp.Foundations.Decimal
import LinuxAppSamp.Foundations.Signed
import LinuxAppSamp.Messages.Reply
import LinuxAppSamp.Switch.Debounce

/-! # File names of the pins: the `gpio_*` functions

Six programs hold the same copies of these functions. `gpio_export` writes the number of a pin with
`%d`, and the kernel makes the directory of the pin; the other functions open a file whose name has
the number with `%2d`. `run_path` says which file that is, `names_distinct` that two pins never
share one, and `names_agree_iff` for which pins it is a file of the kernel's directory.
-/

namespace LinuxAppSamp.Gpio
open Memory Messages Decimal Signed
set_option autoImplicit false
set_option maxHeartbeats 250000

/-! ## The functions -/

def maxBuf : ℕ := 100

def sysfsGpioDir : List UInt8 :=
  bytes ['/', 's', 'y', 's', '/', 'c', 'l', 'a', 's', 's', '/', 'g', 'p', 'i', 'o']

inductive EnumDir
  | dirIn
  | dirOut
  deriving DecidableEq, Repr

inductive EnumEdge
  | edgeRising
  | edgeFalling
  deriving DecidableEq, Repr

/-- The files of a pin. -/
inductive Attribute
  | direction
  | edge
  | value
  deriving DecidableEq, Repr

def Attribute.text : Attribute → List Char
  | .direction => ['d', 'i', 'r', 'e', 'c', 't', 'i', 'o', 'n']
  | .edge => ['e', 'd', 'g', 'e']
  | .value => ['v', 'a', 'l', 'u', 'e']

/-- What a call does: the file it opens, the bytes it writes there, what it prints and returns. -/
structure Access where
  path : List UInt8
  written : List UInt8
  printed : List UInt8
  ret : ℤ
  deriving DecidableEq, Repr

def gpioPrefix : List UInt8 := sysfsGpioDir ++ bytes ['/', 'g', 'p', 'i', 'o']

/-- `SYSFS_GPIO_DIR "/gpio%2d/attr"` -/
def attributeName (attr : Attribute) (gpio : ℤ) : List UInt8 :=
  gpioPrefix ++ bytes (blankPadded 2 gpio) ++ bytes ('/' :: attr.text)

/-- The name is formatted in `buf`, which goes to `open`. -/
def formatName (attr : Attribute) (gpio : ℤ) (buf : Buffer maxBuf) :
    Except Fault (List UInt8 × Buffer maxBuf) := do
  let (buf, _len) ← buf.snprintf (attributeName attr gpio)
  let path ← buf.str
  .ok (path, buf)

/-- `fd` is what `open` returns. -/
def gpioExport (gpio fd : ℤ) (buf : Buffer maxBuf) : Except Fault Access :=
  let path := sysfsGpioDir ++ bytes ['/', 'e', 'x', 'p', 'o', 'r', 't']
  if fd < 0 then .ok ⟨path, [], [], fd⟩
  else do
    let (buf, len) ← buf.snprintf (bytes (decimal gpio))
    let written ← buf.front len
    .ok ⟨path, written, bytes ['s', 'e', 't', 't', 'i', 'n', 'g', ' ', 'e', 'x', 'p', 'o', 'r', 't',
      ' ', '.', '.', '.'] ++ [lf], 0⟩

/-- `gpio_set_direction` and `gpio_set_edge`: one word is written to an attribute of the pin. -/
def setAttribute (attr : Attribute) (printed : List Char) (word : List Char) (gpio fd : ℤ)
    (buf : Buffer maxBuf) : Except Fault Access := do
  let (path, buf) ← formatName attr gpio buf
  if fd < 0 then .ok ⟨path, [], [], fd⟩
  else do
    let buf ← buf.strcpy (bytes word)
    let written ← buf.str
    .ok ⟨path, written, bytes printed ++ [lf], 0⟩

def gpioSetDirection (gpio : ℤ) (enumDir : EnumDir) : ℤ → Buffer maxBuf → Except Fault Access :=
  setAttribute .direction
    ['s', 'e', 't', 't', 'i', 'n', 'g', ' ', 'd', 'i', 'r', 'e', 'c', 't', 'i', 'o', 'n', ' ',
      '.', '.', '.']
    (if enumDir = .dirOut then ['o', 'u', 't'] else ['i', 'n']) gpio

def gpioSetEdge (gpio : ℤ) (enumEdge : EnumEdge) : ℤ → Buffer maxBuf → Except Fault Access :=
  setAttribute .edge
    ['s', 'e', 't', 't', 'i', 'n', 'g', ' ', 'e', 'd', 'g', 'e', ' ', '.', '.', '.']
    (if enumEdge = .edgeRising then ['r', 'i', 's', 'i', 'n', 'g']
      else ['f', 'a', 'l', 'l', 'i', 'n', 'g']) gpio

def gpioSetValue (gpio hi fd : ℤ) (buf : Buffer maxBuf) : Except Fault Access := do
  let (path, buf) ← formatName .value gpio buf
  if fd < 0 then .ok ⟨path, [], [], fd⟩
  else do
    let (buf, len) ← buf.snprintf (bytes (decimal hi))
    let written ← buf.front len
    .ok ⟨path, written, [], 0⟩

/-- `r` is what opening and reading the file gives. -/
def gpioGetValue (gpio : ℤ) (r : Switch.GpioRead) (buf : Buffer maxBuf) : Except Fault Access := do
  let (path, _) ← formatName .value gpio buf
  match r with
  | .openFails fd _ => .ok ⟨path, [], [], fd⟩
  | .code code => .ok ⟨path, [], [], if code = 49 then 1 else 0⟩

/-- The copies of `gpio_get_value` that return a `bool`. -/
def gpioGetHiLow (gpio : ℤ) (r : Switch.GpioRead) (buf : Buffer maxBuf) : Except Fault Access := do
  let (path, _) ← formatName .value gpio buf
  .ok ⟨path, [], [], if Switch.gpioGetHiLow r then 1 else 0⟩

/-! ## Pins and calls -/

/-- A pin, as the functions take it: an `int` that is not negative. -/
structure Pin where
  number : ℕ
  fits : number < 2147483648
  deriving DecidableEq, Repr

/-- A call of one of the functions that work on an exported pin. -/
inductive Call
  | setDirection (enumDir : EnumDir) (fd : ℤ)
  | setEdge (enumEdge : EnumEdge) (fd : ℤ)
  | setValue (hi : ℤ) (fits : InRange .w32 hi) (fd : ℤ)
  | getValue (r : Switch.GpioRead)
  | getHiLow (r : Switch.GpioRead)
  deriving DecidableEq, Repr

def Call.run (p : Pin) : Call → Buffer maxBuf → Except Fault Access
  | .setDirection enumDir fd => gpioSetDirection p.number enumDir fd
  | .setEdge enumEdge fd => gpioSetEdge p.number enumEdge fd
  | .setValue hi _ fd => gpioSetValue p.number hi fd
  | .getValue r => gpioGetValue p.number r
  | .getHiLow r => gpioGetHiLow p.number r

def Call.attr : Call → Attribute
  | .setDirection _ _ => .direction
  | .setEdge _ _ => .edge
  | .setValue _ _ _ | .getValue _ | .getHiLow _ => .value

/-- What the kernel does with a text written to `export`: the directory of the pin is named with
the plain number. -/
structure Kernel where
  created : List UInt8 → List UInt8
  plain : ∀ n : ℕ, created (bytes (decimal n)) = gpioPrefix ++ bytes (decimal n)

/-- `path` is a file of the directory `dir`. -/
def Within (dir path : List UInt8) : Prop := ∃ name, 47 ∉ name ∧ path = dir ++ 47 :: name

/-- The names of the pin `p`, against the directory of its export and the names of every other. -/
structure NamesAgree (kernel : Kernel) (p : Pin) : Prop where
  inside : ∀ (call : Call) (buf buf' : Buffer maxBuf) (fd : ℤ), 0 ≤ fd →
    ∃ a e, call.run p buf = .ok a ∧ gpioExport p.number fd buf' = .ok e ∧
      Within (kernel.created e.written) a.path
  distinct : ∀ (q : Pin) (call call' : Call) (buf buf' : Buffer maxBuf) (a b : Access), q ≠ p →
    call.run p buf = .ok a → call'.run q buf' = .ok b → a.path ≠ b.path
  fits : ∀ attr : Attribute, (attributeName attr p.number).length < maxBuf

/-! ## The texts -/

theorem Attribute.letter (attr : Attribute) : ∀ c ∈ attr.text, 97 ≤ c.toNat ∧ c.toNat ≤ 122 := by
  cases attr <;> simp [Attribute.text]

/-- Neither a NUL nor a `/` stands in a number. -/
theorem notMem_number (b : UInt8) (hb : b.toNat = 0 ∨ b.toNat = 47) (width : ℕ) (z : ℤ) :
    b ∉ bytes (blankPadded width z) := by
  apply notMem_bytes
  intro c hc
  have hcode := toNat_blankPadded width z c hc
  omega

theorem notMem_attribute (b : UInt8) (hb : b.toNat = 0 ∨ b.toNat = 47) (attr : Attribute) :
    b ∉ bytes attr.text := by
  apply notMem_bytes
  intro c hc
  have hcode := attr.letter c hc
  omega

theorem attributeName_eq (attr : Attribute) (gpio : ℤ) :
    attributeName attr gpio =
      gpioPrefix ++ (bytes (blankPadded 2 gpio) ++ 47 :: bytes attr.text) :=
  List.append_assoc _ _ _

theorem attributeName_nulFree (attr : Attribute) (gpio : ℤ) : 0 ∉ attributeName attr gpio := by
  rw [attributeName_eq, List.mem_append, List.mem_append, List.mem_cons]
  rintro (h | h | h | h)
  · exact absurd h (by decide)
  · exact notMem_number 0 (Or.inl rfl) 2 gpio h
  · exact absurd h (by decide)
  · exact notMem_attribute 0 (Or.inl rfl) attr h

/-- The longest name is that of the direction of a pin with ten digits. -/
theorem length_attributeName (attr : Attribute) (p : Pin) :
    (attributeName attr p.number).length ≤ 40 := by
  have hattr : attr.text.length ≤ 9 := by cases attr <;> decide
  have hnumber : (decimal p.number).length ≤ 10 := by
    have hfits := p.fits
    rw [decimal_natCast]
    exact length_toDigits_le p.number 10 (by decide) (by omega)
  have hprefix : gpioPrefix.length = 20 := rfl
  rw [attributeName_eq, List.length_append, List.length_append, List.length_cons, length_bytes,
    length_bytes, length_blankPadded, hprefix]
  omega

/-! ## The files -/

theorem formatName_ok (attr : Attribute) (p : Pin) (buf : Buffer maxBuf) :
    ∃ c, formatName attr p.number buf = .ok (attributeName attr p.number, c) := by
  have hlen := length_attributeName attr p
  have hmax : maxBuf = 100 := rfl
  obtain ⟨c, hc, hstr, -⟩ := buf.snprintf_ok _ (attributeName_nulFree attr p.number) (by omega)
  refine ⟨c, ?_⟩
  rw [formatName, hc, ok_bind]
  show (c.str >>= _) = _
  rw [hstr, ok_bind]

/-- A number goes through the buffer to the file. -/
theorem write_number (z : ℤ) (hz : z.natAbs < 10 ^ 10) (buf : Buffer maxBuf) :
    ∃ c len, buf.snprintf (bytes (decimal z)) = .ok (c, len) ∧
      c.front len = .ok (bytes (decimal z)) := by
  have hlen := length_decimal_le z 10 (by decide) hz
  have hfit : (bytes (decimal z)).length < maxBuf := by
    rw [length_bytes]
    show _ < 100
    omega
  have hnul : 0 ∉ bytes (decimal z) := by
    rw [← (blankPadded_eq_iff 0 z).mpr (Nat.zero_le _)]
    exact notMem_number 0 (Or.inl rfl) 0 z
  obtain ⟨c, hc, -, hfront⟩ := buf.snprintf_ok _ hnul hfit
  exact ⟨c, _, hc, hfront⟩

theorem setAttribute_path (attr : Attribute) (p : Pin) (printed word : List Char) (fd : ℤ)
    (buf : Buffer maxBuf) (hword : 0 ∉ bytes word) (hlen : (bytes word).length < maxBuf) :
    ∃ a, setAttribute attr printed word p.number fd buf = .ok a ∧
      a.path = attributeName attr p.number := by
  obtain ⟨c, hc⟩ := formatName_ok attr p buf
  rw [setAttribute, hc, ok_bind]
  by_cases hfd : fd < 0
  · exact ⟨_, if_pos hfd, rfl⟩
  · obtain ⟨d, hd, -, hnul⟩ := c.strcpy_ok (bytes word) hword hlen
    show ∃ a, (if fd < 0 then _ else _) = _ ∧ _
    rw [if_neg hfd, hd, ok_bind, d.str_ok hnul, ok_bind]
    exact ⟨_, rfl, rfl⟩

theorem gpioSetValue_path (p : Pin) (hi fd : ℤ) (fits : InRange .w32 hi) (buf : Buffer maxBuf) :
    ∃ a, gpioSetValue p.number hi fd buf = .ok a ∧ a.path = attributeName .value p.number := by
  obtain ⟨c, hc⟩ := formatName_ok .value p buf
  rw [gpioSetValue, hc, ok_bind]
  by_cases hfd : fd < 0
  · exact ⟨_, if_pos hfd, rfl⟩
  · have hhi : hi.natAbs < 10 ^ 10 := by
      obtain ⟨hl, hu⟩ := fits
      simp only [Width.limit] at hl hu
      omega
    obtain ⟨d, len, hd, hfront⟩ := write_number hi hhi c
    show ∃ a, (if fd < 0 then _ else _) = _ ∧ _
    rw [if_neg hfd, hd, ok_bind]
    show ∃ a, (d.front len >>= _) = _ ∧ _
    rw [hfront, ok_bind]
    exact ⟨_, rfl, rfl⟩

/-- Every call stays inside its buffer and opens the attribute of its pin. -/
theorem run_path (call : Call) (p : Pin) (buf : Buffer maxBuf) :
    ∃ a, call.run p buf = .ok a ∧ a.path = attributeName call.attr p.number := by
  cases call with
  | setDirection enumDir fd =>
    apply setAttribute_path .direction p
    · cases enumDir <;> decide
    · cases enumDir <;> decide
  | setEdge enumEdge fd =>
    apply setAttribute_path .edge p
    · cases enumEdge <;> decide
    · cases enumEdge <;> decide
  | setValue hi fits fd => exact gpioSetValue_path p hi fd fits buf
  | getValue r =>
    obtain ⟨c, hc⟩ := formatName_ok .value p buf
    show ∃ a, gpioGetValue p.number r buf = .ok a ∧ _
    rw [gpioGetValue, hc, ok_bind]
    cases r with
    | openFails fd hfd => exact ⟨_, rfl, rfl⟩
    | code code => exact ⟨_, rfl, rfl⟩
  | getHiLow r =>
    obtain ⟨c, hc⟩ := formatName_ok .value p buf
    show ∃ a, gpioGetHiLow p.number r buf = .ok a ∧ _
    rw [gpioGetHiLow, hc, ok_bind]
    exact ⟨_, rfl, rfl⟩

theorem gpioExport_written (p : Pin) (fd : ℤ) (hfd : 0 ≤ fd) (buf : Buffer maxBuf) :
    ∃ e, gpioExport p.number fd buf = .ok e ∧ e.written = bytes (decimal p.number) := by
  have hfits := p.fits
  obtain ⟨c, len, hc, hfront⟩ := write_number p.number (by omega) buf
  show ∃ e, (if fd < 0 then _ else _) = _ ∧ _
  rw [if_neg (Int.not_lt.mpr hfd), hc, ok_bind]
  show ∃ e, (c.front len >>= _) = _ ∧ _
  rw [hfront, ok_bind]
  exact ⟨_, rfl, rfl⟩

/-! ## Agreement -/

/-- Two pins never share a file. -/
theorem names_distinct (attr attr' : Attribute) (p q : Pin)
    (h : attributeName attr p.number = attributeName attr' q.number) : p = q := by
  have hcode : ∀ n : ℕ, ∀ c ∈ blankPadded 2 (n : ℤ), c.toNat < 256 := by
    intro n c hc
    have hcode := toNat_blankPadded 2 n c hc
    omega
  rw [attributeName_eq, attributeName_eq] at h
  have hrest := List.append_cancel_left h
  have hnumber := ((List.append_cons_inj_of_notMem (notMem_number 47 (Or.inr rfl) 2 p.number)
    (notMem_attribute 47 (Or.inr rfl) attr)).mp hrest).1
  have hpq := blankPadded_injective 2 p.number q.number
    (bytes_injective (hcode p.number) (hcode q.number) hnumber)
  cases p
  cases q
  congr

/-- The name lies in the kernel's directory exactly when `%2d` adds no blank. -/
theorem within_iff (kernel : Kernel) (attr : Attribute) (n : ℕ) :
    Within (kernel.created (bytes (decimal n))) (attributeName attr n) ↔ 10 ≤ n := by
  have hwidth : 2 ≤ (decimal n).length ↔ 10 ≤ n := by
    have hone := Nat.length_toDigits_le_iff (b := 10) (k := 1) (n := n) (by decide) (by decide)
    rw [decimal_natCast]
    omega
  rw [kernel.plain, attributeName_eq, ← hwidth, ← blankPadded_eq_iff]
  constructor
  · rintro ⟨name, -, hname⟩
    rw [List.append_assoc] at hname
    have hrest := List.append_cancel_left hname
    have hnumber := ((List.append_cons_inj_of_notMem (notMem_number 47 (Or.inr rfl) 2 n)
      (notMem_attribute 47 (Or.inr rfl) attr)).mp hrest).1
    apply bytes_injective _ _ hnumber
    · intro c hc
      have hcode := toNat_blankPadded 2 n c hc
      omega
    · intro c hc
      have hcode := toNat_decimal n c hc
      omega
  · intro heq
    refine ⟨bytes attr.text, notMem_attribute 47 (Or.inr rfl) attr, ?_⟩
    rw [heq, List.append_assoc]

theorem ten_le_of_agree {kernel : Kernel} {p : Pin} (h : NamesAgree kernel p) : 10 ≤ p.number := by
  obtain ⟨a, e, ha, he, hwithin⟩ :=
    h.inside (.setDirection .dirIn 0) (Buffer.zero maxBuf) (Buffer.zero maxBuf) 0 (by decide)
  obtain ⟨a', ha', hpath⟩ := run_path (.setDirection .dirIn 0) p (Buffer.zero maxBuf)
  obtain ⟨e', he', hwritten⟩ := gpioExport_written p 0 (by decide) (Buffer.zero maxBuf)
  cases ha.symm.trans ha'
  cases he.symm.trans he'
  rw [hwritten, hpath] at hwithin
  exact (within_iff kernel _ p.number).mp hwithin

/-- **The names of a pin agree exactly when its number has two digits or more.** -/
theorem names_agree_iff (kernel : Kernel) (p : Pin) : NamesAgree kernel p ↔ 10 ≤ p.number := by
  refine ⟨ten_le_of_agree, fun h => ⟨?_, ?_, ?_⟩⟩
  · intro call buf buf' fd hfd
    obtain ⟨a, ha, hpath⟩ := run_path call p buf
    obtain ⟨e, he, hwritten⟩ := gpioExport_written p fd hfd buf'
    refine ⟨a, e, ha, he, ?_⟩
    rw [hwritten, hpath]
    exact (within_iff kernel call.attr p.number).mpr h
  · intro q call call' buf buf' a b hne ha hb hsame
    obtain ⟨a', ha', hpath⟩ := run_path call p buf
    obtain ⟨b', hb', hpath'⟩ := run_path call' q buf'
    cases ha.symm.trans ha'
    cases hb.symm.trans hb'
    rw [hpath, hpath'] at hsame
    exact hne (names_distinct call.attr call'.attr p q hsame).symm
  · intro attr
    have hlen := length_attributeName attr p
    have hmax : maxBuf = 100 := rfl
    omega

/-- The directory is the text itself, behind `gpio`. -/
def sysfs : Kernel where
  created text := gpioPrefix ++ text
  plain _ := rfl

theorem names_agree_iff_seventeen : NamesAgree sysfs ⟨17, by decide⟩ :=
  (names_agree_iff sysfs ⟨17, by decide⟩).mpr (by decide)

/-- The files of pin 5 are looked for in `gpio 5`. -/
theorem pin_five_blank : ¬ ∀ (kernel : Kernel) (p : Pin), NamesAgree kernel p := by
  intro h
  have hfive := ten_le_of_agree (h sysfs ⟨5, by decide⟩)
  exact absurd hfive (by decide)

end LinuxAppSamp.Gpio
