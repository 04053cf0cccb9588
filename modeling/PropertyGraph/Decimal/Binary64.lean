/-
Doubles as exact numbers: a sign, a significand below `2 ^ 53` and a power of
two, in lowest form. Every operation computes its exact result as a ratio of
natural numbers and rounds once, to the nearest double, a tie to the even
significand.
-/

namespace PropertyGraph

/-- The significand and the exponent of a finite double in its only form. -/
def Binary64.Normal (significand : Nat) (exponent : Int) : Prop :=
  significand < Nat.pow 2 53 ∧ -1074 ≤ exponent ∧ exponent ≤ 971 ∧
    (Nat.pow 2 52 ≤ significand ∨ exponent = -1074)

instance (m : Nat) (e : Int) : Decidable (Binary64.Normal m e) := by
  unfold Binary64.Normal; infer_instance

/-- A finite double: `significand * 2 ^ exponent` under a sign, so that the two
zeros differ. -/
structure Binary64 where
  negative : Bool
  significand : Nat
  exponent : Int
  normal : Binary64.Normal significand exponent
deriving DecidableEq

namespace Binary64

/-- Zero of either sign. -/
def zero (negative : Bool) : Binary64 := ⟨negative, 0, -1074, by decide⟩

instance : Inhabited Binary64 := ⟨zero false⟩

/-- The double of these parts, if they are in normal form. -/
def ofParts? (negative : Bool) (significand : Nat) (exponent : Int) : Option Binary64 :=
  if h : Normal significand exponent then some ⟨negative, significand, exponent, h⟩ else none

def isZero (x : Binary64) : Bool := x.significand == 0

def neg (x : Binary64) : Binary64 := { x with negative := !x.negative }

/-- `num / den` to the nearest natural number, a tie to the even one. -/
def nearest (num den : Nat) : Nat :=
  let q := num / den
  let r := num % den
  if 2 * r < den then q
  else if den < 2 * r then q + 1
  else if q % 2 == 0 then q else q + 1

/-- `num / den` over `2 ^ e`, again as a ratio. -/
def scaleDown (num den : Nat) (e : Int) : Nat × Nat :=
  if 0 ≤ e then (num, den * Nat.pow 2 e.toNat) else (num * Nat.pow 2 (-e).toNat, den)

/-- The exponent of the leading binary digit of a positive ratio. -/
def magnitude (num den : Nat) : Int :=
  let k : Int := (num.log2 : Int) - den.log2
  let (n, d) := scaleDown num den k
  if d ≤ n then k else k - 1

/-- The double nearest `num / den` (`den` positive), or nothing where that
rounds beyond the largest double. -/
def round? (negative : Bool) (num den : Nat) : Option Binary64 :=
  if num == 0 then some (zero negative)
  else
    let e := max (magnitude num den - 52) (-1074)
    let (n, d) := scaleDown num den e
    let m := nearest n d
    if m == Nat.pow 2 53 then ofParts? negative (Nat.pow 2 52) (e + 1) else ofParts? negative m e

/-- The absolute value as a ratio. -/
def ratio (x : Binary64) : Nat × Nat :=
  if 0 ≤ x.exponent then (x.significand * Nat.pow 2 x.exponent.toNat, 1)
  else (x.significand, Nat.pow 2 (-x.exponent).toNat)

/-- The product, rounded. -/
def mul? (x y : Binary64) : Option Binary64 :=
  let (a, b) := x.ratio
  let (c, d) := y.ratio
  round? (x.negative != y.negative) (a * c) (b * d)

/-- The quotient by a divisor other than zero, rounded. -/
def div? (x y : Binary64) : Option Binary64 :=
  let (a, b) := x.ratio
  let (c, d) := y.ratio
  if c == 0 then none else round? (x.negative != y.negative) (a * d) (b * c)

/-- The double nearest an integer. -/
def ofInt? (i : Int) : Option Binary64 := round? (i < 0) i.natAbs 1

/-- The two denote one number: the zeros are equal, all else is by form. -/
def sameValue (x y : Binary64) : Bool := (x.isZero && y.isZero) || x == y

/-- The natural number a double denotes, if it is whole and not negative;
the negative zero counts as zero. -/
def toNat? (x : Binary64) : Option Nat :=
  if x.negative && !x.isZero then none
  else
    let (num, den) := x.ratio
    if num % den == 0 then some (num / den) else none

end Binary64

end PropertyGraph
