/-
The shortest decimal that reads back as a given double, and of the decimals of
that length the one nearest the double.

A decimal reads back as `x` if it lies between the midpoints of `x` and its two
neighbours (a midpoint itself counts if the significand of `x` is even). For one
digit, two digits and so on up to seventeen, the two points of that decimal grid
around `x` are tried: if any point of the grid reads back, so does one of those.
-/
import PropertyGraph.Decimal.Binary64

namespace PropertyGraph.Decimal

/-- The decimal `digits * 10 ^ exponent`. -/
structure Scientific where
  digits : Nat
  exponent : Int
deriving DecidableEq, Repr

/-- `n * 10 ^ e` as a ratio. -/
def Scientific.ratio (s : Scientific) : Nat × Nat :=
  if 0 ≤ s.exponent then (s.digits * Nat.pow 10 s.exponent.toNat, 1)
  else (s.digits, Nat.pow 10 (-s.exponent).toNat)

/-- Four times the significand, with the midpoints to the neighbours below and
above: all three over `2 ^ (exponent - 2)`. The neighbour below a power of two is
half as far. -/
def midpoints (x : Binary64) : Nat × Nat × Nat :=
  let m := 4 * x.significand
  let below := if x.significand == Nat.pow 2 52 && x.exponent != -1074 then m - 1 else m - 2
  (below, m, m + 2)

/-- Whether `s` reads back as the positive `x`. -/
def readsBack (x : Binary64) (s : Scientific) : Bool :=
  let (low, _, high) := midpoints x
  let (num, den) := s.ratio
  let (n, d) := Binary64.scaleDown num den (x.exponent - 2)
  if x.significand % 2 == 0 then low * d ≤ n && n ≤ high * d else low * d < n && n < high * d

/-- The power of ten of the leading digit of a positive ratio, found by counting
down from a start that is not too low. -/
def leadingPower (num den : Nat) : Nat → Int → Int
  | 0, k => k
  | fuel + 1, k =>
    let (n, d) := Scientific.ratio ⟨1, k⟩
    if n * den ≤ num * d then k else leadingPower num den fuel (k - 1)

/-- The exponent of the leading decimal digit of a positive double. -/
def decimalExponent (x : Binary64) : Int :=
  let (num, den) := x.ratio
  let start : Int := (Binary64.magnitude num den + 1) * 30103 / 100000 + 1
  leadingPower num den 4 start

/-- The nearer to `x` of the two points of the grid `10 ^ e` around it that read
back, if any does; of two as near the one with the even last digit. -/
def onGrid? (x : Binary64) (e : Int) : Option Scientific :=
  let (num, den) := x.ratio
  let (unitNum, unitDen) := Scientific.ratio ⟨1, e⟩
  let scaled := num * unitDen
  let unit := den * unitNum
  let low := scaled / unit
  let below : Scientific := ⟨low, e⟩
  let above : Scientific := ⟨low + 1, e⟩
  let excess := 2 * (scaled % unit)
  let nearerAbove := unit < excess || (unit == excess && low % 2 == 1)
  match readsBack x below, readsBack x above with
  | true, true => some (if nearerAbove then above else below)
  | true, false => some below
  | false, true => some above
  | false, false => none

/-- The first hit on the grids of `n + 1`, `n + 2`, … digits. -/
def firstHit (x : Binary64) (lead : Int) : Nat → Nat → Scientific
  | 0, n => ⟨x.significand, lead - n⟩
  | fuel + 1, n =>
    match onGrid? x (lead - n) with
    | some s => s
    | none => firstHit x lead fuel (n + 1)

/-- A trailing zero moves into the exponent. -/
def dropZeros : Nat → Scientific → Scientific
  | 0, s => s
  | fuel + 1, s =>
    if s.digits != 0 && s.digits % 10 == 0 then dropZeros fuel ⟨s.digits / 10, s.exponent + 1⟩
    else s

/-- The shortest decimal that reads back as `x`, sign aside. -/
def shortest (x : Binary64) : Scientific :=
  if x.isZero then ⟨0, 0⟩ else dropZeros 17 (firstHit x (decimalExponent x) 17 0)

end PropertyGraph.Decimal
