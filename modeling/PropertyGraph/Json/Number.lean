/-
Numbers of JSON: integers from `-2 ^ 63` to `2 ^ 64 - 1`, and doubles. The two
stay apart: `2` and `2.0` are different values with different texts.

A text without fraction and exponent is an integer where it fits; every other one
is a double, read by `scale?`. A double is written with the fewest digits that
read back, positionally where its leading digit stands at `10 ^ -5` to `10 ^ 15`.
-/
import PropertyGraph.Decimal.Shortest

namespace PropertyGraph

/-- A number of JSON. -/
inductive Number where
  | int (value : Int)
  | double (value : Binary64)
deriving DecidableEq

namespace Number

/-- The largest integer, `2 ^ 64 - 1`. -/
def maxInt : Nat := 18446744073709551615

/-! ## Writing -/

/-- The decimal digits of a number. -/
def digitsOf (n : Nat) : List Char := Nat.toDigits 10 n

/-- The leading digit may stand at these powers of ten for a positional text. -/
def positional (leading : Int) : Bool := -5 ≤ leading && leading ≤ 15

/-- The text of `digits * 10 ^ exponent`. -/
def layout (s : Decimal.Scientific) : List Char :=
  let ds := digitsOf s.digits
  let leading : Int := s.exponent + ds.length - 1
  if positional leading then
    if 0 ≤ s.exponent then ds ++ List.replicate s.exponent.toNat '0' ++ ".0".toList
    else if 0 ≤ leading then
      ds.take (leading.toNat + 1) ++ '.' :: ds.drop (leading.toNat + 1)
    else "0.".toList ++ List.replicate (-leading - 1).toNat '0' ++ ds
  else
    let mantissa := match ds with
      | [d] => [d]
      | d :: rest => d :: '.' :: rest
      | [] => []
    mantissa ++ 'e' :: (if leading < 0 then '-' else '+') :: digitsOf leading.natAbs

/-- The text of a number. -/
def text : Number → List Char
  | .int i => (if i < 0 then ['-'] else []) ++ digitsOf i.natAbs
  | .double x => (if x.negative then ['-'] else []) ++ layout (Decimal.shortest x)

/-! ## Reading -/

/-- The value of a decimal digit. -/
def digit (c : Char) : Nat := c.toNat - '0'.toNat

/-- Appends digits to a significand while it stays an integer of JSON; the result
is the significand and the number of digits left over. -/
def gather (significand : Nat) : List Char → Nat × Nat
  | [] => (significand, 0)
  | c :: rest =>
    if significand * 10 + digit c ≤ maxInt then gather (significand * 10 + digit c) rest
    else (significand, rest.length + 1)

/-- The double nearest `10 ^ k`. -/
def powerOfTen? (k : Nat) : Option Binary64 := Binary64.round? false (Nat.pow 10 k) 1

/-- A double times `10 ^ exponent`: one product or one quotient with the double
nearest the power of ten. Below `10 ^ -308` quotients by `10 ^ 308` come first. -/
def scale? (x : Binary64) (exponent : Int) : Nat → Option Binary64
  | 0 => none
  | fuel + 1 =>
    if exponent.natAbs ≤ 308 then do
      let power ← powerOfTen? exponent.natAbs
      if 0 ≤ exponent then x.mul? power else x.div? power
    else if x.isZero then some x
    else if 0 ≤ exponent then none
    else do
      let power ← powerOfTen? 308
      scale? (← x.div? power) (exponent + 308) fuel

/-- The double a significand and a power of ten stand for. A significand has at most
twenty digits and a double no more than 324 places, so that after two divisions by
`10 ^ 308` nothing is left of it and the eight of `scale?` are never used up. -/
def double? (negative : Bool) (significand : Nat) (exponent : Int) : Option Number := do
  let x ← scale? (← Binary64.ofInt? significand) exponent 8
  return .double (if negative then x.neg else x)

/-- The number of these parts: sign, whole digits, digits after the point and
exponent. Digits that do not fit the significand only move the exponent. -/
def ofParts? (negative : Bool) (whole fraction : List Char) (exponent : Option Int) :
    Option Number :=
  let (head, beyond) := gather 0 whole
  if fraction.isEmpty && exponent.isNone && beyond == 0 then
    if !negative then some (.int head)
    else if head == 0 || 9223372036854775808 < head then do
      return .double (← Binary64.ofInt? head).neg
    else some (.int (-head))
  else
    let (significand, unread) := gather head fraction
    let read : Int := (fraction.length : Int) - unread
    double? negative significand (beyond - read + exponent.getD 0)

/-- Splits off the leading decimal digits. -/
def spanDigits (cs : List Char) : List Char × List Char :=
  (cs.takeWhile Char.isDigit, cs.dropWhile Char.isDigit)

/-- Reads the exponent of a number, if one stands here; none where it has no
digits. -/
def exponent? : List Char → Option (Option Int × List Char)
  | c :: rest =>
    if c == 'e' || c == 'E' then
      let (negative, rest) := match rest with
        | '+' :: rest => (false, rest)
        | '-' :: rest => (true, rest)
        | rest => (false, rest)
      let (ds, rest) := spanDigits rest
      if ds.isEmpty then none
      else
        let n : Int := (ds.foldl (fun n c => n * 10 + digit c) 0 : Nat)
        some (some (if negative then -n else n), rest)
    else some (none, c :: rest)
  | [] => some (none, [])

/-- Reads the fraction of a number, if one stands here; none where it has no
digits. -/
def fraction? : List Char → Option (List Char × List Char)
  | '.' :: rest =>
    let (ds, rest) := spanDigits rest
    if ds.isEmpty then none else some (ds, rest)
  | rest => some ([], rest)

/-- Reads a number at the front of the text. Leading zeros are refused. -/
def read? (cs : List Char) : Option (Number × List Char) := do
  let (negative, cs) := match cs with
    | '-' :: rest => (true, rest)
    | cs => (false, cs)
  let (whole, cs) := spanDigits cs
  guard (!whole.isEmpty && (whole.head? != some '0' || whole.length == 1))
  let (fraction, cs) ← fraction? cs
  let (exponent, cs) ← exponent? cs
  return (← ofParts? negative whole fraction exponent, cs)

/-- The number a whole text denotes. -/
def ofText? (cs : List Char) : Option Number :=
  match read? cs with
  | some (n, []) => some n
  | _ => none

/-! ## Comparing -/

/-- The double nearest a number. -/
def toDouble? : Number → Option Binary64
  | .int i => Binary64.ofInt? i
  | .double x => some x

/-- Two integers are equal as integers; a pair with a double in it is equal if
the nearest doubles are. -/
def equal : Number → Number → Bool
  | .int a, .int b => a == b
  | a, b =>
    match a.toDouble?, b.toDouble? with
    | some x, some y => x.sameValue y
    | _, _ => false

/-- A number as a natural number of 64 bits: an integer that is not negative, or
a whole double, the largest where it lies beyond. -/
def toIndex? : Number → Option Nat
  | .int i => if 0 ≤ i then some i.toNat else none
  | .double x => x.toNat?.map (min · maxInt)

end Number

end PropertyGraph
