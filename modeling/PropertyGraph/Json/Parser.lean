/-
Reading JSON text. Spaces may stand around every value, comma and colon; arrays and
objects nest at most 127 deep; of two fields of one name the later one wins.

`value` and its companions take fuel, two for every character and two more: each
value takes a character and at most one call stands between two values, so the
fuel of `parse?` is never used up.
-/
import PropertyGraph.Json.Basic
import PropertyGraph.Text.Hexadecimal

namespace PropertyGraph.Json

/-- How deep arrays and objects may nest in a text. -/
def maxDepth : Nat := 127

/-- White space of JSON. -/
def isSpace (c : Char) : Bool := c == ' ' || c == '\n' || c == '\t' || c == '\r'

/-- The text without the white space in front. -/
def skipSpace (cs : List Char) : List Char := cs.dropWhile isSpace

/-- The code unit of four hexadecimal digits. -/
def codeUnit? (a b c d : Char) : Option Nat := do
  return (← Text.hexValue? a) * 4096 + (← Text.hexValue? b) * 256 + (← Text.hexValue? c) * 16 +
    (← Text.hexValue? d)

/-- The first half of a surrogate pair. -/
def isHighSurrogate (u : Nat) : Bool := 0xD800 ≤ u && u ≤ 0xDBFF

/-- The second half of a surrogate pair. -/
def isLowSurrogate (u : Nat) : Bool := 0xDC00 ≤ u && u ≤ 0xDFFF

/-- The character of an escape of one letter. -/
def unescape? : Char → Option Char
  | '"' => some '"'
  | '\\' => some '\\'
  | '/' => some '/'
  | 'b' => some '\x08'
  | 'f' => some '\x0c'
  | 'n' => some '\n'
  | 'r' => some '\r'
  | 't' => some '\t'
  | _ => none

/-- Puts a character before those a reader found. -/
def prepend (c : Char) : Option (List Char × List Char) → Option (List Char × List Char) :=
  Option.map fun (cs, rest) => (c :: cs, rest)

/-- Reads the rest of a string up to its closing quote. Characters below U+0020 and
halves of surrogate pairs are refused. -/
def string? : List Char → Option (List Char × List Char)
  | [] => none
  | '"' :: rest => some ([], rest)
  | '\\' :: 'u' :: a :: b :: c :: d :: rest => do
    let u ← codeUnit? a b c d
    if isHighSurrogate u then
      match rest with
      | '\\' :: 'u' :: e :: f :: g :: h :: rest => do
        let v ← codeUnit? e f g h
        if isLowSurrogate v then
          prepend (Char.ofNat (0x10000 + (u - 0xD800) * 1024 + (v - 0xDC00))) (string? rest)
        else none
      | _ => none
    else if isLowSurrogate u then none
    else prepend (Char.ofNat u) (string? rest)
  | '\\' :: c :: rest => do prepend (← unescape? c) (string? rest)
  | c :: rest => if c.toNat < 0x20 then none else prepend c (string? rest)

/-- The text after `word`, if it starts with it. -/
def afterWord? : List Char → List Char → Option (List Char)
  | [], rest => some rest
  | _ :: _, [] => none
  | w :: word, c :: rest => if w == c then afterWord? word rest else none

mutual

/-- Reads a value; arrays and objects may nest `depth` deep in it. -/
def value? : Nat → Nat → List Char → Option (Json × List Char)
  | 0, _, _ => none
  | fuel + 1, depth, cs =>
    match skipSpace cs with
    | [] => none
    | c :: rest =>
      if c == '"' then (string? rest).map fun (s, rest) => (.str (String.ofList s), rest)
      else if c == '[' then
        match depth with
        | 0 => none
        | depth + 1 =>
          match skipSpace rest with
          | ']' :: rest => some (.arr [], rest)
          | rest => (items? fuel depth rest).map fun (js, rest) => (.arr js, rest)
      else if c == '{' then
        match depth with
        | 0 => none
        | depth + 1 =>
          match skipSpace rest with
          | '}' :: rest => some (.obj [], rest)
          | rest => (fields? fuel depth rest).map fun (fs, rest) => (object fs, rest)
      else if c == 'n' then (afterWord? "ull".toList rest).map fun rest => (.null, rest)
      else if c == 't' then (afterWord? "rue".toList rest).map fun rest => (.bool true, rest)
      else if c == 'f' then (afterWord? "alse".toList rest).map fun rest => (.bool false, rest)
      else (Number.read? (c :: rest)).map fun (n, rest) => (.num n, rest)

/-- Reads the values of an array that has one, up to its closing bracket. -/
def items? : Nat → Nat → List Char → Option (List Json × List Char)
  | 0, _, _ => none
  | fuel + 1, depth, cs => do
    let (j, rest) ← value? fuel depth cs
    match skipSpace rest with
    | ',' :: rest => do
      let (js, rest) ← items? fuel depth rest
      return (j :: js, rest)
    | ']' :: rest => some ([j], rest)
    | _ => none

/-- Reads the fields of an object that has one, up to its closing brace. -/
def fields? : Nat → Nat → List Char → Option (List (String × Json) × List Char)
  | 0, _, _ => none
  | fuel + 1, depth, cs =>
    match skipSpace cs with
    | '"' :: rest => do
      let (k, rest) ← string? rest
      match skipSpace rest with
      | ':' :: rest => do
        let (j, rest) ← value? fuel depth rest
        match skipSpace rest with
        | ',' :: rest => do
          let (fs, rest) ← fields? fuel depth rest
          return ((String.ofList k, j) :: fs, rest)
        | '}' :: rest => some ([(String.ofList k, j)], rest)
        | _ => none
      | _ => none
    | _ => none

end

/-- The value a text denotes, if it is the text of one value. -/
def parse? (text : String) : Option Json := do
  let cs := text.toList
  let (j, rest) ← value? (2 * cs.length + 2) maxDepth cs
  if (skipSpace rest).isEmpty then return j else none

end PropertyGraph.Json
