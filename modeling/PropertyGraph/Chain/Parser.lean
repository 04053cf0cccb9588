/-
The text form of a chain, such as `g.V().has('name', 'Ada').out('knows').count()`. The
`g.` in front may be missing. Arguments are strings in single or double quotes, numbers,
`true`, `false`, `null`, and lists of those in brackets; white space may stand around
every piece.

A reader returns what is left of the text. An error is placed where reading stopped, by
how much of the text is left there, and `Chain.parse` turns that into an offset in bytes.
The readers of values take fuel, three for every character and three more: between two of
their calls that take a character stand at most two that take none, so the fuel is never
used up.
-/
import PropertyGraph.Chain.Call
import PropertyGraph.Error
import PropertyGraph.Text.Blank

namespace PropertyGraph.Chain

/-- Why a reader fails. -/
inductive ReadError where
  /-- A fault, with the text left after it. -/
  | fault (fault : TextFault) (left : List Char)
  | unknownOperation (name : String)
deriving DecidableEq

/-- What a reader finds, or its error. -/
abbrev Reading := Except ReadError

def skipBlank (cs : List Char) : List Char := cs.dropWhile Text.isBlank

/-- A character of a name. -/
def isNameChar (c : Char) : Bool := c.isAlphanum || c == '_'

/-- Reads a name. -/
def readName (cs : List Char) : Reading (String × List Char) :=
  let name := cs.takeWhile isNameChar
  if name.isEmpty then .error (.fault .expectedName cs)
  else .ok (String.ofList name, cs.dropWhile isNameChar)

/-- Reads one given character, after white space. -/
def readChar (want : Char) (cs : List Char) : Reading (List Char) :=
  match skipBlank cs with
  | c :: rest => if c == want then .ok rest else .error (.fault (.expected want c) rest)
  | [] => .error (.fault (.expected want none) [])

/-- The character an escape stands for: a line break, a tab, else the escaped one. -/
def unescape (c : Char) : Char :=
  match c with
  | 'n' => '\n'
  | 't' => '\t'
  | c => c

/-- Reads the rest of a string up to its closing quote. -/
def readString (quote : Char) : List Char → Reading (List Char × List Char)
  | [] => .error (.fault .unterminatedString [])
  | '\\' :: [] => .error (.fault .unterminatedEscape [])
  | '\\' :: c :: rest => do
    let (cs, left) ← readString quote rest
    return (unescape c :: cs, left)
  | c :: rest =>
    if c == quote then .ok ([], rest)
    else do
      let (cs, left) ← readString quote rest
      return (c :: cs, left)

/-- A character a number may be written with. -/
def isNumberChar (c : Char) : Bool :=
  c.isDigit || c == '-' || c == '+' || c == '.' || c == 'e' || c == 'E'

/-- Reads a number. -/
def readNumber (cs : List Char) : Reading (Json × List Char) :=
  let text := cs.takeWhile isNumberChar
  let left := cs.dropWhile isNumberChar
  match Number.ofText? text with
  | some n => .ok (.num n, left)
  | none => .error (.fault (.invalidNumber (String.ofList text)) left)

/-- Reads a word that is a value. -/
def readWord (cs : List Char) : Reading (Json × List Char) := do
  let (word, left) ← readName cs
  if word == "true" then return (.bool true, left)
  else if word == "false" then return (.bool false, left)
  else if word == "null" then return (.null, left)
  else throw (.fault (.unexpectedWord word) left)

mutual

/-- Reads a value. -/
def readValue : (fuel : Nat) → List Char → Reading (Json × List Char)
  | 0, cs => .error (.fault .unexpectedEnd cs)
  | fuel + 1, cs =>
    match skipBlank cs with
    | [] => .error (.fault .unexpectedEnd [])
    | c :: rest =>
      if c == '\'' || c == '"' then do
        let (s, left) ← readString c rest
        return (.str (String.ofList s), left)
      else if c == '[' then do
        let (values, left) ← readList fuel ']' rest
        return (.arr values, left)
      else if c == '-' || c.isDigit then readNumber (c :: rest)
      else if c.isAlpha then readWord (c :: rest)
      else .error (.fault (.unexpectedCharacter c) (c :: rest))

/-- Reads values with commas between them up to a closing character. -/
def readList : (fuel : Nat) → (close : Char) → List Char → Reading (List Json × List Char)
  | 0, close, cs => .error (.fault (.unterminatedList close) cs)
  | fuel + 1, close, cs =>
    match skipBlank cs with
    | c :: rest => if c == close then .ok ([], rest) else readItems fuel close (c :: rest)
    | [] => readItems fuel close []

/-- Reads one value or more with commas between them up to a closing character. -/
def readItems : (fuel : Nat) → (close : Char) → List Char → Reading (List Json × List Char)
  | 0, close, cs => .error (.fault (.unterminatedList close) cs)
  | fuel + 1, close, cs => do
    let (value, left) ← readValue fuel cs
    match skipBlank left with
    | [] => throw (.fault (.unterminatedList close) [])
    | c :: rest =>
      if c == ',' then
        let (values, left) ← readItems fuel close rest
        return (value :: values, left)
      else if c == close then return ([value], rest)
      else throw (.fault (.expectedCommaOr close c) rest)

end

/-- Reads a call. -/
def readCall (cs : List Char) : Reading (Call × List Char) := do
  let (name, left) ← readName cs
  match Operation.ofName? name with
  | none => throw (.unknownOperation name)
  | some operation =>
    let left ← readChar '(' left
    let (arguments, left) ← readList (3 * left.length + 3) ')' left
    return (⟨operation, arguments⟩, left)

/-- Reads calls with dots between them up to the end of the text. -/
def readCalls : (fuel : Nat) → List Char → Except ReadError Chain
  | 0, cs => .error (.fault .expectedName cs)
  | fuel + 1, cs => do
    let (call, left) ← readCall (skipBlank cs)
    match skipBlank left with
    | [] => return [call]
    | '.' :: rest => return call :: (← readCalls fuel rest)
    | c :: rest => throw (.fault (.expectedDotOrEnd c) (c :: rest))

/-- The calls of a text without white space in front: after `g.`, if that is there. -/
def afterSource : List Char → List Char
  | 'g' :: '.' :: rest => rest
  | cs => cs

/-- The number of bytes of a text. -/
def byteLength (cs : List Char) : Nat := cs.foldr (fun c n => c.utf8Size + n) 0

/-- Reads a chain. -/
def parse (text : String) : Except Error Chain :=
  let cs := text.toList
  match readCalls (cs.length + 1) (afterSource (skipBlank cs)) with
  | .ok chain => .ok chain
  | .error (.unknownOperation name) => .error (.refused (.unknownOperation name))
  | .error (.fault fault left) =>
    .error (.refused (.unreadable fault (byteLength cs - byteLength left)))

end PropertyGraph.Chain
