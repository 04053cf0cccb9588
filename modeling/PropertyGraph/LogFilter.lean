/-
Which notices reach the log. A filter is a list of directives with commas between them:
a level; a target; a target, `=` and a level. A target may be followed, before the `=`, by
a span in brackets, with a field in braces, and a field by `=` and a value, or a regular
expression for values. A directive with a span holds inside the span only, and notices
stand in none.

The blanks around a directive count for nothing when its marks are looked for, but its parts
are taken from the text with the blanks, at the offsets of the marks. So a level before a
blank is none, and a blank in front moves every part: with a level after `=`, such a
directive is refused.
-/
import PropertyGraph.Notice
import PropertyGraph.Text.Offset
import PropertyGraph.Text.RegularExpression

namespace PropertyGraph

/-- The name of the program, which is the source of all notices. -/
def programName : String := "kvgraph"

/-- How much a directive lets through: nothing, errors, warnings too, and so on up to 5. -/
abbrev Verbosity := Nat

/-- A directive. -/
structure LogDirective where
  /-- The start of the sources it is about; without one it is about all. -/
  target : Option String
  /-- Whether it is about the inside of some span only. -/
  spanned : Bool
  verbosity : Verbosity
deriving DecidableEq, Repr

/-- A filter. -/
structure LogFilter where
  directives : List LogDirective
deriving DecidableEq, Repr

namespace LogDirective

/-- The names of the levels, from the most silent one. -/
def levelNames : List String := ["off", "error", "warn", "info", "debug", "trace"]

/-- The most there is. -/
def everything : Verbosity := 5

/-- The digits of a number from 0 to 5, which may follow a `+` and zeros. -/
def levelNumber? (cs : List Char) : Option Verbosity :=
  let ds := match cs with
    | '+' :: rest => rest
    | cs => cs
  if !ds.isEmpty && ds.all Char.isDigit then
    match ds.dropWhile (· == '0') with
    | [] => some 0
    | [d] => if d ≤ '5' then some (d.toNat - '0'.toNat) else none
    | _ => none
  else none

/-- A level by its number, or by its name in letters of either case. -/
def level? (cs : List Char) : Option Verbosity :=
  (levelNumber? cs).or (levelNames.findIdx? (·.toList == cs.map Char.toLower))

/-- The level after `=`; nothing there stands for everything. -/
def levelOrAll? (cs : List Char) : Option Verbosity :=
  if cs.isEmpty then some everything else level? cs

/-- Whether a directive may begin with a character, brackets apart. -/
def canStart (c : Char) : Bool :=
  c == '-' || c == ':' || c == '_' || Text.isAlphanumeric c

/-- The digits of an exponent, which may follow a sign. -/
def isExponent (cs : List Char) : Bool :=
  let ds := match cs with
    | '+' :: rest | '-' :: rest => rest
    | cs => cs
  !ds.isEmpty && ds.all Char.isDigit

/-- Digits, perhaps with a point before, between or after them, and perhaps an exponent. -/
def isDecimal (cs : List Char) : Bool :=
  let whole := cs.takeWhile Char.isDigit
  let (decimals, rest) := match cs.dropWhile Char.isDigit with
    | '.' :: rest => (rest.takeWhile Char.isDigit, rest.dropWhile Char.isDigit)
    | rest => ([], rest)
  !(whole.isEmpty && decimals.isEmpty) &&
    match rest with
    | [] => true
    | c :: rest => (c == 'e' || c == 'E') && isExponent rest

/-- A number without a sign, or what stands for one. -/
def isNumber (cs : List Char) : Bool :=
  isDecimal cs || ["inf", "infinity", "nan"].any (·.toList == cs.map Char.toLower)

/-- What a field may be compared with: truth values, numbers and regular expressions. Only
a number after `+` is no regular expression. -/
def isValue : List Char → Bool
  | '+' :: rest => isNumber rest
  | cs => Text.isRegularExpression cs

/-- A field: a name, perhaps with `=` and a value; a further `=` ends the value. -/
def isField (cs : List Char) : Bool :=
  !cs.isEmpty &&
    match cs.dropWhile (· != '=') with
    | [] => true
    | _ :: value => isValue (value.takeWhile (· != '='))

/-- The level in the text from an offset on. -/
def levelFrom? (text : List Char) (first : Nat) : Option Verbosity := do
  levelOrAll? (← Text.dropBytes? first text)

/-- What follows a span, at an offset of the text: the end, or a level. -/
def afterSpan? (text : List Char) (target : Option String) (here : Nat) :
    List Char → Option LogDirective
  | [] => some ⟨target, true, everything⟩
  | '=' :: _ => (levelFrom? text (here + 1)).map (⟨target, true, ·⟩)
  | _ => none

/-- A field that began at `first`, from `here` up to the closing brace, and what follows. -/
def field? (text : List Char) (target : Option String) (first here : Nat) :
    List Char → Option LogDirective
  | [] => none
  | '}' :: rest => do
    guard (isField (← Text.slice? first here text))
    match rest with
    | ']' :: rest => afterSpan? text target (here + 2) rest
    | _ => none
  | c :: rest => field? text target first (here + c.utf8Size) rest

/-- A span, from `here` up to the closing bracket, and what follows. -/
def span? (text : List Char) (target : Option String) (here : Nat) :
    List Char → Option LogDirective
  | [] => none
  | ']' :: rest => afterSpan? text target (here + 1) rest
  | '{' :: rest => field? text target (here + 1) (here + 1) rest
  | c :: rest => span? text target (here + c.utf8Size) rest

/-- A directive that is one word: a level, or else a target. -/
def ofWord (cs : List Char) : LogDirective :=
  match level? cs with
  | some verbosity => ⟨none, false, verbosity⟩
  | none => ⟨some (String.ofList cs), false, everything⟩

/-- A text without the blanks around it. -/
def trim (cs : List Char) : List Char :=
  ((cs.dropWhile Text.isBlank).reverse.dropWhile Text.isBlank).reverse

/-- Reads a directive. -/
def parse? (text : List Char) : Option LogDirective :=
  let isInWord (c : Char) := c != '=' && c != '['
  let marked := trim text
  let here := Text.byteSize (marked.takeWhile isInWord)
  match marked with
  | [] => none
  | '[' :: rest => span? text none 1 rest
  | c :: _ =>
    if !canStart c then none
    else
      match marked.dropWhile isInWord with
      | [] => some (ofWord text)
      | mark :: rest => do
        let target := some (String.ofList (← Text.takeBytes? here text))
        if mark == '=' then return ⟨target, false, ← levelFrom? text (here + 1)⟩
        else span? text target (here + 1) rest

end LogDirective

namespace LogFilter

/-- The filter where none is given: warnings and errors. -/
def default : LogFilter := ⟨[⟨none, false, 2⟩]⟩

/-- The pieces of a text between its commas. -/
def pieces : List Char → List (List Char)
  | [] => [[]]
  | ',' :: rest => [] :: pieces rest
  | c :: rest =>
    match pieces rest with
    | piece :: more => (c :: piece) :: more
    | [] => [[c]]

/-- Reads a filter. Empty pieces count for nothing. -/
def parse (text : String) : Except Error LogFilter :=
  match ((pieces text.toList).filter (!·.isEmpty)).mapM LogDirective.parse? with
  | some directives => .ok ⟨directives⟩
  | none => .error (.refused .logFilterInvalid)

/-- How much a filter lets through from a source: what the directive with the longest
matching target says, of several the last; errors if there is no directive at all. -/
def verbosity (f : LogFilter) (source : String) : Verbosity :=
  if f.directives.isEmpty then 1
  else
    (f.directives.foldl
      (fun (length, verbosity) d =>
        let target := d.target.getD ""
        if !d.spanned && target.isPrefixOf source && length ≤ target.length then
          (target.length, d.verbosity)
        else (length, verbosity)) (0, 0)).2

/-- Whether a notice reaches the log. -/
def admits (f : LogFilter) (notice : Notice) : Bool :=
  match notice.level with
  | .error => 1 ≤ f.verbosity programName
  | .warn => 2 ≤ f.verbosity programName

end LogFilter

end PropertyGraph
