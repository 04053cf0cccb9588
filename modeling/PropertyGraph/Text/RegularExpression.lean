/-
Which texts are regular expressions: characters and escapes, classes in brackets, groups,
alternatives and repetitions, and flags that hold up to the end of a group.

An expression is over Unicode text, unless the flag `u` is taken away. No table of the
classes and the case of all of Unicode is at hand, so whatever needs one is refused; so is
what could match bytes that are no text. A count in braces is refused everywhere.

The text is read in steps of at least a character each. What a step leaves open (groups,
brackets of classes) stands in `State`, and `isRegularExpression` takes as many steps as
there are characters, so that none is missing. A part knows how deep it nests: more than
`maxDepth` levels are refused.
-/
import PropertyGraph.Text.Blank
import PropertyGraph.Text.Hexadecimal
import PropertyGraph.Text.Numeric

namespace PropertyGraph.Text.RegularExpression

/-- How deep an expression may nest. -/
def maxDepth : Nat := 250

/-- The flags with a say in what may stand in an expression. -/
structure Mode where
  /-- The flag `i`: letters stand for both their cases. -/
  anyCase : Bool := false
  /-- The flag `u`: the expression is over Unicode text, not over ASCII. -/
  unicode : Bool := true
  /-- The flag `x`: blanks and comments count for nothing. -/
  spaced : Bool := false
deriving DecidableEq, Repr

namespace Mode

/-- The letters of the flags. -/
def letters : List Char := ['i', 'm', 's', 'U', 'u', 'R', 'x']

/-- The mode after flags; those behind `-` are taken away. -/
def set (m : Mode) (on : Bool) : List Char → Mode
  | [] => m
  | '-' :: rest => m.set false rest
  | 'i' :: rest => { m with anyCase := on }.set on rest
  | 'u' :: rest => { m with unicode := on }.set on rest
  | 'x' :: rest => { m with spaced := on }.set on rest
  | _ :: rest => m.set on rest

/-- The text without the blanks in front and the comments, which go from `#` to the end of
a line. -/
def skipSpaced (inComment : Bool) : List Char → List Char
  | [] => []
  | c :: rest =>
    if inComment then skipSpaced (c != '\n') rest
    else if c == '#' then skipSpaced true rest
    else if isBlank c then skipSpaced false rest
    else c :: rest

/-- The text without what counts for nothing in front. -/
def skip (m : Mode) (cs : List Char) : List Char := if m.spaced then skipSpaced false cs else cs

/-- The character that is seen in front: no blank if there is another, nor the `#` of a
comment, but what is in the comment. -/
def peek? (m : Mode) (cs : List Char) : Option Char :=
  if m.spaced then
    match cs.dropWhile isBlank with
    | '#' :: comment => (comment.dropWhile isBlank).head? <|> cs.head?
    | [] => cs.head?
    | c :: _ => some c
  else cs.head?

end Mode

/-! ## The smallest parts -/

/-- A smallest part of an expression. -/
inductive Atom where
  /-- A character; `isByte` if two hexadecimal digits were written for it. -/
  | literal (c : Char) (isByte : Bool)
  /-- The digits, the blanks or the characters of words, or all others. -/
  | family (others : Bool)
  | anyCharacter
  /-- An end of a word, or no end of one. -/
  | wordEnd
  /-- The start or the end of the text or a line. -/
  | edge
deriving DecidableEq, Repr

/-- Whether an atom may stand in an expression. -/
def Atom.isAllowed (m : Mode) : Atom → Bool
  | .literal c isByte => if m.unicode then !m.anyCase else !isByte || c.toNat < 0x80
  | .family others => !m.unicode && !others
  | .anyCharacter => m.unicode
  | .wordEnd => !m.unicode
  | .edge => true

/-- Whether an atom may stand in a class. -/
def Atom.isAllowedInClass (m : Mode) : Atom → Bool
  | .literal c _ => if m.unicode then !m.anyCase else c.toNat < 0x80
  | .family others => !m.unicode && !others
  | _ => false

/-- The number of some hexadecimal digits, over the number read so far. -/
def hexNumber? (m : Mode) : Nat → Nat → List Char → Option (Nat × List Char)
  | 0, number, cs => some (number, cs)
  | n + 1, number, cs =>
    match m.skip cs with
    | [] => none
    | c :: rest => do hexNumber? m n (number * 16 + (← hexValue? c)) rest

/-- The character of some hexadecimal digits. -/
def hexLiteral? (m : Mode) (digits : Nat) (cs : List Char) : Option (Atom × List Char) := do
  let (number, rest) ← hexNumber? m digits 0 cs
  if number.isValidChar then return (.literal (Char.ofNat number) (digits == 2), rest) else none

/-- The atom of an escape, after the backslash. What is no letter and no digit may be
escaped without need. -/
def escape? (m : Mode) : List Char → Option (Atom × List Char)
  | [] => none
  | c :: rest =>
    match c with
    | 'x' => hexLiteral? m 2 rest
    | 'u' => hexLiteral? m 4 rest
    | 'U' => hexLiteral? m 8 rest
    | 'd' | 's' | 'w' => some (.family false, rest)
    | 'D' | 'S' | 'W' => some (.family true, rest)
    | 'b' | 'B' | '<' | '>' => some (.wordEnd, rest)
    | 'A' | 'z' => some (.edge, rest)
    | 'a' => some (.literal '\x07' false, rest)
    | 'f' => some (.literal '\x0c' false, rest)
    | 't' => some (.literal '\t' false, rest)
    | 'n' => some (.literal '\n' false, rest)
    | 'r' => some (.literal '\r' false, rest)
    | 'v' => some (.literal '\x0b' false, rest)
    | c => if c.toNat < 0x80 && !c.isAlphanum then some (.literal c false, rest) else none

/-- An atom outside a class. -/
def atom? (m : Mode) : List Char → Option (Atom × List Char)
  | [] => none
  | '\\' :: rest => escape? m rest
  | '.' :: rest => some (.anyCharacter, rest)
  | '^' :: rest | '$' :: rest => some (.edge, rest)
  | c :: rest => some (.literal c false, rest)

/-- An atom in a class. -/
def classAtom? (m : Mode) : List Char → Option (Atom × List Char)
  | [] => none
  | '\\' :: rest => escape? m rest
  | c :: rest => some (.literal c false, rest)

/-! ## What is open -/

/-- How deep things side by side nest: several make a level of their own. -/
def sideBySide : List Nat → Nat
  | [] => 0
  | [depth] => depth
  | depths => 1 + depths.foldl max 0

/-- A part of a sequence: how deep it nests, and whether it may be repeated. -/
structure Part where
  depth : Nat
  repeatable : Bool
deriving DecidableEq, Repr

/-- What a group holds so far: the depths of the alternatives before the last one, and the
parts of the last one, latest first. -/
structure Body where
  alternatives : List Nat := []
  parts : List Part := []
deriving DecidableEq, Repr

/-- How deep the last alternative nests. -/
def Body.lastDepth (b : Body) : Nat := sideBySide (b.parts.map Part.depth)

def Body.depth (b : Body) : Nat := sideBySide (b.lastDepth :: b.alternatives)

def Body.add (b : Body) (part : Part) : Body := { b with parts := part :: b.parts }

/-- What stands around an open group, and the mode there. -/
structure Surroundings where
  body : Body
  mode : Mode
deriving DecidableEq, Repr

/-- An open class: the depth of what stands before the last operator, if there is one, and
the depths of the items after it. At the start `-` and `]` are items. -/
structure ClassBody where
  atStart : Bool := true
  left : Option Nat := none
  items : List Nat := []
deriving DecidableEq, Repr

def ClassBody.depth (c : ClassBody) : Nat :=
  match c.left with
  | none => sideBySide c.items
  | some left => 1 + max left (sideBySide c.items)

def ClassBody.add (c : ClassBody) (depth : Nat) : ClassBody :=
  { c with atStart := false, items := depth :: c.items }

/-- An expression under way, with the groups and the classes around, innermost first. -/
structure State where
  mode : Mode := {}
  body : Body := {}
  groups : List Surroundings := []
  names : List (List Char) := []
  classes : List ClassBody := []
deriving DecidableEq, Repr

/-! ## Classes -/

/-- The names of the classes of ASCII. -/
def asciiClasses : List String :=
  ["alnum", "alpha", "ascii", "blank", "cntrl", "digit", "graph", "lower", "print", "punct",
    "space", "upper", "word", "xdigit"]

/-- A class of ASCII by its name, after the bracket; whether it holds the others. -/
def asciiClass? : List Char → Option (Bool × List Char)
  | ':' :: rest =>
    let (others, rest) := match rest with
      | '^' :: rest => (true, rest)
      | rest => (false, rest)
    match rest.dropWhile (· != ':') with
    | ':' :: ']' :: more =>
      if asciiClasses.contains (String.ofList (rest.takeWhile (· != ':'))) then
        some (others, more)
      else none
    | _ => none
  | _ => none

/-- Opens a class, after the bracket. Not over Unicode, the others of a class hold bytes
that are no text. -/
def State.openClass? (s : State) (cs : List Char) : Option (State × List Char) :=
  let opened := { s with classes := {} :: s.classes }
  match s.mode.skip cs with
  | '^' :: rest => if s.mode.unicode then some (opened, rest) else none
  | rest => some (opened, rest)

/-- Closes the innermost class. -/
def State.closeClass (s : State) (closed : ClassBody) (outer : List ClassBody) : State :=
  match outer with
  | [] => { s with classes := [], body := s.body.add ⟨1 + closed.depth, true⟩ }
  | c :: outer => { s with classes := c.add (1 + closed.depth) :: outer }

/-- An item of a class: an atom, or a range from a character to a later one. -/
def classItem? (m : Mode) (cs : List Char) : Option (List Char) := do
  let (first, rest) ← classAtom? m cs
  let rest := m.skip rest
  guard (first.isAllowedInClass m)
  match rest with
  | '-' :: more =>
    if m.peek? more == some ']' || m.peek? more == some '-' then return rest
    else
      match first, ← classAtom? m (m.skip more) with
      | .literal a _, (.literal b isByte, rest) =>
        guard (a ≤ b && (Atom.literal b isByte).isAllowedInClass m)
        return rest
      | _, _ => none
  | rest => return rest

/-- A step in a class. -/
def State.classStep? (s : State) (c : ClassBody) (outer : List ClassBody) (cs : List Char) :
    Option (State × List Char) :=
  let item (c : ClassBody) (rest : List Char) : Option (State × List Char) :=
    some ({ s with classes := c :: outer }, rest)
  let operator (rest : List Char) : Option (State × List Char) :=
    item ⟨false, some c.depth, []⟩ rest
  let range : Option (State × List Char) := do item (c.add 0) (← classItem? s.mode cs)
  let mark (mark : Char) (after : ClassBody) (rest : List Char) : Option (State × List Char) :=
    if (Atom.literal mark false).isAllowedInClass s.mode then item after rest else none
  match cs with
  | ']' :: rest =>
    if c.atStart && c.items.isEmpty then mark ']' (c.add 0) rest
    else some (s.closeClass c outer, rest)
  | '[' :: rest =>
    match asciiClass? rest with
    | some (others, rest) =>
      if if s.mode.unicode then !s.mode.anyCase else !others then item (c.add 0) rest else none
    | none => s.openClass? rest
  | '-' :: rest =>
    if c.atStart then mark '-' { c.add 0 with atStart := true } rest
    else
      match rest with
      | '-' :: rest => operator rest
      | _ => range
  | '&' :: '&' :: rest => operator rest
  | '~' :: '~' :: rest => operator rest
  | _ => range

/-! ## Groups -/

/-- Opens a group. -/
def State.enter (s : State) (inside : Mode) : State :=
  { s with mode := inside, body := {}, groups := ⟨s.body, s.mode⟩ :: s.groups }

/-- The rest of a group with a name, after `<`. A name begins with a letter or `_`, and no
two groups share one. -/
def State.named? (s : State) (cs : List Char) : Option (State × List Char) :=
  let name := cs.takeWhile (· != '>')
  match name, cs.dropWhile (· != '>') with
  | first :: others, _ :: rest =>
    if (first == '_' || isAlphabetic first) &&
        others.all (fun c => ['_', '.', '[', ']'].contains c || isAlphanumeric c) &&
        !s.names.contains name then
      some ({ s with names := name :: s.names }.enter s.mode, rest)
    else none
  | _, _ => none

/-- Flags, after `?`: for what follows, or for a group that begins here. No flag stands
twice, and one follows `-`. -/
def State.flagged? (s : State) (cs : List Char) : Option (State × List Char) :=
  let isFlag (c : Char) := c != ')' && c != ':'
  let flags := cs.takeWhile isFlag
  let mode := s.mode.set true flags
  if flags.all (fun c => c == '-' || Mode.letters.contains c) &&
      flags.eraseDups.length == flags.length && flags.getLast? != some '-' then
    match cs.dropWhile isFlag with
    | ':' :: rest => some (s.enter mode, rest)
    | ')' :: rest =>
      if flags.isEmpty then none
      else some ({ s with mode := mode, body := s.body.add ⟨0, false⟩ }, rest)
    | _ => none
  else none

/-- Opens a group or sets flags, after the parenthesis. -/
def State.openGroup? (s : State) (cs : List Char) : Option (State × List Char) :=
  match s.mode.skip cs with
  | '?' :: 'P' :: '<' :: rest => s.named? rest
  | '?' :: '<' :: rest => s.named? rest
  | '?' :: rest => s.flagged? rest
  | rest => some (s.enter s.mode, rest)

/-- Closes the innermost group. -/
def State.closeGroup? (s : State) : Option State :=
  match s.groups with
  | [] => none
  | outside :: groups =>
    some { s with
      mode := outside.mode
      body := outside.body.add ⟨1 + s.body.depth, true⟩
      groups := groups }

/-! ## The whole -/

/-- Repeats the last part. A second `?` makes the repetition a short one. -/
def State.repeat? (s : State) (cs : List Char) : Option (State × List Char) :=
  match s.body.parts with
  | part :: parts =>
    if part.repeatable then
      let rest := match cs with
        | '?' :: rest => rest
        | cs => cs
      some ({ s with body := { s.body with parts := ⟨part.depth + 1, true⟩ :: parts } }, rest)
    else none
  | [] => none

/-- A step. -/
def State.step? (s : State) (cs : List Char) : Option (State × List Char) :=
  match s.classes with
  | c :: outer => s.classStep? c outer cs
  | [] =>
    match cs with
    | '(' :: rest => s.openGroup? rest
    | ')' :: rest => s.closeGroup?.map (·, rest)
    | '|' :: rest =>
      some ({ s with body := ⟨s.body.lastDepth :: s.body.alternatives, []⟩ }, rest)
    | '[' :: rest => s.openClass? rest
    | '?' :: rest | '*' :: rest | '+' :: rest => s.repeat? rest
    | '\x7b' :: _ => none
    | cs => do
      let (atom, rest) ← atom? s.mode cs
      guard (atom.isAllowed s.mode)
      return ({ s with body := s.body.add ⟨0, true⟩ }, rest)

/-- Whether an expression may end here. -/
def State.mayEnd (s : State) : Bool :=
  s.classes.isEmpty && s.groups.isEmpty && s.body.depth ≤ maxDepth

/-- Whether the rest of an expression can be read in some steps. -/
def State.accepts : Nat → State → List Char → Bool
  | steps, s, cs =>
    match s.mode.skip cs with
    | [] => s.mayEnd
    | cs =>
      match steps with
      | 0 => false
      | steps + 1 =>
        match s.step? cs with
        | some (s, rest) => accepts steps s rest
        | none => false

end RegularExpression

/-- Whether a text is a regular expression. -/
def isRegularExpression (cs : List Char) : Bool :=
  RegularExpression.State.accepts cs.length {} cs

end PropertyGraph.Text
