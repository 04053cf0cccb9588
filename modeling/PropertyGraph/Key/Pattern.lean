/-
Key patterns: a token is a literal, `*` for any one token, or a final `>` for one or
more tokens. An empty token is never matched by a wildcard in its place.
-/
import PropertyGraph.Key.Token
import PropertyGraph.Error

namespace PropertyGraph

/-- What a pattern asks of one token of a key. -/
inductive Slot where
  | literal (token : String)
  | any
deriving DecidableEq, Repr

/-- A pattern: one slot for each of the first tokens, and whether a final `>` asks
for more. -/
structure KeyPattern where
  slots : List Slot
  tail : Bool
deriving DecidableEq, Repr

namespace Slot

def accepts : Slot → String → Bool
  | .literal t, token => t == token
  | .any, token => !token.isEmpty

def text : Slot → String
  | .literal t => t
  | .any => "*"

end Slot

namespace KeyPattern

/-- Adds a slot in front. -/
def push (slot : Slot) (p : KeyPattern) : KeyPattern := { p with slots := slot :: p.slots }

/-- Reads the tokens of a pattern from the left; the first fault wins. -/
def ofTokens? : List String → Except PatternFault KeyPattern
  | [] => .ok ⟨[], false⟩
  | t :: rest =>
    if t.isEmpty then .error .emptyToken
    else if t == "*" then (ofTokens? rest).map (push .any)
    else if t == ">" then if rest.isEmpty then .ok ⟨[], true⟩ else .error .tailNotFinal
    else if t.toList.any (fun c => c == '*' || c == '>') then .error .wildcardInToken
    else (ofTokens? rest).map (push (.literal t))

/-- Reads a pattern. -/
def parse (pattern : String) : Except Error KeyPattern :=
  let read := if pattern.isEmpty then .error .empty else ofTokens? (Key.tokens pattern)
  read.mapError fun fault => .refused (.patternInvalid pattern fault)

/-- Reads several patterns; the first bad one refuses them all. -/
def parseAll (patterns : List String) : Except Error (List KeyPattern) := patterns.mapM parse

/-- The text of a pattern. -/
def text (p : KeyPattern) : String :=
  Key.join (p.slots.map Slot.text ++ if p.tail then [">"] else [])

/-- Whether slots, and a final `>` if `tail`, match these tokens. -/
def matchTokens (tail : Bool) : List Slot → List String → Bool
  | [], [] => !tail
  | [], t :: _ => tail && !t.isEmpty
  | _ :: _, [] => false
  | s :: slots, t :: rest => s.accepts t && matchTokens tail slots rest

/-- Whether a pattern matches a key. -/
def accepts (p : KeyPattern) (key : String) : Bool := matchTokens p.tail p.slots (Key.tokens key)

/-- Whether every token of a pattern is literal. -/
def isExact (p : KeyPattern) : Bool :=
  !p.tail && p.slots.all fun
    | .literal _ => true
    | .any => false

/-- Whether a pattern is `>` alone. -/
def isEverything (p : KeyPattern) : Bool := p.tail && p.slots.isEmpty

/-- The leading literals. -/
def literals : List Slot → List String
  | .literal t :: rest => t :: literals rest
  | _ => []

/-- A text every matching key begins with: the pattern itself if it is exact, else
its leading literals with a dot after each. -/
def stem (p : KeyPattern) : String :=
  let lead := literals p.slots
  if p.isExact then Key.join lead else Key.join (lead ++ [""])

end KeyPattern

end PropertyGraph
