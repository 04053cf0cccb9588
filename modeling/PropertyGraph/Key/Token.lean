/-
Keys are texts cut into tokens by dots. `tokens` and `join` are inverse to each
other on lists of tokens that hold no dot.
-/
import PropertyGraph.Text.Blank

namespace PropertyGraph.Key

/-- Cuts a list of characters at every dot. There is always a first piece. -/
def cut : List Char → List Char × List (List Char)
  | [] => ([], [])
  | c :: cs =>
    let (first, rest) := cut cs
    if c == '.' then ([], first :: rest) else (c :: first, rest)

/-- The tokens of a key: the texts between its dots, empty ones included. -/
def tokens (key : String) : List String :=
  let (first, rest) := cut key.toList
  String.ofList first :: rest.map String.ofList

/-- The characters of a key of these tokens. -/
def joinChars : List (List Char) → List Char
  | [] => []
  | [t] => t
  | t :: rest => t ++ '.' :: joinChars rest

/-- The key of these tokens. -/
def join (ts : List String) : String := String.ofList (joinChars (ts.map String.toList))

/-- A character that may not stand in a token. -/
def isSeparator (c : Char) : Bool := c == '.' || c == '*' || c == '>' || Text.isBlank c

/-- A token that can name something: not empty, without dots, wildcards and
white space. -/
def isToken (s : String) : Bool := !s.isEmpty && !s.toList.any isSeparator

/-- The last token of a key. -/
def lastToken (key : String) : String := (tokens key).getLastD ""

/-- The token at a place, counted from zero. -/
def token? (key : String) (i : Nat) : Option String := (tokens key)[i]?

/-- Whether a key begins with a text. -/
def startsWith (key start : String) : Bool := start.toList.isPrefixOf key.toList

theorem cut_append_dot {t : List Char} (h : '.' ∉ t) (rest : List Char) :
    cut (t ++ '.' :: rest) = (t, (cut rest).1 :: (cut rest).2) := by
  induction t with
  | nil => simp [cut]
  | cons c t ih =>
    have hc : ¬c = '.' := fun e => h (by simp [e])
    have ht : '.' ∉ t := fun m => h (by simp [m])
    simp [cut, ih ht, hc]

theorem cut_of_not_mem {t : List Char} (h : '.' ∉ t) : cut t = (t, []) := by
  induction t with
  | nil => simp [cut]
  | cons c t ih =>
    have hc : ¬c = '.' := fun e => h (by simp [e])
    have ht : '.' ∉ t := fun m => h (by simp [m])
    simp [cut, ih ht, hc]

theorem cut_joinChars {t : List Char} {ts : List (List Char)} (h : ∀ u ∈ t :: ts, '.' ∉ u) :
    cut (joinChars (t :: ts)) = (t, ts) := by
  induction ts generalizing t with
  | nil => exact cut_of_not_mem (h t (by simp))
  | cons u us ih =>
    have hu := @ih u fun v hv => h v (List.mem_cons_of_mem _ hv)
    rw [joinChars, cut_append_dot (h t (by simp)), hu]
    simp

/-- The tokens of a joined key are those it was joined from. -/
theorem tokens_join {t : String} {ts : List String} (h : ∀ u ∈ t :: ts, '.' ∉ u.toList) :
    tokens (join (t :: ts)) = t :: ts := by
  have hc : ∀ u ∈ t.toList :: ts.map String.toList, '.' ∉ u := by
    intro u hu
    simp only [List.mem_cons, List.mem_map] at hu
    rcases hu with rfl | ⟨v, hv, rfl⟩
    · exact h t (by simp)
    · exact h v (by simp [hv])
  simp [tokens, join, cut_joinChars hc, Function.comp_def]

end PropertyGraph.Key
