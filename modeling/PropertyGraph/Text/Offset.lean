/-
Places in a text by the bytes of UTF-8 before them. A place inside a character is none of
the text.
-/

namespace PropertyGraph.Text

/-- The number of bytes of a text. -/
def byteSize (cs : List Char) : Nat := cs.foldr (fun c n => c.utf8Size + n) 0

/-- The text after some bytes. -/
def dropBytes? : Nat → List Char → Option (List Char)
  | 0, cs => some cs
  | _ + 1, [] => none
  | n + 1, c :: cs => if c.utf8Size ≤ n + 1 then dropBytes? (n + 1 - c.utf8Size) cs else none

/-- The first bytes of a text, as characters. -/
def takeBytes? : Nat → List Char → Option (List Char)
  | 0, _ => some []
  | _ + 1, [] => none
  | n + 1, c :: cs =>
    if c.utf8Size ≤ n + 1 then (takeBytes? (n + 1 - c.utf8Size) cs).map (c :: ·) else none

/-- The part of a text from an offset up to another. -/
def slice? (first last : Nat) (cs : List Char) : Option (List Char) := do
  takeBytes? (last - first) (← dropBytes? first cs)

/-- The bytes of a prefix lead to what follows it. -/
theorem dropBytes?_append (before after : List Char) :
    dropBytes? (byteSize before) (before ++ after) = some after := by
  induction before with
  | nil => rw [byteSize, List.foldr_nil, List.nil_append, dropBytes?]
  | cons c cs ih =>
    have h := c.utf8Size_pos
    obtain ⟨n, hn⟩ : ∃ n, byteSize (c :: cs) = n + 1 :=
      ⟨byteSize (c :: cs) - 1, by simp only [byteSize, List.foldr_cons]; omega⟩
    have hs : n + 1 - c.utf8Size = byteSize cs := by
      simp only [byteSize, List.foldr_cons] at hn ⊢; omega
    rw [hn, List.cons_append, dropBytes?, hs, ih, if_pos]
    simp only [byteSize, List.foldr_cons] at hn; omega

/-- The bytes of a prefix hold it. -/
theorem takeBytes?_append (before after : List Char) :
    takeBytes? (byteSize before) (before ++ after) = some before := by
  induction before with
  | nil => rw [byteSize, List.foldr_nil, takeBytes?]
  | cons c cs ih =>
    have h := c.utf8Size_pos
    obtain ⟨n, hn⟩ : ∃ n, byteSize (c :: cs) = n + 1 :=
      ⟨byteSize (c :: cs) - 1, by simp only [byteSize, List.foldr_cons]; omega⟩
    have hs : n + 1 - c.utf8Size = byteSize cs := by
      simp only [byteSize, List.foldr_cons] at hn ⊢; omega
    rw [hn, List.cons_append, takeBytes?, hs, ih, if_pos, Option.map_some]
    simp only [byteSize, List.foldr_cons] at hn; omega

end PropertyGraph.Text
