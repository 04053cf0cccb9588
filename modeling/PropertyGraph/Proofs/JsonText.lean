/-
The text of a JSON value reads back as that value: `Json.parse?_text`, for every value that nests
at most as deep as a text may and whose doubles read back from theirs (`Json.Storable`). Each
character comes back out of its escape, an integer from its digits (`Number.ofText?_int`), and
the fields of an object come back in their order.
-/
import Mathlib
import PropertyGraph.Json.Parser
import PropertyGraph.Json.Printer
import PropertyGraph.Proofs.JsonFields
import PropertyGraph.Proofs.NumberText

namespace PropertyGraph

namespace Json

/-! ## Characters and strings -/

theorem hexValue?_hexDigit (n : Nat) : Text.hexValue? (hexDigit n) = some (n % 16) := by
  have h : n % 16 < 16 := Nat.mod_lt _ (by decide)
  unfold hexDigit
  generalize n % 16 = d at h
  have : ∀ d : Fin 16, Text.hexValue? (Nat.digitChar d) = some d.val := by decide
  exact this ⟨d, h⟩

/-- The four digits of an escaped control character give its number. -/
theorem codeUnit?_escape {n : Nat} (h : n < 0x20) :
    codeUnit? '0' '0' (hexDigit (n / 16)) (hexDigit n) = some n := by
  have h0 : Text.hexValue? '0' = some 0 := by decide
  simp only [codeUnit?, h0, hexValue?_hexDigit, Option.pure_def, Option.bind_eq_bind,
    Option.bind_some, Option.some.injEq]
  omega

/-- A character comes back out of its escape. -/
theorem string?_escape (c : Char) (rest : List Char) :
    string? (escape c ++ rest) = prepend c (string? rest) := by
  unfold escape
  split
  · rfl
  · rfl
  · rfl
  · rfl
  · rfl
  · rfl
  · rfl
  · rename_i h1 h2 h3 h4 h5 h6 h7
    split
    · rename_i hlt
      have hchar : Char.ofNat c.toNat = c := Char.ofNat_toNat c
      simp only [List.cons_append, List.nil_append, string?, codeUnit?_escape hlt,
        Option.bind_eq_bind, Option.bind_some, hchar]
      have hhigh : isHighSurrogate c.toNat = false := by simp [isHighSurrogate]; omega
      have hlow : isLowSurrogate c.toNat = false := by simp [isLowSurrogate]; omega
      simp [hhigh, hlow]
    · rename_i hge
      simp only [List.cons_append, List.nil_append]
      rw [string?]
      · simp [hge]
      · exact fun e => h1 e
      · intro _ _ _ _ _ e
        exact absurd e h2
      · intro _ _ e
        exact absurd e h2

theorem string?_flatMap (cs rest : List Char) :
    string? (cs.flatMap escape ++ '"' :: rest) = some (cs, rest) := by
  induction cs with
  | nil => rfl
  | cons c cs ih =>
    rw [List.flatMap_cons, List.append_assoc, string?_escape, ih]
    rfl

theorem skipSpace_cons {c : Char} (h : isSpace c = false) (rest : List Char) :
    skipSpace (c :: rest) = c :: rest := by
  simp [skipSpace, h]

/-! ## What can be read back -/

mutual

/-- How deep arrays and objects nest in a value. -/
def depth : Json → Nat
  | .arr items => depthItems items + 1
  | .obj fields => depthFields fields + 1
  | _ => 0

/-- How deep they nest in one of some values. -/
def depthItems : List Json → Nat
  | [] => 0
  | j :: rest => max (depth j) (depthItems rest)

/-- How deep they nest in the value of one of some fields. -/
def depthFields : List (String × Json) → Nat
  | [] => 0
  | (_, j) :: rest => max (depth j) (depthFields rest)

end

mutual

/-- A value of integers from `-2 ^ 63` to `2 ^ 64 - 1`, of doubles that read back from their
texts, and of objects whose fields ascend. -/
def readable : Json → Bool
  | .num (.int i) => decide (-9223372036854775808 ≤ i) && decide (i ≤ Number.maxInt)
  | .num (.double x) => decide (Number.ofText? (Number.double x).text = some (.double x))
  | .arr items => readableItems items
  | .obj fields => decide (Ascending fields) && readableFields fields
  | _ => true

/-- Such values in a list. -/
def readableItems : List Json → Bool
  | [] => true
  | j :: rest => readable j && readableItems rest

/-- Such values in fields. -/
def readableFields : List (String × Json) → Bool
  | [] => true
  | (_, j) :: rest => readable j && readableFields rest

end

/-- A value that reads back from its text: it nests no deeper than a text may. -/
def Storable (j : Json) : Prop := j.readable = true ∧ j.depth ≤ maxDepth

instance (j : Json) : Decidable j.Storable := inferInstanceAs (Decidable (_ ∧ _))

/-- The numbers of a value that can be read are spelled by their texts. -/
theorem spelled_of_readable {n : Number} (h : readable (.num n) = true) :
    Number.Spelled n.text n := by
  refine Number.spelled_of_ofText? ?_
  cases n with
  | int i =>
    rw [readable, Bool.and_eq_true, decide_eq_true_eq, decide_eq_true_eq] at h
    exact Number.ofText?_int h.1 h.2
  | double x => simpa [readable] using h

/-! ## Values -/

/-- No space, bracket or quote is a sign or a digit. -/
theorem signs_ne {c d : Char} (hc : c = '-' ∨ c.isDigit = true)
    (hd : d ≠ '-' ∧ d.isDigit = false) : c ≠ d := by
  rintro rfl
  rcases hc with rfl | hc
  · exact hd.1 rfl
  · rw [hd.2] at hc
    cases hc

theorem isSpace_sign {c : Char} (hc : c = '-' ∨ c.isDigit = true) : isSpace c = false := by
  have hne := fun d hd => beq_eq_false_iff_ne.2 (signs_ne (d := d) hc hd)
  simp only [isSpace, hne ' ' (by decide), hne '\n' (by decide), hne '\t' (by decide),
    hne '\r' (by decide), Bool.or_self]

/-- The text of a value starts with no space, and with no closing bracket. -/
theorem chars_head {j : Json} (h : j.readable = true) :
    ∃ c tail, j.chars = c :: tail ∧ isSpace c = false ∧ c ≠ ']' := by
  cases j with
  | null => exact ⟨'n', _, rfl, by decide, by decide⟩
  | bool b => cases b with
    | true => exact ⟨'t', _, rfl, by decide, by decide⟩
    | false => exact ⟨'f', _, rfl, by decide, by decide⟩
  | num n =>
    obtain ⟨c, tail, htext, hc⟩ := (spelled_of_readable h).head
    exact ⟨c, tail, by rw [chars, htext], isSpace_sign hc, signs_ne hc (by decide)⟩
  | str s => exact ⟨'"', _, rfl, by decide, by decide⟩
  | arr items => exact ⟨'[', _, rfl, by decide, by decide⟩
  | obj fields => exact ⟨'{', _, rfl, by decide, by decide⟩

theorem length_chars_pos {j : Json} (h : j.readable = true) : 0 < j.chars.length := by
  obtain ⟨c, tail, hchars, -⟩ := chars_head h
  simp [hchars]

/-- A number comes back from its text. -/
theorem value?_number {n : Number} (h : readable (.num n) = true) {rest : List Char}
    (hrest : Stops Number.continues rest) (fuel depth : Nat) :
    value? (fuel + 1) depth (n.text ++ rest) = some (.num n, rest) := by
  obtain ⟨c, tail, htext, hc⟩ := (spelled_of_readable h).head
  have hread := (spelled_of_readable h).read?_append hrest
  have hne := fun d hd => beq_eq_false_iff_ne.2 (signs_ne (d := d) hc hd)
  rw [htext, List.cons_append] at hread ⊢
  rw [value?, skipSpace_cons (isSpace_sign hc)]
  simp only [hne '"' (by decide), hne '[' (by decide), hne '{' (by decide),
    hne 'n' (by decide), hne 't' (by decide), hne 'f' (by decide), Bool.false_eq_true, if_false,
    hread, Option.map_some]

/-- A string comes back out of its quotes. -/
theorem value?_quote (fuel depth : Nat) (s : String) (rest : List Char) :
    value? (fuel + 1) depth (quote s ++ rest) = some (.str s, rest) := by
  have hspace : isSpace '"' = false := by decide
  simp only [quote, List.cons_append, List.append_assoc, List.nil_append, value?,
    skipSpace_cons hspace, beq_self_eq_true, ite_true, string?_flatMap, Option.map_some]
  simp

/-- An array of one value or more is read item by item. -/
theorem value?_bracket {j : Json} (h : j.readable = true) (items : List Json) (rest : List Char)
    (fuel depth : Nat) :
    value? (fuel + 1) (depth + 1) ('[' :: (itemChars (j :: items) ++ rest)) =
      (items? fuel depth (itemChars (j :: items) ++ rest)).map fun (js, rest) => (.arr js, rest) := by
  have hopen : isSpace '[' = false := by decide
  obtain ⟨c, tail, hchars, hspace, hclose⟩ := chars_head h
  obtain ⟨tail, hitems⟩ : ∃ tail, itemChars (j :: items) ++ rest = c :: tail := by
    cases items <;> simp [itemChars, hchars]
  rw [hitems, value?, skipSpace_cons hopen]
  simp only [Char.reduceBEq, Bool.false_eq_true, if_false, if_true, skipSpace_cons hspace]
  split
  · rename_i heq
    exact absurd (List.cons.inj heq).1 hclose
  · rfl

/-- An object of one field or more is read field by field. -/
theorem value?_brace (f : String × Json) (fields : List (String × Json)) (rest : List Char)
    (fuel depth : Nat) :
    value? (fuel + 1) (depth + 1) ('{' :: (fieldChars (f :: fields) ++ rest)) =
      (fields? fuel depth (fieldChars (f :: fields) ++ rest)).map fun (fs, rest) =>
        (object fs, rest) := by
  have hopen : isSpace '{' = false := by decide
  have hquote : isSpace '"' = false := by decide
  obtain ⟨tail, hfields⟩ : ∃ tail, fieldChars (f :: fields) ++ rest = '"' :: tail := by
    cases fields <;> simp [fieldChars, quote]
  rw [hfields, value?, skipSpace_cons hopen]
  simp only [Char.reduceBEq, Bool.false_eq_true, if_false, if_true, skipSpace_cons hquote]
  rfl

/-- The key of a field comes back, and its value is read behind the colon. -/
theorem fields?_quote (fuel depth : Nat) (k : String) (rest : List Char) :
    fields? (fuel + 1) depth (quote k ++ ':' :: rest) = (do
      let (j, rest) ← value? fuel depth rest
      match skipSpace rest with
      | ',' :: rest => do
        let (fs, rest) ← fields? fuel depth rest
        return ((k, j) :: fs, rest)
      | '}' :: rest => some ([(k, j)], rest)
      | _ => none) := by
  have hquote : isSpace '"' = false := by decide
  have hcolon : isSpace ':' = false := by decide
  have hchars : quote k ++ ':' :: rest = '"' :: (k.toList.flatMap escape ++ '"' :: ':' :: rest) := by
    simp [quote]
  have hread := fields?.eq_def (fuel + 1) depth (quote k ++ ':' :: rest)
  rw [hchars] at hread ⊢
  simp only [skipSpace_cons hquote, string?_flatMap, Option.bind_eq_bind, Option.bind_some,
    skipSpace_cons hcolon, String.ofList_toList] at hread
  exact hread

mutual

/-- A value comes back from its text, up to what cannot go on with it. -/
theorem value?_chars : ∀ (j : Json) {fuel depth : Nat} {rest : List Char}, j.readable = true →
    j.depth ≤ depth → Stops Number.continues rest → 2 * j.chars.length ≤ fuel →
    value? fuel depth (j.chars ++ rest) = some (j, rest)
  | j, 0, _, _, hj, _, _, hfuel => by
    have := length_chars_pos hj
    omega
  | .null, _ + 1, _, _, _, _, _, _ => rfl
  | .bool true, _ + 1, _, _, _, _, _, _ => rfl
  | .bool false, _ + 1, _, _, _, _, _, _ => rfl
  | .num _, _ + 1, _, _, hj, _, hrest, _ => value?_number hj hrest _ _
  | .str s, _ + 1, _, _, _, _, _, _ => value?_quote _ _ s _
  | .arr _, _ + 1, 0, _, _, hdepth, _, _ => absurd hdepth (by simp [Json.depth])
  | .arr [], _ + 1, _ + 1, _, _, _, _, _ => rfl
  | .arr (j :: items), fuel + 1, depth + 1, rest, hj, hdepth, _, hfuel => by
    have hitems : readableItems (j :: items) = true := by simpa only [readable] using hj
    have hfirst : j.readable = true := by
      rw [readableItems, Bool.and_eq_true] at hitems
      exact hitems.1
    have hchars : (Json.arr (j :: items)).chars ++ rest =
        '[' :: (itemChars (j :: items) ++ ']' :: rest) := by simp [chars]
    simp only [Json.depth] at hdepth
    simp only [chars, List.length_cons, List.length_append, List.length_nil] at hfuel
    rw [hchars, value?_bracket hfirst,
      items?_chars (j :: items) (by simp) hitems (by omega) (by omega)]
    rfl
  | .obj _, _ + 1, 0, _, _, hdepth, _, _ => absurd hdepth (by simp [Json.depth])
  | .obj [], _ + 1, _ + 1, _, _, _, _, _ => rfl
  | .obj (f :: fields), fuel + 1, depth + 1, rest, hj, hdepth, _, hfuel => by
    obtain ⟨hascending, hfields⟩ : Ascending (f :: fields) ∧ readableFields (f :: fields) = true := by
      rw [readable, Bool.and_eq_true, decide_eq_true_eq] at hj
      exact hj
    have hchars : (Json.obj (f :: fields)).chars ++ rest =
        '{' :: (fieldChars (f :: fields) ++ '}' :: rest) := by simp [chars]
    simp only [Json.depth] at hdepth
    simp only [chars, List.length_cons, List.length_append, List.length_nil] at hfuel
    rw [hchars, value?_brace, fields?_chars (f :: fields) (by simp) hfields (by omega) (by omega)]
    exact congrArg (fun j => some (j, rest)) (object_of_ascending hascending)

/-- The values of a list come back, up to the bracket behind them. -/
theorem items?_chars : ∀ (items : List Json) {fuel depth : Nat} {rest : List Char}, items ≠ [] →
    readableItems items = true → depthItems items ≤ depth →
    2 * (itemChars items).length + 1 ≤ fuel →
    items? fuel depth (itemChars items ++ ']' :: rest) = some (items, rest)
  | [], _, _, _, hne, _, _, _ => absurd rfl hne
  | _ :: _, 0, _, _, _, _, _, hfuel => absurd hfuel (by omega)
  | [j], fuel + 1, depth, rest, _, hj, hdepth, hfuel => by
    have hclose : isSpace ']' = false := by decide
    simp only [readableItems, Bool.and_true] at hj
    simp only [depthItems, Nat.max_zero] at hdepth
    simp only [itemChars] at hfuel ⊢
    have hvalue : value? fuel depth (j.chars ++ ']' :: rest) = some (j, ']' :: rest) :=
      value?_chars j hj hdepth (stops_cons (by decide) _) (by omega)
    rw [items?, hvalue]
    simp only [Option.bind_eq_bind, Option.bind_some, skipSpace_cons hclose]
  | j :: i :: items, fuel + 1, depth, rest, _, hj, hdepth, hfuel => by
    have hcomma : isSpace ',' = false := by decide
    rw [readableItems, Bool.and_eq_true] at hj
    rw [depthItems, Nat.max_le] at hdepth
    simp only [itemChars, List.length_append, List.length_cons] at hfuel
    have hvalue : value? fuel depth (j.chars ++ ',' :: (itemChars (i :: items) ++ ']' :: rest)) =
        some (j, ',' :: (itemChars (i :: items) ++ ']' :: rest)) :=
      value?_chars j hj.1 hdepth.1 (stops_cons (by decide) _) (by omega)
    have hchars : itemChars (j :: i :: items) ++ ']' :: rest =
        j.chars ++ ',' :: (itemChars (i :: items) ++ ']' :: rest) := by simp [itemChars]
    have hpos := length_chars_pos hj.1
    rw [hchars, items?, hvalue]
    simp only [Option.bind_eq_bind, Option.bind_some, skipSpace_cons hcomma]
    rw [items?_chars (i :: items) (by simp) hj.2 hdepth.2 (by omega)]
    rfl

/-- The fields of an object come back, up to the brace behind them. -/
theorem fields?_chars : ∀ (fields : List (String × Json)) {fuel depth : Nat} {rest : List Char},
    fields ≠ [] → readableFields fields = true → depthFields fields ≤ depth →
    2 * (fieldChars fields).length + 1 ≤ fuel →
    fields? fuel depth (fieldChars fields ++ '}' :: rest) = some (fields, rest)
  | [], _, _, _, hne, _, _, _ => absurd rfl hne
  | _ :: _, 0, _, _, _, _, _, hfuel => absurd hfuel (by omega)
  | [(k, j)], fuel + 1, depth, rest, _, hj, hdepth, hfuel => by
    have hclose : isSpace '}' = false := by decide
    simp only [readableFields, Bool.and_true] at hj
    simp only [depthFields, Nat.max_zero] at hdepth
    simp only [fieldChars, List.length_append, List.length_cons] at hfuel
    have hvalue : value? fuel depth (j.chars ++ '}' :: rest) = some (j, '}' :: rest) :=
      value?_chars j hj hdepth (stops_cons (by decide) _) (by omega)
    have hchars : fieldChars [(k, j)] ++ '}' :: rest =
        quote k ++ ':' :: (j.chars ++ '}' :: rest) := by simp [fieldChars]
    rw [hchars, fields?_quote, hvalue]
    simp only [Option.bind_eq_bind, Option.bind_some, skipSpace_cons hclose]
  | (k, j) :: f :: fields, fuel + 1, depth, rest, _, hj, hdepth, hfuel => by
    have hcomma : isSpace ',' = false := by decide
    rw [readableFields, Bool.and_eq_true] at hj
    rw [depthFields, Nat.max_le] at hdepth
    simp only [fieldChars, List.length_append, List.length_cons] at hfuel
    have hvalue : value? fuel depth (j.chars ++ ',' :: (fieldChars (f :: fields) ++ '}' :: rest)) =
        some (j, ',' :: (fieldChars (f :: fields) ++ '}' :: rest)) :=
      value?_chars j hj.1 hdepth.1 (stops_cons (by decide) _) (by omega)
    have hchars : fieldChars ((k, j) :: f :: fields) ++ '}' :: rest =
        quote k ++ ':' :: (j.chars ++ ',' :: (fieldChars (f :: fields) ++ '}' :: rest)) := by
      simp [fieldChars]
    rw [hchars, fields?_quote, hvalue]
    simp only [Option.bind_eq_bind, Option.bind_some, skipSpace_cons hcomma]
    rw [fields?_chars (f :: fields) (by simp) hj.2 hdepth.2 (by omega)]
    rfl

end

/-- A value reads back from its text. -/
theorem parse?_text {j : Json} (h : j.Storable) : parse? j.text = some j := by
  have hfuel : 2 * j.chars.length ≤ 2 * j.chars.length + 2 := by omega
  have hvalue := value?_chars j h.1 h.2 (stops_nil _) hfuel
  rw [List.append_nil] at hvalue
  simp only [parse?, text, String.toList_ofList, hvalue, Option.bind_eq_bind, Option.bind_some]
  rfl

/-! ## Values that nest too deep -/

mutual

/-- A value that nests deeper than may be is not read. -/
theorem value?_deep : ∀ (j : Json) {fuel depth : Nat} {rest : List Char}, j.readable = true →
    depth < j.depth → 2 * j.chars.length ≤ fuel → value? fuel depth (j.chars ++ rest) = none
  | _, 0, _, _, _, _, _ => rfl
  | .null, _ + 1, _, _, _, hdepth, _ => absurd hdepth (by simp [Json.depth])
  | .bool _, _ + 1, _, _, _, hdepth, _ => absurd hdepth (by simp [Json.depth])
  | .num _, _ + 1, _, _, _, hdepth, _ => absurd hdepth (by simp [Json.depth])
  | .str _, _ + 1, _, _, _, hdepth, _ => absurd hdepth (by simp [Json.depth])
  | .arr _, _ + 1, 0, _, _, _, _ => rfl
  | .arr [], _ + 1, _ + 1, _, _, hdepth, _ => absurd hdepth (by simp [Json.depth, depthItems])
  | .arr (j :: items), fuel + 1, depth + 1, rest, hj, hdepth, hfuel => by
    have hitems : readableItems (j :: items) = true := by simpa only [readable] using hj
    have hfirst : j.readable = true := by
      rw [readableItems, Bool.and_eq_true] at hitems
      exact hitems.1
    have hchars : (Json.arr (j :: items)).chars ++ rest =
        '[' :: (itemChars (j :: items) ++ ']' :: rest) := by simp [chars]
    simp only [Json.depth] at hdepth
    simp only [chars, List.length_cons, List.length_append, List.length_nil] at hfuel
    rw [hchars, value?_bracket hfirst,
      items?_deep (j :: items) hitems (by omega) (by omega)]
    rfl
  | .obj _, _ + 1, 0, _, _, _, _ => rfl
  | .obj [], _ + 1, _ + 1, _, _, hdepth, _ => absurd hdepth (by simp [Json.depth, depthFields])
  | .obj (f :: fields), fuel + 1, depth + 1, rest, hj, hdepth, hfuel => by
    have hfields : readableFields (f :: fields) = true := by
      rw [readable, Bool.and_eq_true] at hj
      exact hj.2
    have hchars : (Json.obj (f :: fields)).chars ++ rest =
        '{' :: (fieldChars (f :: fields) ++ '}' :: rest) := by simp [chars]
    simp only [Json.depth] at hdepth
    simp only [chars, List.length_cons, List.length_append, List.length_nil] at hfuel
    rw [hchars, value?_brace, fields?_deep (f :: fields) hfields (by omega) (by omega)]
    rfl

/-- Nor are the values of a list where one of them nests deeper. -/
theorem items?_deep : ∀ (items : List Json) {fuel depth : Nat} {rest : List Char},
    readableItems items = true → depth < depthItems items →
    2 * (itemChars items).length + 1 ≤ fuel →
    items? fuel depth (itemChars items ++ ']' :: rest) = none
  | [], _, _, _, _, hdepth, _ => absurd hdepth (by simp [depthItems])
  | _ :: _, 0, _, _, _, _, _ => rfl
  | [j], fuel + 1, depth, rest, hj, hdepth, hfuel => by
    simp only [readableItems, Bool.and_true] at hj
    simp only [depthItems, Nat.max_zero] at hdepth
    simp only [itemChars] at hfuel ⊢
    rw [items?, value?_deep j hj hdepth (by omega)]
    rfl
  | j :: i :: items, fuel + 1, depth, rest, hj, hdepth, hfuel => by
    have hcomma : isSpace ',' = false := by decide
    rw [readableItems, Bool.and_eq_true] at hj
    rw [depthItems, lt_max_iff] at hdepth
    simp only [itemChars, List.length_append, List.length_cons] at hfuel
    have hchars : itemChars (j :: i :: items) ++ ']' :: rest =
        j.chars ++ ',' :: (itemChars (i :: items) ++ ']' :: rest) := by simp [itemChars]
    have hpos := length_chars_pos hj.1
    rw [hchars, items?]
    by_cases hfirst : j.depth ≤ depth
    · rw [value?_chars j hj.1 hfirst (stops_cons (by decide) _) (by omega)]
      simp only [Option.bind_eq_bind, Option.bind_some, skipSpace_cons hcomma]
      rw [items?_deep (i :: items) hj.2 (hdepth.resolve_left (by omega)) (by omega)]
      rfl
    · rw [value?_deep j hj.1 (by omega) (by omega)]
      rfl

/-- Nor are fields where a value nests deeper. -/
theorem fields?_deep : ∀ (fields : List (String × Json)) {fuel depth : Nat} {rest : List Char},
    readableFields fields = true → depth < depthFields fields →
    2 * (fieldChars fields).length + 1 ≤ fuel →
    fields? fuel depth (fieldChars fields ++ '}' :: rest) = none
  | [], _, _, _, _, hdepth, _ => absurd hdepth (by simp [depthFields])
  | _ :: _, 0, _, _, _, _, _ => rfl
  | [(k, j)], fuel + 1, depth, rest, hj, hdepth, hfuel => by
    simp only [readableFields, Bool.and_true] at hj
    simp only [depthFields, Nat.max_zero] at hdepth
    simp only [fieldChars, List.length_append, List.length_cons] at hfuel
    have hchars : fieldChars [(k, j)] ++ '}' :: rest =
        quote k ++ ':' :: (j.chars ++ '}' :: rest) := by simp [fieldChars]
    rw [hchars, fields?_quote, value?_deep j hj hdepth (by omega)]
    rfl
  | (k, j) :: f :: fields, fuel + 1, depth, rest, hj, hdepth, hfuel => by
    have hcomma : isSpace ',' = false := by decide
    rw [readableFields, Bool.and_eq_true] at hj
    rw [depthFields, lt_max_iff] at hdepth
    simp only [fieldChars, List.length_append, List.length_cons] at hfuel
    have hchars : fieldChars ((k, j) :: f :: fields) ++ '}' :: rest =
        quote k ++ ':' :: (j.chars ++ ',' :: (fieldChars (f :: fields) ++ '}' :: rest)) := by
      simp [fieldChars]
    rw [hchars, fields?_quote]
    by_cases hfirst : j.depth ≤ depth
    · rw [value?_chars j hj.1 hfirst (stops_cons (by decide) _) (by omega)]
      simp only [Option.bind_eq_bind, Option.bind_some, skipSpace_cons hcomma]
      rw [fields?_deep (f :: fields) hj.2 (hdepth.resolve_left (by omega)) (by omega)]
      rfl
    · rw [value?_deep j hj.1 (by omega) (by omega)]
      rfl

end

/-- What is read of the text of a value: the value, unless it nests deeper than a text may. -/
theorem parse?_text_eq {j : Json} (h : j.readable = true) :
    parse? j.text = if j.depth ≤ maxDepth then some j else none := by
  split
  · rename_i hdepth
    exact parse?_text ⟨h, hdepth⟩
  · rename_i hdepth
    have hdeep : value? (2 * j.chars.length + 2) maxDepth (j.chars ++ []) = none :=
      value?_deep j h (Nat.lt_of_not_le hdepth) (by omega)
    rw [List.append_nil] at hdeep
    simp only [parse?, text, String.toList_ofList, hdeep]
    rfl

end Json

end PropertyGraph
