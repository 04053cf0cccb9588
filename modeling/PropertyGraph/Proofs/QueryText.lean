/-
The text of a query. `Chain.Spelled` says which texts spell a chain, in terms of nothing but their
characters: calls with dots between them, values with commas between them, white space around
every piece. A text spells at most one chain; the reader finds it, and refuses what spells none
(`Chain.parse_spelled`).

What a reader finds is spelled by the text it has taken (`spelled_of_read`). The other way round,
what spells a value is read back in front of any text that does not go on with it
(`Json.Spelled.read`), within three pieces of work for each of its characters.
-/
import PropertyGraph.Chain.Parser
import PropertyGraph.Proofs.NumberText
import Mathlib

namespace PropertyGraph

open PropertyGraph.Chain

/-! ## How chains are written -/

/-- White space. -/
def Blank (cs : List Char) : Prop := ∀ c ∈ cs, Text.isBlank c = true

/-- What stands between the quotes of a string: characters as they are, and escapes. -/
inductive Quoted (quote : Char) : List Char → List Char → Prop
  | nil : Quoted quote [] []
  | raw {c : Char} {text s : List Char} (hquote : c ≠ quote) (hescape : c ≠ '\\')
    (rest : Quoted quote text s) : Quoted quote (c :: text) (c :: s)
  | lineBreak {text s : List Char} (rest : Quoted quote text s) :
    Quoted quote ('\\' :: 'n' :: text) ('\n' :: s)
  | tab {text s : List Char} (rest : Quoted quote text s) :
    Quoted quote ('\\' :: 't' :: text) ('\t' :: s)
  | escaped {c : Char} {text s : List Char} (hbreak : c ≠ 'n') (htab : c ≠ 't')
    (rest : Quoted quote text s) : Quoted quote ('\\' :: c :: text) (c :: s)

mutual

/-- The text of a value. -/
inductive Json.Spelled : List Char → Json → Prop
  | string {quote : Char} {text s : List Char} (hquote : quote = '\'' ∨ quote = '"')
    (h : Quoted quote text s) : Spelled (quote :: (text ++ [quote])) (.str (String.ofList s))
  | number {text : List Char} {n : Number} (h : Number.Spelled text n) : Spelled text (.num n)
  | truth : Spelled "true".toList (.bool true)
  | falsehood : Spelled "false".toList (.bool false)
  | null : Spelled "null".toList .null
  | list {text : List Char} {values : List Json} (h : Json.AllSpelled text values) :
    Spelled ('[' :: (text ++ [']'])) (.arr values)

/-- The text of values, with commas between them and none behind the last. -/
inductive Json.AllSpelled : List Char → List Json → Prop
  | none {w : List Char} (h : Blank w) : AllSpelled w []
  | one {w text w' : List Char} {v : Json} (h : Blank w) (hv : Json.Spelled text v)
    (h' : Blank w') : AllSpelled (w ++ (text ++ w')) [v]
  | more {w text w' rest : List Char} {v v' : Json} {values : List Json} (h : Blank w)
    (hv : Json.Spelled text v) (h' : Blank w') (hrest : Json.AllSpelled rest (v' :: values)) :
    AllSpelled (w ++ (text ++ (w' ++ ',' :: rest))) (v :: v' :: values)

end

/-- The text of a call: its name, and its arguments in brackets. -/
inductive Call.Spelled : List Char → Call → Prop
  | call (op : Operation) {w text : List Char} {arguments : List Json} (h : Blank w)
    (harguments : Json.AllSpelled text arguments) :
    Spelled (op.name.toList ++ (w ++ '(' :: (text ++ [')']))) ⟨op, arguments⟩

/-- The text of one call or more, with dots between them. -/
inductive Chain.CallsSpelled : List Char → Chain → Prop
  | last {w text w' : List Char} {call : Call} (h : Blank w) (hcall : Call.Spelled text call)
    (h' : Blank w') : CallsSpelled (w ++ (text ++ w')) [call]
  | more {w text w' rest : List Char} {call : Call} {chain : Chain} (h : Blank w)
    (hcall : Call.Spelled text call) (h' : Blank w') (hrest : CallsSpelled rest chain) :
    CallsSpelled (w ++ (text ++ (w' ++ '.' :: rest))) (call :: chain)

/-- The text of a chain: its calls, behind a `g.` or without it. -/
def Chain.Spelled (text : String) (chain : Chain) : Prop :=
  ∃ w calls, Blank w ∧ (text.toList = w ++ calls ∨ text.toList = w ++ ('g' :: '.' :: calls)) ∧
    CallsSpelled calls chain

/-! ## White space -/

theorem not_isBlank_of_visible {c : Char} (h : 33 ≤ c.toNat) (h' : c.toNat ≤ 126) :
    Text.isBlank c = false := by
  simp only [Text.isBlank, Bool.or_eq_false_iff, Bool.and_eq_false_iff, decide_eq_false_iff_not,
    beq_eq_false_iff_ne]
  omega

/-- A character that goes on with a word or a number. -/
def isPart (c : Char) : Bool := isNameChar c || isNumberChar c

theorem not_isBlank_of_isPart {c : Char} (h : isPart c = true) : Text.isBlank c = false := by
  simp only [isPart, isNameChar, isNumberChar, Char.isAlphanum, Char.isAlpha, Char.isUpper,
    Char.isLower, Char.isDigit, Bool.or_eq_true, Bool.and_eq_true, decide_eq_true_eq,
    beq_iff_eq, UInt32.le_iff_toNat_le, ge_iff_le] at h
  change (((((65 ≤ c.toNat ∧ c.toNat ≤ 90) ∨ (97 ≤ c.toNat ∧ c.toNat ≤ 122)) ∨
    (48 ≤ c.toNat ∧ c.toNat ≤ 57)) ∨ c = '_')) ∨ ((((((48 ≤ c.toNat ∧ c.toNat ≤ 57) ∨ c = '-') ∨
    c = '+') ∨ c = '.') ∨ c = 'e') ∨ c = 'E') at h
  rcases h with ((hcode | hcode) | rfl) | ((((hcode | rfl) | rfl) | rfl) | rfl) | rfl
  any_goals decide
  all_goals exact not_isBlank_of_visible (by omega) (by omega)

theorem not_isPart_of_isBlank {c : Char} (h : Text.isBlank c = true) : isPart c = false := by
  cases hpart : isPart c with
  | false => rfl
  | true => rw [not_isBlank_of_isPart hpart] at h; cases h

theorem skipBlank_cons {c : Char} (h : Text.isBlank c = false) (cs : List Char) :
    skipBlank (c :: cs) = c :: cs := by
  simp [skipBlank, h]

theorem skipBlank_append {w : List Char} (hw : Blank w) (cs : List Char) :
    skipBlank (w ++ cs) = skipBlank cs :=
  List.dropWhile_append_of_pos hw

@[simp]
theorem skipBlank_skipBlank (cs : List Char) : skipBlank (skipBlank cs) = skipBlank cs :=
  List.dropWhile_idempotent _ cs

/-- White space in front is what is skipped. -/
theorem exists_blank (cs : List Char) : ∃ w, Blank w ∧ cs = w ++ skipBlank cs :=
  ⟨cs.takeWhile Text.isBlank, fun _ hc => mem_takeWhile hc, List.takeWhile_append_dropWhile.symm⟩

/-- White space and then what stands behind it goes on with no word and no number. -/
theorem stops_blank {w rest : List Char} (hw : Blank w) (hrest : Stops isPart rest) :
    Stops isPart (w ++ rest) := by
  cases w with
  | nil => exact hrest
  | cons c w => exact stops_cons (not_isPart_of_isBlank (hw c (by simp))) _

theorem Stops.name {rest : List Char} (h : Stops isPart rest) : Stops isNameChar rest :=
  fun c hc => (Bool.or_eq_false_iff.1 (h c hc)).1

theorem Stops.number {rest : List Char} (h : Stops isPart rest) : Stops isNumberChar rest :=
  fun c hc => (Bool.or_eq_false_iff.1 (h c hc)).2

/-! ## Strings -/

theorem readString_cons {c : Char} (h : c ≠ '\\') (quote : Char) (rest : List Char) :
    readString quote (c :: rest) =
      if c == quote then .ok ([], rest)
      else do
        let (cs, left) ← readString quote rest
        return (c :: cs, left) := by
  rw [readString]
  · rintro ⟨⟩
    exact absurd rfl h
  · rintro _ _ ⟨⟩
    exact absurd rfl h

theorem Quoted.readString {quote : Char} {text s : List Char} (h : Quoted quote text s)
    (hquote : quote ≠ '\\') (rest : List Char) :
    Chain.readString quote (text ++ quote :: rest) = .ok (s, rest) := by
  induction h with
  | nil => rw [List.nil_append, readString_cons hquote, if_pos (by simp)]
  | raw hne hescape _ ih =>
    rw [List.cons_append, readString_cons hescape, if_neg (by simpa using hne), ih]
    rfl
  | lineBreak _ ih | tab _ ih =>
    rw [List.cons_append, List.cons_append, Chain.readString, ih]
    rfl
  | @escaped c _ _ hbreak htab _ ih =>
    have hsame : unescape c = c := by
      rw [unescape]
      · exact hbreak
      · exact htab
    rw [List.cons_append, List.cons_append, Chain.readString, ih]
    exact congrArg (fun d => Except.ok (d :: _, rest)) hsame

theorem Reading.bind_eq_ok {α β : Type} {x : Reading α} {f : α → Reading β} {b : β} :
    x >>= f = .ok b ↔ ∃ a, x = .ok a ∧ f a = .ok b := by
  cases x with
  | error err => simp [Bind.bind, Except.bind]
  | ok a => simp [Bind.bind, Except.bind]

theorem Quoted.escape {quote c : Char} {text s : List Char} (h : Quoted quote text s) :
    Quoted quote ('\\' :: c :: text) (unescape c :: s) := by
  rw [unescape.eq_def]
  split
  · exact .lineBreak h
  · exact .tab h
  · rename_i hbreak htab
    exact .escaped hbreak htab h

theorem quoted_of_readString {quote : Char} {cs s left : List Char}
    (h : readString quote cs = .ok (s, left)) :
    ∃ text, cs = text ++ quote :: left ∧ Quoted quote text s := by
  fun_induction readString quote cs generalizing s left with
  | case1 => cases h
  | case2 => cases h
  | case3 c rest ih =>
    rw [Reading.bind_eq_ok] at h
    obtain ⟨⟨found, left'⟩, hrest, h⟩ := h
    cases h
    obtain ⟨text, rfl, hquoted⟩ := ih hrest
    exact ⟨_, rfl, hquoted.escape⟩
  | case4 c rest hlone hpair hc =>
    cases h
    exact ⟨[], by rw [beq_iff_eq.1 hc]; rfl, .nil⟩
  | case5 c rest hlone hpair hc ih =>
    rw [Reading.bind_eq_ok] at h
    obtain ⟨⟨found, left'⟩, hrest, h⟩ := h
    cases h
    obtain ⟨text, rfl, hquoted⟩ := ih hrest
    refine ⟨_, rfl, .raw (by simpa using hc) ?_ hquoted⟩
    rintro rfl
    -- Something stands behind, so the escape is one.
    obtain ⟨d, tail, hd⟩ := List.exists_cons_of_ne_nil (List.append_ne_nil_of_right_ne_nil text
      (List.cons_ne_nil quote left))
    exact hpair d tail rfl hd

/-! ## Atoms -/

theorem Number.Spelled.numberChars {text : List Char} {n : Number} (h : Number.Spelled text n) :
    (∀ c ∈ text, isNumberChar c = true) ∧
      ∃ c tail, text = c :: tail ∧ (c = '-' ∨ c.isDigit = true) := by
  have hdigit : ∀ c : Char, c.isDigit = true → isNumberChar c = true := by
    intro c hc
    simp [Chain.isNumberChar, hc]
  obtain ⟨hwhole, -, hfraction, hexponent, -⟩ := h
  rename_i negative whole fractionText fraction exponentText exponent
  constructor
  · have hfractionChars : ∀ c ∈ fractionText, isNumberChar c = true := by
      cases hfraction with
      | absent => simp
      | point h =>
        rintro c (_ | ⟨_, hc⟩)
        · rfl
        · exact hdigit c (h.2 c hc)
    have hexponentChars : ∀ c ∈ exponentText, isNumberChar c = true := by
      cases hexponent with
      | absent => simp
      | plain he h =>
        rintro c (_ | ⟨_, hc⟩)
        · rcases he with rfl | rfl <;> rfl
        · exact hdigit c (h.2 c hc)
      | plus he h | minus he h =>
        rintro c (_ | ⟨_, _ | ⟨_, hc⟩⟩)
        · rcases he with rfl | rfl <;> rfl
        · rfl
        · exact hdigit c (h.2 c hc)
    intro c hc
    rcases List.mem_append.1 hc with hc | hc
    · cases negative with
      | false => cases hc
      | true => rw [List.mem_singleton.1 hc]; rfl
    rcases List.mem_append.1 hc with hc | hc
    · exact hdigit c (hwhole.2 c hc)
    rcases List.mem_append.1 hc with hc | hc
    · exact hfractionChars c hc
    · exact hexponentChars c hc
  · cases negative with
    | true => exact ⟨'-', _, rfl, .inl rfl⟩
    | false =>
      obtain ⟨d, ds, rfl⟩ := List.exists_cons_of_ne_nil hwhole.1
      exact ⟨d, _, rfl, .inr (hwhole.2 d (by simp))⟩

theorem readName_append {name rest : List Char} (hne : name ≠ [])
    (hname : ∀ c ∈ name, isNameChar c = true) (hrest : Stops isNameChar rest) :
    readName (name ++ rest) = .ok (String.ofList name, rest) := by
  obtain ⟨htake, hdrop⟩ := span_append hname hrest
  rw [readName, htake, hdrop]
  simp [hne]

theorem readName_eq_ok {cs left : List Char} {name : String}
    (h : readName cs = .ok (name, left)) : cs = name.toList ++ left := by
  rw [readName] at h
  split at h
  · cases h
  · cases h
    rw [String.toList_ofList, List.takeWhile_append_dropWhile]

theorem readNumber_append {text rest : List Char} {n : Number} (h : Number.Spelled text n)
    (hrest : Stops isNumberChar rest) : readNumber (text ++ rest) = .ok (.num n, rest) := by
  obtain ⟨htake, hdrop⟩ := span_append h.numberChars.1 hrest
  rw [readNumber, htake, hdrop, h.ofText?]

theorem readNumber_eq_ok {cs left : List Char} {v : Json} (h : readNumber cs = .ok (v, left)) :
    ∃ text, cs = text ++ left ∧ Json.Spelled text v := by
  rw [readNumber] at h
  split at h
  · rename_i n hn
    cases h
    exact ⟨_, List.takeWhile_append_dropWhile.symm, .number (Number.spelled_of_ofText? hn)⟩
  · cases h

theorem readWord_eq_ok {cs left : List Char} {v : Json} (h : readWord cs = .ok (v, left)) :
    ∃ text, cs = text ++ left ∧ Json.Spelled text v := by
  rw [readWord, Reading.bind_eq_ok] at h
  obtain ⟨⟨word, left'⟩, hname, h⟩ := h
  have hcs := readName_eq_ok hname
  dsimp only at h
  split at h
  · rename_i hword
    cases h
    exact ⟨_, hcs, by rw [beq_iff_eq.1 hword]; exact .truth⟩
  split at h
  · rename_i hword
    cases h
    exact ⟨_, hcs, by rw [beq_iff_eq.1 hword]; exact .falsehood⟩
  split at h
  · rename_i hword
    cases h
    exact ⟨_, hcs, by rw [beq_iff_eq.1 hword]; exact .null⟩
  · cases h

/-- How a value begins: with no white space, and with no bracket that closes. -/
theorem Json.Spelled.head {text : List Char} {v : Json} (h : Json.Spelled text v) :
    ∃ c tail, text = c :: tail ∧ Text.isBlank c = false ∧ c ≠ ')' ∧ c ≠ ']' := by
  cases h with
  | string hquote =>
    refine ⟨_, _, rfl, ?_⟩
    rcases hquote with rfl | rfl <;> decide
  | number h =>
    obtain ⟨c, tail, rfl, hc⟩ := h.numberChars.2
    have hpart : isPart c = true := by simp [isPart, h.numberChars.1 c (by simp)]
    refine ⟨c, tail, rfl, not_isBlank_of_isPart hpart, ?_, ?_⟩
    · rintro rfl
      exact absurd hpart (by decide)
    · rintro rfl
      exact absurd hpart (by decide)
  | truth | falsehood | null => exact ⟨_, _, rfl, by decide⟩
  | list => exact ⟨_, _, rfl, by decide⟩

theorem Blank.append {w w' : List Char} (h : Blank w) (h' : Blank w') : Blank (w ++ w') :=
  fun c hc => (List.mem_append.1 hc).elim (h c) (h' c)

theorem Json.AllSpelled.blank {w text : List Char} {values : List Json} (hw : Blank w)
    (h : Json.AllSpelled text values) : Json.AllSpelled (w ++ text) values := by
  cases h with
  | none h => exact .none (hw.append h)
  | one h hv h' => rw [← List.append_assoc]; exact .one (hw.append h) hv h'
  | more h hv h' hrest => rw [← List.append_assoc]; exact .more (hw.append h) hv h' hrest

/-- How values begin, if there is one: with no bracket that closes. -/
theorem Json.AllSpelled.head {text : List Char} {v : Json} {values : List Json}
    (h : Json.AllSpelled text (v :: values)) (rest : List Char) :
    ∃ c tail, skipBlank (text ++ rest) = c :: tail ∧ c ≠ ')' ∧ c ≠ ']' := by
  cases h with
  | one hw hv _ | more hw hv _ _ =>
    obtain ⟨c, tail, rfl, hc, hne⟩ := hv.head
    simp only [List.append_assoc, skipBlank_append hw, List.cons_append, skipBlank_cons hc]
    exact ⟨c, _, rfl, hne⟩

/-! ## What readers find -/

/-- What a reader finds is spelled by what it has taken. -/
theorem spelled_of_read (fuel : Nat) :
    (∀ cs v left, readValue fuel cs = .ok (v, left) →
      ∃ w text, cs = w ++ (text ++ left) ∧ Blank w ∧ Json.Spelled text v) ∧
    (∀ close cs values left, readList fuel close cs = .ok (values, left) →
      ∃ text, cs = text ++ close :: left ∧ Json.AllSpelled text values) ∧
    (∀ close cs values left, readItems fuel close cs = .ok (values, left) →
      ∃ text v rest, cs = text ++ close :: left ∧ values = v :: rest ∧
        Json.AllSpelled text values) := by
  induction fuel with
  | zero =>
    refine ⟨?_, ?_, ?_⟩ <;> intros <;> rename_i h <;> cases h
  | succ fuel ih =>
    obtain ⟨ihValue, ihList, ihItems⟩ := ih
    refine ⟨fun cs v left h => ?_, fun close cs values left h => ?_,
      fun close cs values left h => ?_⟩
    · obtain ⟨w, hw, hcs⟩ := exists_blank cs
      suffices hread : ∃ text, skipBlank cs = text ++ left ∧ Json.Spelled text v by
        obtain ⟨text, hskip, hspelled⟩ := hread
        exact ⟨w, text, by rw [← hskip]; exact hcs, hw, hspelled⟩
      rw [readValue] at h
      split at h
      · cases h
      rename_i c rest hskip
      rw [hskip]
      split at h
      · rename_i hquote
        rw [Reading.bind_eq_ok] at h
        obtain ⟨⟨s, left'⟩, hstring, h⟩ := h
        cases h
        obtain ⟨text, rfl, hquoted⟩ := quoted_of_readString hstring
        exact ⟨_, by simp, .string (by simpa using hquote) hquoted⟩
      split at h
      · rename_i hopen
        rw [Reading.bind_eq_ok] at h
        obtain ⟨⟨values, left'⟩, hlist, h⟩ := h
        cases h
        obtain ⟨text, rfl, hspelled⟩ := ihList _ _ _ _ hlist
        rw [beq_iff_eq.1 hopen]
        exact ⟨_, by simp, .list hspelled⟩
      split at h
      · exact readNumber_eq_ok h
      split at h
      · exact readWord_eq_ok h
      · cases h
    · obtain ⟨w, hw, hcs⟩ := exists_blank cs
      have hitems (h : readItems fuel close (skipBlank cs) = .ok (values, left)) :
          ∃ text, cs = text ++ close :: left ∧ Json.AllSpelled text values := by
        obtain ⟨text, _, _, hskip, -, hspelled⟩ := ihItems _ _ _ _ h
        exact ⟨w ++ text, by rw [List.append_assoc, ← hskip]; exact hcs, hspelled.blank hw⟩
      rw [readList] at h
      split at h
      · rename_i c rest hskip
        rw [hskip] at hcs hitems
        split at h
        · rename_i hclose
          cases h
          exact ⟨w, by rw [hcs, beq_iff_eq.1 hclose], .none hw⟩
        · exact hitems h
      · rename_i hskip
        rw [hskip] at hitems
        exact hitems h
    · rw [readItems, Reading.bind_eq_ok] at h
      obtain ⟨⟨v, left'⟩, hv, h⟩ := h
      obtain ⟨w, text, rfl, hw, hspelled⟩ := ihValue _ _ _ hv
      obtain ⟨w', hw', hleft⟩ := exists_blank left'
      dsimp only at h
      split at h
      · cases h
      rename_i c rest hskip
      rw [hskip] at hleft
      subst hleft
      split at h
      · rename_i hcomma
        rw [Reading.bind_eq_ok] at h
        obtain ⟨⟨values', left''⟩, hrest, h⟩ := h
        cases h
        obtain ⟨text', v', rest', rfl, rfl, hspelled'⟩ := ihItems _ _ _ _ hrest
        rw [beq_iff_eq.1 hcomma]
        exact ⟨_, _, _, by simp, rfl, .more hw hspelled hw' hspelled'⟩
      split at h
      · rename_i hclose
        cases h
        rw [beq_iff_eq.1 hclose]
        exact ⟨_, _, _, by simp, rfl, .one hw hspelled hw'⟩
      · cases h

/-! ## What is spelled is found -/

theorem not_isBlank_of_close {close : Char} (h : close = ')' ∨ close = ']') :
    Text.isBlank close = false := by
  rcases h with rfl | rfl <;> decide

/-- A bracket that closes goes on with no word and no number. -/
theorem stops_close {close : Char} (h : close = ')' ∨ close = ']') (rest : List Char) :
    Stops isPart (close :: rest) := by
  rcases h with rfl | rfl <;> exact stops_cons (by decide) _

theorem readName_word (word : String) {rest : List Char} (hne : word.toList ≠ [])
    (hword : ∀ c ∈ word.toList, isNameChar c = true) (hrest : Stops isNameChar rest) :
    readName (word.toList ++ rest) = .ok (word, rest) := by
  rw [readName_append hne hword hrest, String.ofList_toList]

theorem readWord_append (word : String) {v : Json} {rest : List Char}
    (hword : (word, v) ∈ [("true", .bool true), ("false", .bool false), ("null", .null)])
    (hrest : Stops isNameChar rest) : readWord (word.toList ++ rest) = .ok (v, rest) := by
  simp only [List.mem_cons, Prod.mk.injEq, List.not_mem_nil, or_false] at hword
  rcases hword with ⟨rfl, rfl⟩ | ⟨rfl, rfl⟩ | ⟨rfl, rfl⟩ <;>
    rw [readWord, readName_word _ (by decide) (by simp [isNameChar]) hrest] <;>
    rfl

/-- What is spelled is read back in front of any text that does not go on with it. -/
theorem read_of_spelled (fuel : Nat) :
    (∀ text v rest cs, Json.Spelled text v → Stops isPart rest → skipBlank cs = text ++ rest →
      3 * text.length ≤ fuel → readValue fuel cs = .ok (v, rest)) ∧
    (∀ text values rest close cs, Json.AllSpelled text values → close = ')' ∨ close = ']' →
      skipBlank cs = skipBlank (text ++ close :: rest) → 3 * text.length + 2 ≤ fuel →
      readList fuel close cs = .ok (values, rest)) ∧
    (∀ text v values rest close cs, Json.AllSpelled text (v :: values) →
      close = ')' ∨ close = ']' → skipBlank cs = skipBlank (text ++ close :: rest) →
      3 * text.length + 1 ≤ fuel → readItems fuel close cs = .ok (v :: values, rest)) := by
  induction fuel with
  | zero =>
    refine ⟨fun text v rest cs h _ _ hfuel => ?_, ?_, ?_⟩
    · obtain ⟨c, tail, rfl, -⟩ := h.head
      simp at hfuel
    all_goals omega
  | succ fuel ih =>
    obtain ⟨ihValue, ihList, ihItems⟩ := ih
    refine ⟨fun text v rest cs h hrest hcs hfuel => ?_,
      fun text values rest close cs h hclose hcs hfuel => ?_,
      fun text v values rest close cs h hclose hcs hfuel => ?_⟩
    · rw [readValue, hcs]
      cases h with
      | @string quote text s hquote h =>
        have hne : quote ≠ '\\' := by rcases hquote with rfl | rfl <;> decide
        have hstring : readString quote (text ++ [quote] ++ rest) = .ok (s, rest) := by
          rw [List.append_assoc]
          exact h.readString hne rest
        dsimp only [List.cons_append]
        rw [if_pos (by simpa using hquote), hstring]
        rfl
      | number h =>
        have hnumber := readNumber_append h hrest.number
        obtain ⟨c, tail, rfl, hc⟩ := h.numberChars.2
        dsimp only [List.cons_append] at hnumber ⊢
        have hquote : ¬(c == '\'' || c == '"') = true := by
          rintro hquote
          rcases hc with rfl | hc
          · cases hquote
          · rcases (by simpa using hquote : c = '\'' ∨ c = '"') with rfl | rfl <;> cases hc
        have hopen : ¬(c == '[') = true := by
          rintro hopen
          rw [beq_iff_eq.1 hopen] at hc
          revert hc
          decide
        rw [if_neg hquote, if_neg hopen, if_pos (by simpa using hc), hnumber]
      | truth => exact readWord_append "true" (by simp) hrest.name
      | falsehood => exact readWord_append "false" (by simp) hrest.name
      | null => exact readWord_append "null" (by simp) hrest.name
      | @list text values h =>
        have hlist : readList fuel ']' (text ++ [']'] ++ rest) = .ok (values, rest) := by
          refine ihList _ _ _ _ _ h (.inr rfl) (by simp) ?_
          simp at hfuel
          omega
        dsimp only [List.cons_append]
        rw [if_neg (by decide), if_pos (by decide), hlist]
        rfl
    · rw [readList, hcs]
      cases values with
      | nil =>
        cases h with
        | none hw =>
          rw [skipBlank_append hw, skipBlank_cons (not_isBlank_of_close hclose)]
          simp
      | cons v values =>
        have hitems := ihItems text v values rest close _ h hclose (skipBlank_skipBlank _) (by omega)
        obtain ⟨c, tail, htext, hround, hsquare⟩ := h.head (close :: rest)
        rw [htext] at hitems ⊢
        have hne : ¬(c == close) = true := by rcases hclose with rfl | rfl <;> simpa
        exact (if_neg hne).trans hitems
    · rw [readItems]
      cases h with
      | @one w text w' _ hw hv hw' =>
        have hskip : skipBlank cs = text ++ (w' ++ close :: rest) := by
          obtain ⟨c, tail, rfl, hc, -⟩ := hv.head
          rw [hcs, List.append_assoc, skipBlank_append hw, List.append_assoc, List.cons_append,
            skipBlank_cons hc]
        rw [ihValue _ _ _ _ hv (stops_blank hw' (stops_close hclose rest)) hskip
          (by simp at hfuel; omega)]
        have hne : ¬(close == ',') = true := by rcases hclose with rfl | rfl <;> decide
        simp only [Bind.bind, Except.bind, skipBlank_append hw',
          skipBlank_cons (not_isBlank_of_close hclose), if_neg hne, beq_self_eq_true, if_true]
        rfl
      | @more w text w' rest' _ v' values hw hv hw' hrest =>
        have hskip : skipBlank cs = text ++ (w' ++ ',' :: (rest' ++ close :: rest)) := by
          obtain ⟨c, tail, rfl, hc, -⟩ := hv.head
          simp only [hcs, List.append_assoc, skipBlank_append hw, List.cons_append,
            skipBlank_cons hc]
        rw [ihValue _ _ _ _ hv (stops_blank hw' (stops_cons (by decide) _)) hskip
          (by simp at hfuel; omega)]
        simp only [Bind.bind, Except.bind, skipBlank_append hw',
          skipBlank_cons (show Text.isBlank ',' = false by decide), beq_self_eq_true, if_true]
        rw [ihItems _ _ _ rest _ _ hrest hclose rfl (by simp at hfuel; omega)]
        rfl

/-! ## Calls -/

/-- How an operation is written: in characters of names, and with no `g` in front. -/
theorem Operation.name_chars (op : Operation) :
    (∃ c tail, op.name.toList = c :: tail ∧ c ≠ 'g') ∧
      ∀ c ∈ op.name.toList, isNameChar c = true := by
  cases op <;> exact ⟨⟨_, _, rfl, by decide⟩, by simp [Operation.name, isNameChar]⟩

theorem Operation.name_of_ofName? {name : String} {op : Operation}
    (h : Operation.ofName? name = some op) : op.name = name := by
  simpa using List.find?_some h

theorem readChar_eq_ok {want : Char} {cs left : List Char} (h : readChar want cs = .ok left) :
    ∃ w, Blank w ∧ cs = w ++ want :: left := by
  obtain ⟨w, hw, hcs⟩ := exists_blank cs
  rw [readChar] at h
  split at h
  · rename_i c rest hskip
    split at h
    · rename_i hc
      cases h
      exact ⟨w, hw, by rw [← beq_iff_eq.1 hc, ← hskip]; exact hcs⟩
    · cases h
  · cases h

theorem readCall_eq_ok {cs left : List Char} {call : Call} (h : readCall cs = .ok (call, left)) :
    ∃ text, cs = text ++ left ∧ Call.Spelled text call := by
  rw [readCall, Reading.bind_eq_ok] at h
  obtain ⟨⟨name, left'⟩, hname, h⟩ := h
  have hcs := readName_eq_ok hname
  dsimp only at h
  split at h
  · cases h
  rename_i op hop
  rw [Reading.bind_eq_ok] at h
  obtain ⟨inside, hopen, h⟩ := h
  rw [Reading.bind_eq_ok] at h
  obtain ⟨⟨arguments, left''⟩, hlist, h⟩ := h
  cases h
  obtain ⟨w, hw, rfl⟩ := readChar_eq_ok hopen
  obtain ⟨text, rfl, hspelled⟩ := (spelled_of_read _).2.1 _ _ _ _ hlist
  rw [hcs, ← Operation.name_of_ofName? hop]
  exact ⟨_, by simp, .call op hw hspelled⟩

theorem Call.Spelled.readCall {text : List Char} {call : Call} (h : Call.Spelled text call)
    (rest : List Char) : Chain.readCall (text ++ rest) = .ok (call, rest) := by
  obtain ⟨op, hw, harguments⟩ := h
  rename_i w text arguments
  obtain ⟨⟨c, tail, hname, -⟩, hchars⟩ := op.name_chars
  have hopen : Stops isPart ('(' :: (text ++ ')' :: rest)) := stops_cons (by decide) _
  have hlist : readList (3 * (text ++ ')' :: rest).length + 3) ')' (text ++ ')' :: rest) =
      .ok (arguments, rest) :=
    (read_of_spelled _).2.1 _ _ _ _ _ harguments (.inl rfl) rfl (by simp; omega)
  have hread := readName_word op.name (by simp [hname]) hchars (stops_blank hw hopen).name
  simp only [List.append_assoc, List.cons_append, List.nil_append]
  simp only [Chain.readCall, hread, Bind.bind, Except.bind, Operation.ofName?_name, readChar,
    skipBlank_append hw, skipBlank_cons (show Text.isBlank '(' = false by decide),
    beq_self_eq_true, if_true, hlist]
  rfl

/-- How a call begins: with no white space, and with no `g`. -/
theorem Call.Spelled.head {text : List Char} {call : Call} (h : Call.Spelled text call) :
    ∃ c tail, text = c :: tail ∧ Text.isBlank c = false ∧ c ≠ 'g' := by
  obtain ⟨op, -, -⟩ := h
  obtain ⟨⟨c, tail, hname, hg⟩, hchars⟩ := op.name_chars
  rw [hname] at hchars ⊢
  have hc : isPart c = true := by simp [isPart, hchars c (by simp)]
  exact ⟨c, _, rfl, not_isBlank_of_isPart hc, hg⟩

/-! ## Chains -/

theorem calls_of_readCalls {fuel : Nat} {cs : List Char} {chain : Chain}
    (h : readCalls fuel cs = .ok chain) : CallsSpelled cs chain := by
  induction fuel generalizing cs chain with
  | zero => cases h
  | succ fuel ih =>
    obtain ⟨w, hw, hcs⟩ := exists_blank cs
    rw [readCalls, Reading.bind_eq_ok] at h
    obtain ⟨⟨call, left⟩, hcall, h⟩ := h
    obtain ⟨text, hskip, hspelled⟩ := readCall_eq_ok hcall
    obtain ⟨w', hw', hleft⟩ := exists_blank left
    rw [hskip] at hcs
    rw [hleft] at hcs
    rw [hcs]
    dsimp only at h
    split at h
    · rename_i hend
      cases h
      rw [hend, List.append_nil]
      exact .last hw hspelled hw'
    · rename_i rest hdot
      rw [Reading.bind_eq_ok] at h
      obtain ⟨chain', hrest, h⟩ := h
      cases h
      rw [hdot]
      exact .more hw hspelled hw' (ih hrest)
    · cases h

theorem Chain.CallsSpelled.length_le {text : List Char} {chain : Chain}
    (h : CallsSpelled text chain) : chain.length ≤ text.length := by
  induction h with
  | last _ hcall _ =>
    obtain ⟨c, tail, rfl, -⟩ := hcall.head
    simp
    omega
  | more _ hcall _ _ ih =>
    simp
    omega

/-- Calls are read whatever white space stands in front. -/
theorem Chain.CallsSpelled.readCalls {text : List Char} {chain : Chain}
    (h : CallsSpelled text chain) {fuel : Nat} (hfuel : chain.length ≤ fuel) {cs : List Char}
    (hcs : skipBlank cs = skipBlank text) : Chain.readCalls fuel cs = .ok chain := by
  induction h generalizing fuel cs with
  | @last w text w' call hw hcall hw' =>
    obtain _ | fuel := fuel
    · simp at hfuel
    have hskip : skipBlank cs = text ++ w' := by
      obtain ⟨c, tail, rfl, hc, -⟩ := hcall.head
      rw [hcs, skipBlank_append hw, List.cons_append, skipBlank_cons hc]
    have hend : skipBlank w' = [] := by
      simpa [skipBlank] using skipBlank_append hw' []
    rw [Chain.readCalls, hskip, hcall.readCall]
    simp only [Bind.bind, Except.bind, hend]
    rfl
  | @more w text w' rest call chain hw hcall hw' _ ih =>
    obtain _ | fuel := fuel
    · simp at hfuel
    have hskip : skipBlank cs = text ++ (w' ++ '.' :: rest) := by
      obtain ⟨c, tail, rfl, hc, -⟩ := hcall.head
      rw [hcs, skipBlank_append hw, List.cons_append, skipBlank_cons hc]
    rw [Chain.readCalls, hskip, hcall.readCall]
    simp only [Bind.bind, Except.bind, skipBlank_append hw',
      skipBlank_cons (show Text.isBlank '.' = false by decide)]
    rw [ih (by simpa using hfuel) rfl]
    rfl

/-- Without a `g.` in front, calls are all there is. -/
theorem afterSource_calls {text : List Char} {chain : Chain} (h : CallsSpelled text chain) :
    afterSource (skipBlank text) = skipBlank text := by
  obtain ⟨c, tail, hskip, hg⟩ : ∃ c tail, skipBlank text = c :: tail ∧ c ≠ 'g' := by
    cases h with
    | last hw hcall _ | more hw hcall _ _ =>
      obtain ⟨c, tail, rfl, hc, hg⟩ := hcall.head
      simp only [skipBlank_append hw, List.cons_append, skipBlank_cons hc]
      exact ⟨c, _, rfl, hg⟩
  rw [hskip, afterSource]
  rintro rest ⟨⟩
  exact hg rfl

theorem Chain.Spelled.parse {text : String} {chain : Chain} (h : Chain.Spelled text chain) :
    Chain.parse text = .ok chain := by
  obtain ⟨w, calls, hw, htext, hcalls⟩ := h
  have hread : readCalls (text.toList.length + 1) (afterSource (skipBlank text.toList)) =
      .ok chain := by
    have hlength := hcalls.length_le
    rcases htext with htext | htext
    · rw [htext, skipBlank_append hw, afterSource_calls hcalls]
      exact hcalls.readCalls (by simp; omega) (skipBlank_skipBlank _)
    · rw [htext, skipBlank_append hw, skipBlank_cons (by decide)]
      exact hcalls.readCalls (by simp; omega) rfl
  rw [Chain.parse, hread]

theorem Chain.spelled_of_parse {text : String} {chain : Chain} (h : Chain.parse text = .ok chain) :
    Chain.Spelled text chain := by
  have hread : readCalls (text.toList.length + 1) (afterSource (skipBlank text.toList)) =
      .ok chain := by
    rw [Chain.parse] at h
    split at h
    · rename_i hread
      rw [hread, Except.ok.inj h]
    · cases h
    · cases h
  obtain ⟨w, hw, htext⟩ := exists_blank text.toList
  have hcalls := calls_of_readCalls hread
  rw [afterSource.eq_def] at hcalls
  split at hcalls
  · rename_i rest hsource
    exact ⟨w, rest, hw, .inr (by rw [← hsource]; exact htext), hcalls⟩
  · exact ⟨w, _, hw, .inl htext, hcalls⟩

/-- A text is read as a chain exactly where it spells that chain, and spells no other; what
spells none is refused, as no text of a chain or for the name of an operation. -/
theorem Chain.parse_spelled (text : String) :
    (∀ chain, Chain.parse text = .ok chain ↔ Chain.Spelled text chain) ∧
    {chain | Chain.Spelled text chain}.Subsingleton ∧
    ((∃ chain, Chain.Spelled text chain) ∨ ∃ err, Chain.parse text = .error err ∧
      (err.code = .dslSyntax ∨ err.code = .chainUnknownOperation)) := by
  refine ⟨fun chain => ⟨Chain.spelled_of_parse, Chain.Spelled.parse⟩, ?_, ?_⟩
  · intro chain h chain' h'
    have heq := (Chain.Spelled.parse h).symm.trans (Chain.Spelled.parse h')
    exact Except.ok.inj heq
  · rw [Chain.parse]
    split
    · rename_i chain hread
      refine .inl ⟨chain, Chain.spelled_of_parse ?_⟩
      rw [Chain.parse, hread]
    · exact .inr ⟨_, rfl, .inr rfl⟩
    · exact .inr ⟨_, rfl, .inl rfl⟩

example : Chain.parse " g.V( [1 , 'a\\n'] ) . count()" =
    .ok [⟨.vertices, [.arr [.num (.int 1), .str "a\n"]]⟩, ⟨.count, []⟩] := by cbv

end PropertyGraph
