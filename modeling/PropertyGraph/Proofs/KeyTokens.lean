/-
Facts about keys and patterns as lists of tokens. A key is the join of its tokens
(`Key.join_tokens`), so keys with the same tokens are the same; the text of a pattern
reads back as the pattern (`KeyPattern.parse_text`); and every key a pattern matches
begins with its stem (`KeyPattern.startsWith_stem`), so a scan of the keys behind the
stem misses none.
-/
import Mathlib
import PropertyGraph.Key.Pattern

namespace PropertyGraph

namespace Key

/-! ## Keys and their tokens -/

theorem joinChars_cons {t : List Char} {ts : List (List Char)} (h : ts ≠ []) :
    joinChars (t :: ts) = t ++ '.' :: joinChars ts := by
  cases ts with
  | nil => exact absurd rfl h
  | cons u us => rfl

theorem joinChars_append {ts us : List (List Char)} (ht : ts ≠ []) (hu : us ≠ []) :
    joinChars (ts ++ us) = joinChars ts ++ '.' :: joinChars us := by
  induction ts with
  | nil => exact absurd rfl ht
  | cons t ts ih =>
    by_cases h : ts = []
    · subst h
      simp [joinChars_cons hu, joinChars]
    · rw [List.cons_append, joinChars_cons (by simp [h]), ih h, joinChars_cons h]
      simp

/-- Joining what was cut gives the characters back. -/
theorem joinChars_cut (cs : List Char) : joinChars ((cut cs).1 :: (cut cs).2) = cs := by
  induction cs with
  | nil => rfl
  | cons c cs ih =>
    by_cases hc : c = '.'
    · subst hc
      simp only [cut, beq_self_eq_true, ite_true]
      rw [joinChars_cons (by simp), ih]
      rfl
    · simp only [cut, beq_iff_eq, hc, ite_false]
      cases h : (cut cs).2 with
      | nil => simpa [joinChars, h] using ih
      | cons u us =>
        rw [h, joinChars_cons (by simp)] at ih
        rw [joinChars_cons (by simp)]
        simpa using ih

theorem tokens_eq (key : String) :
    tokens key = ((cut key.toList).1 :: (cut key.toList).2).map String.ofList := rfl

/-- A key is the join of its tokens. -/
theorem join_tokens (key : String) : join (tokens key) = key := by
  have h : ((tokens key).map String.toList) = (cut key.toList).1 :: (cut key.toList).2 := by
    simp [tokens_eq, Function.comp_def]
  rw [join, h, joinChars_cut]
  exact String.ofList_toList

theorem tokens_injective {a b : String} (h : tokens a = tokens b) : a = b := by
  rw [← join_tokens a, ← join_tokens b, h]

theorem tokens_ne_nil (key : String) : tokens key ≠ [] := by simp [tokens_eq]

/-- The tokens of a joined key, for any list of tokens that is not empty. -/
theorem tokens_join_of_ne_nil {ts : List String} (hne : ts ≠ [])
    (h : ∀ t ∈ ts, '.' ∉ t.toList) : tokens (join ts) = ts := by
  cases ts with
  | nil => exact absurd rfl hne
  | cons t ts => exact tokens_join h

theorem startsWith_iff {key start : String} :
    startsWith key start = true ↔ ∃ rest, key.toList = start.toList ++ rest := by
  rw [startsWith, List.isPrefixOf_iff_prefix]
  constructor
  · rintro ⟨rest, h⟩
    exact ⟨rest, h.symm⟩
  · rintro ⟨rest, h⟩
    exact ⟨rest, h.symm⟩

theorem startsWith_self (key : String) : startsWith key key = true :=
  startsWith_iff.2 ⟨[], by simp⟩

theorem startsWith_empty (key : String) : startsWith key "" = true :=
  startsWith_iff.2 ⟨key.toList, by simp⟩

/-- A key with further tokens begins with its first tokens and a dot. -/
theorem startsWith_join {ts us : List String} (hu : us ≠ []) :
    startsWith (join (ts ++ us)) (join (ts ++ [""])) = true := by
  by_cases ht : ts = []
  · subst ht
    simpa [join, joinChars] using startsWith_empty _
  · refine startsWith_iff.2 ⟨joinChars (us.map String.toList), ?_⟩
    have h1 : ts.map String.toList ≠ [] := by simpa using ht
    have h2 : us.map String.toList ≠ [] := by simpa using hu
    simp only [join, List.map_append, String.toList_ofList]
    rw [joinChars_append h1 h2, joinChars_append h1 (by simp)]
    simp [joinChars]

/-! ## Tokens that name something -/

theorem ne_empty_of_isToken {t : String} (h : isToken t = true) : t ≠ "" := by
  rintro rfl
  exact absurd h (by decide)

theorem not_separator_of_isToken {t : String} (h : isToken t = true) {c : Char}
    (hc : c ∈ t.toList) : isSeparator c = false := by
  simp only [isToken, Bool.and_eq_true, Bool.not_eq_true', List.any_eq_false] at h
  simpa using h.2 c hc

theorem dot_not_mem_of_isToken {t : String} (h : isToken t = true) : '.' ∉ t.toList := by
  intro hc
  exact absurd (not_separator_of_isToken h hc) (by decide)

theorem no_wildcard_of_isToken {t : String} (h : isToken t = true) :
    (t.toList.any fun c => c == '*' || c == '>') = false := by
  rw [List.any_eq_false]
  intro c hc he
  have hs := not_separator_of_isToken h hc
  simp only [Bool.or_eq_true, beq_iff_eq] at he
  rcases he with rfl | rfl
  · exact absurd hs (by decide)
  · exact absurd hs (by decide)

theorem ne_star_of_isToken {t : String} (h : isToken t = true) : t ≠ "*" := by
  rintro rfl
  exact absurd h (by decide)

theorem ne_tail_of_isToken {t : String} (h : isToken t = true) : t ≠ ">" := by
  rintro rfl
  exact absurd h (by decide)

end Key

namespace Slot

/-- The literal of a slot is a token. -/
def IsNamed : Slot → Prop
  | .literal t => Key.isToken t = true
  | .any => True

theorem IsNamed.dot_not_mem {s : Slot} (h : s.IsNamed) : '.' ∉ s.text.toList := by
  cases s with
  | literal t => exact Key.dot_not_mem_of_isToken h
  | any => decide

end Slot

namespace KeyPattern

/-! ## Reading patterns back -/

/-- The tokens of the text of a pattern. -/
def spelling (p : KeyPattern) : List String :=
  p.slots.map Slot.text ++ if p.tail then [">"] else []

theorem ofTokens?_spelling {tail : Bool} {slots : List Slot} (h : ∀ s ∈ slots, s.IsNamed) :
    ofTokens? (slots.map Slot.text ++ if tail then [">"] else []) = .ok ⟨slots, tail⟩ := by
  induction slots with
  | nil => cases tail <;> rfl
  | cons s slots ih =>
    have ih := ih fun s hs => h s (List.mem_cons_of_mem _ hs)
    cases s with
    | any =>
      simp only [List.map_cons, List.cons_append, Slot.text, ofTokens?, ih]
      rfl
    | literal t =>
      have ht : Key.isToken t = true := h (.literal t) (by simp)
      simp only [List.map_cons, List.cons_append, Slot.text, ofTokens?, ih,
        Key.no_wildcard_of_isToken ht, beq_iff_eq, Key.ne_star_of_isToken ht,
        Key.ne_tail_of_isToken ht, String.isEmpty_iff, Key.ne_empty_of_isToken ht, ite_false]
      rfl

/-- A pattern of named slots reads back from its text. -/
theorem parse_text {p : KeyPattern} (h : ∀ s ∈ p.slots, s.IsNamed)
    (hne : p.slots ≠ [] ∨ p.tail = true) : parse p.text = .ok p := by
  have hts : p.spelling ≠ [] := by
    unfold spelling
    rcases hne with hne | hne
    · simp [hne]
    · simp [hne]
  have hdot : ∀ t ∈ p.spelling, '.' ∉ t.toList := by
    intro t ht
    simp only [spelling, List.mem_append, List.mem_map] at ht
    rcases ht with ⟨s, hs, rfl⟩ | ht
    · exact (h s hs).dot_not_mem
    · split at ht
      · simp only [List.mem_singleton] at ht
        subst ht
        decide
      · simp at ht
  have htokens : Key.tokens p.text = p.spelling := Key.tokens_join_of_ne_nil hts hdot
  have hread : ofTokens? (Key.tokens p.text) = .ok p := by
    rw [htokens]
    exact ofTokens?_spelling h
  have hnot : ¬ p.text.isEmpty = true := by
    intro he
    rw [String.isEmpty_iff] at he
    rw [he] at hread
    have : ofTokens? (Key.tokens "") = .error .emptyToken := rfl
    rw [this] at hread
    cases hread
  simp only [parse, hnot, hread]
  rfl

theorem parseAll_singleton {pattern : String} {p : KeyPattern} (h : parse pattern = .ok p) :
    parseAll [pattern] = .ok [p] := by
  simp only [parseAll, List.mapM_cons, h, List.mapM_nil]
  rfl

/-- A list of patterns is refused for one of them that is invalid. -/
theorem parseAll_error {patterns : List String} {err : Error}
    (h : parseAll patterns = .error err) :
    ∃ pattern ∈ patterns, ∃ fault, err = .refused (.patternInvalid pattern fault) := by
  induction patterns with
  | nil => cases h
  | cons pattern patterns ih =>
    rw [parseAll, List.mapM_cons] at h
    cases hparse : parse pattern with
    | error found =>
      rw [hparse] at h
      obtain rfl : found = err := Except.error.inj h
      rw [parse] at hparse
      generalize (if pattern.isEmpty = true then Except.error PatternFault.empty
        else ofTokens? (Key.tokens pattern)) = read at hparse
      cases read with
      | ok p => cases hparse
      | error fault => exact ⟨pattern, by simp, fault, (Except.error.inj hparse).symm⟩
    | ok p =>
      rw [hparse] at h
      cases hrest : patterns.mapM parse with
      | ok ps =>
        rw [hrest] at h
        cases h
      | error found =>
        rw [hrest] at h
        obtain rfl : found = err := Except.error.inj h
        obtain ⟨pattern', hmem, hfault⟩ := ih hrest
        exact ⟨pattern', List.mem_cons_of_mem _ hmem, hfault⟩

/-- Patterns that can each be read can be read together. -/
theorem exists_parseAll {patterns : List String}
    (h : ∀ pattern ∈ patterns, ∃ p, parse pattern = .ok p) : ∃ ps, parseAll patterns = .ok ps := by
  induction patterns with
  | nil => exact ⟨[], rfl⟩
  | cons pattern patterns ih =>
    obtain ⟨p, hp⟩ := h pattern List.mem_cons_self
    obtain ⟨ps, hps⟩ := ih fun q hq => h q (List.mem_cons_of_mem _ hq)
    refine ⟨p :: ps, ?_⟩
    rw [parseAll] at hps ⊢
    rw [List.mapM_cons, hp, hps]
    rfl

/-! ## What a pattern matches -/

/-- The tokens a pattern matches begin with its leading literals, and go on unless it is
exact. -/
theorem matchTokens_literals {tail : Bool} {slots : List Slot} {ts : List String}
    (h : matchTokens tail slots ts = true) :
    ∃ rest, ts = literals slots ++ rest ∧
      (rest = [] → (⟨slots, tail⟩ : KeyPattern).isExact = true) := by
  induction slots generalizing ts with
  | nil =>
    refine ⟨ts, rfl, ?_⟩
    rintro rfl
    simpa [matchTokens, isExact] using h
  | cons s slots ih =>
    cases ts with
    | nil => simp [matchTokens] at h
    | cons t ts =>
      simp only [matchTokens, Bool.and_eq_true] at h
      cases s with
      | any => exact ⟨t :: ts, rfl, by simp⟩
      | literal u =>
        obtain ⟨rest, rfl, hrest⟩ := ih h.2
        have hu : u = t := by simpa [Slot.accepts] using h.1
        refine ⟨rest, by simp [literals, hu], fun he => ?_⟩
        simpa [isExact] using hrest he

/-- Every key a pattern matches begins with its stem. -/
theorem startsWith_stem {p : KeyPattern} {key : String} (h : p.accepts key = true) :
    Key.startsWith key p.stem = true := by
  obtain ⟨rest, hts, hrest⟩ := matchTokens_literals h
  have hkey : key = Key.join (literals p.slots ++ rest) := by
    rw [← hts, Key.join_tokens]
  by_cases hnil : rest = []
  · have hexact : p.isExact = true := hrest hnil
    subst hnil
    simp only [List.append_nil] at hkey
    simp only [stem, hexact, ite_true]
    rw [hkey]
    exact Key.startsWith_self _
  · unfold stem
    split
    · rename_i hexact
      rw [hkey]
      refine Key.startsWith_iff.2 ?_
      by_cases hl : literals p.slots = []
      · exact ⟨_, by rw [hl]; rfl⟩
      · refine ⟨'.' :: Key.joinChars (rest.map String.toList), ?_⟩
        simp only [Key.join, List.map_append, String.toList_ofList]
        exact Key.joinChars_append (by simpa using hl) (by simpa using hnil)
    · rw [hkey]
      exact Key.startsWith_join hnil

end KeyPattern

end PropertyGraph
