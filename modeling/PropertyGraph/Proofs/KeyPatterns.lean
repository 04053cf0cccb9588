/-
What key patterns say. A text is read as a pattern if none of its tokens is empty and a wildcard is
a token of its own, with `>` at the end only (`KeyPattern.Spells`). The keys a pattern matches are
those whose tokens line up with the tokens of its text (`KeyPattern.Aligns`): nothing is asked of a
key beyond that, and the pattern with no wildcard is the one that matches a single key.
-/
import PropertyGraph.Proofs.KeyTokens

namespace PropertyGraph

namespace Key

/-- No piece of a cut text has a dot. -/
theorem dot_not_mem_cut (cs : List Char) : ∀ t ∈ (cut cs).1 :: (cut cs).2, '.' ∉ t := by
  induction cs with
  | nil => simp [cut]
  | cons c cs ih =>
    by_cases hc : c = '.'
    · subst hc
      simpa [cut] using ih
    · have hne : '.' ≠ c := fun e => hc e.symm
      simpa [cut, hc, hne] using ih

theorem dot_not_mem_tokens {key t : String} (h : t ∈ tokens key) : '.' ∉ t.toList := by
  rw [tokens_eq, List.mem_map] at h
  obtain ⟨cs, hcs, rfl⟩ := h
  simpa using dot_not_mem_cut key.toList cs hcs

/-- The tokens of a joined key are those of its parts, which may have dots themselves. -/
theorem tokens_join_flatMap {ts : List String} (hne : ts ≠ []) :
    tokens (join ts) = ts.flatMap tokens := by
  have hflat : ∀ {ts : List String}, ts ≠ [] → ts.flatMap tokens ≠ [] := by
    intro ts hts
    obtain ⟨t, us, rfl⟩ := List.exists_cons_of_ne_nil hts
    simp [tokens_ne_nil]
  have hjoin : join (ts.flatMap tokens) = join ts := by
    refine congrArg String.ofList ?_
    induction ts with
    | nil => rfl
    | cons t ts ih =>
      have ht : joinChars ((tokens t).map String.toList) = t.toList := by
        simpa [join] using congrArg String.toList (join_tokens t)
      rw [List.flatMap_cons, List.map_append, List.map_cons]
      by_cases hts : ts = []
      · subst hts
        simpa [joinChars] using ht
      · rw [joinChars_append (by simpa using tokens_ne_nil t) (by simpa using hflat hts), ih hts, ht,
          joinChars_cons (by simpa using hts)]
  rw [← hjoin]
  refine tokens_join_of_ne_nil (hflat hne) fun u hu => ?_
  obtain ⟨t, -, hu⟩ := List.mem_flatMap.1 hu
  exact dot_not_mem_tokens hu

end Key

namespace KeyPattern

/-! ## The texts that are patterns -/

/-- A token with a wildcard in it. -/
def HasWildcard (t : String) : Prop := '*' ∈ t.toList ∨ '>' ∈ t.toList

/-- A wildcard in a list of tokens is a token of its own, and `>` is the last one. -/
def WildcardsAlone (ts : List String) : Prop :=
  ∀ before t after, ts = before ++ t :: after → HasWildcard t → t = "*" ∨ t = ">" ∧ after = []

/-- The tokens of a pattern, one for each slot and a last one for a `>`. -/
inductive Spells : List String → KeyPattern → Prop
  | done : Spells [] ⟨[], false⟩
  | tail : Spells [">"] ⟨[], true⟩
  | any {ts : List String} {p : KeyPattern} (rest : Spells ts p) : Spells ("*" :: ts) (p.push .any)
  | literal {t : String} {ts : List String} {p : KeyPattern} (nonempty : t ≠ "")
      (plain : ¬ HasWildcard t) (rest : Spells ts p) : Spells (t :: ts) (p.push (.literal t))

variable {t text key : String} {ts us : List String} {p : KeyPattern}

theorem hasWildcard_iff : (t.toList.any fun c => c == '*' || c == '>') = true ↔ HasWildcard t := by
  simp only [HasWildcard, List.any_eq_true, Bool.or_eq_true, beq_iff_eq]
  constructor
  · rintro ⟨c, hc, rfl | rfl⟩
    · exact .inl hc
    · exact .inr hc
  · rintro (h | h)
    · exact ⟨'*', h, .inl rfl⟩
    · exact ⟨'>', h, .inr rfl⟩

theorem hasWildcard_star : HasWildcard "*" := .inl (by decide)

theorem hasWildcard_tail : HasWildcard ">" := .inr (by decide)

theorem ofTokens?_literal (hne : t ≠ "") (hplain : ¬ HasWildcard t) :
    ofTokens? (t :: ts) = (ofTokens? ts).map (push (.literal t)) := by
  have hstar : t ≠ "*" := fun e => hplain (e ▸ hasWildcard_star)
  have htail : t ≠ ">" := fun e => hplain (e ▸ hasWildcard_tail)
  simp only [ofTokens?, String.isEmpty_iff, hne, beq_iff_eq, hstar, htail, hasWildcard_iff, hplain,
    ite_false]

/-- Reading tokens finds the pattern they spell, and no other. -/
theorem ofTokens?_eq_ok : ofTokens? ts = .ok p ↔ Spells ts p := by
  constructor
  · intro h
    induction ts generalizing p with
    | nil =>
      cases h
      exact .done
    | cons t ts ih =>
      by_cases hempty : t = ""
      · subst hempty
        cases h
      by_cases hplain : HasWildcard t
      · by_cases hstar : t = "*"
        · subst hstar
          simp only [ofTokens?] at h
          cases hrest : ofTokens? ts with
          | error fault =>
            rw [hrest] at h
            cases h
          | ok q =>
            rw [hrest] at h
            cases h
            exact .any (ih hrest)
        · by_cases htail : t = ">"
          · subst htail
            cases ts with
            | nil =>
              cases h
              exact .tail
            | cons u us => cases h
          · simp only [ofTokens?, String.isEmpty_iff, hempty, beq_iff_eq, hstar, htail,
              hasWildcard_iff, hplain, ite_false, ite_true] at h
            cases h
      · rw [ofTokens?_literal hempty hplain] at h
        cases hrest : ofTokens? ts with
        | error fault =>
          rw [hrest] at h
          cases h
        | ok q =>
          rw [hrest] at h
          cases h
          exact .literal hempty hplain (ih hrest)
  · intro h
    induction h with
    | done => rfl
    | tail => rfl
    | any rest ih =>
      simp only [ofTokens?, ih]
      rfl
    | literal nonempty plain rest ih =>
      rw [ofTokens?_literal nonempty plain, ih]
      rfl

theorem WildcardsAlone.of_cons (h : WildcardsAlone (t :: ts)) : WildcardsAlone ts :=
  fun before u after e => h (t :: before) u after (by rw [e, List.cons_append])

theorem WildcardsAlone.cons (hhead : HasWildcard t → t = "*" ∨ t = ">" ∧ ts = [])
    (hrest : WildcardsAlone ts) : WildcardsAlone (t :: ts) := by
  intro before u after e
  cases before with
  | nil =>
    obtain ⟨rfl, rfl⟩ := List.cons.inj e
    exact hhead
  | cons b before =>
    obtain ⟨rfl, he⟩ := List.cons.inj e
    exact hrest before u after he

/-- The lists of tokens that spell a pattern. -/
theorem exists_spells : (∃ p, Spells ts p) ↔ "" ∉ ts ∧ WildcardsAlone ts := by
  constructor
  · rintro ⟨p, h⟩
    induction h with
    | done => exact ⟨by simp, fun before t after e => by simp at e⟩
    | tail => exact ⟨by decide, .cons (fun _ => .inr ⟨rfl, rfl⟩) fun b t a e => by simp at e⟩
    | any rest ih => exact ⟨by simpa using ih.1, .cons (fun _ => .inl rfl) ih.2⟩
    | literal nonempty plain rest ih =>
      exact ⟨by simpa [ih.1] using nonempty.symm, .cons (fun h => absurd h plain) ih.2⟩
  · rintro ⟨hempty, halone⟩
    induction ts with
    | nil => exact ⟨_, .done⟩
    | cons t ts ih =>
      obtain ⟨p, hp⟩ := ih (fun h => hempty (List.mem_cons_of_mem _ h)) halone.of_cons
      by_cases hplain : HasWildcard t
      · obtain rfl | ⟨rfl, rfl⟩ := halone [] t ts rfl hplain
        · exact ⟨_, .any hp⟩
        · exact ⟨_, .tail⟩
      · exact ⟨_, .literal (fun e => hempty (e ▸ List.mem_cons_self)) hplain hp⟩

theorem parse_eq_ok : parse text = .ok p ↔ text ≠ "" ∧ Spells (Key.tokens text) p := by
  rw [← ofTokens?_eq_ok, parse]
  by_cases hempty : text = ""
  · simp [hempty, Except.mapError]
  · have hne : ¬ text.isEmpty = true := by rwa [String.isEmpty_iff]
    simp only [hne]
    cases ofTokens? (Key.tokens text) with
    | error fault => simp [Except.mapError]
    | ok q => simp [Except.mapError, hempty]

/-- A pattern's text is made of the tokens that spell it. -/
theorem Spells.spelling (h : Spells ts p) : p.spelling = ts := by
  induction h with
  | done => rfl
  | tail => rfl
  | any rest ih => exact congrArg ("*" :: ·) ih
  | literal nonempty plain rest ih => exact congrArg (_ :: ·) ih

/-! ## The keys they match -/

/-- The tokens of a key line up with the tokens of a pattern: a literal with itself, `*` with a
token that is not empty, and a last `>` with all that is left, which begins with such a token. -/
inductive Aligns : List String → List String → Prop
  | done : Aligns [] []
  | tail {t : String} {ts : List String} (nonempty : t ≠ "") : Aligns [">"] (t :: ts)
  | any {t : String} {us ts : List String} (nonempty : t ≠ "") (rest : Aligns us ts) :
      Aligns ("*" :: us) (t :: ts)
  | literal {t : String} {us ts : List String} (plain : ¬ HasWildcard t) (rest : Aligns us ts) :
      Aligns (t :: us) (t :: ts)

theorem aligns_nil : Aligns [] ts ↔ ts = [] :=
  ⟨fun h => by cases h; rfl, fun e => e ▸ .done⟩

theorem aligns_cons {u : String} : Aligns (u :: us) ts ↔ ∃ t rest, ts = t :: rest ∧
    (u = ">" ∧ us = [] ∧ t ≠ "" ∨ u = "*" ∧ t ≠ "" ∧ Aligns us rest ∨
      u = t ∧ ¬ HasWildcard t ∧ Aligns us rest) := by
  constructor
  · intro h
    cases h with
    | tail nonempty => exact ⟨_, _, rfl, .inl ⟨rfl, rfl, nonempty⟩⟩
    | any nonempty rest => exact ⟨_, _, rfl, .inr (.inl ⟨rfl, nonempty, rest⟩)⟩
    | literal plain rest => exact ⟨_, _, rfl, .inr (.inr ⟨rfl, plain, rest⟩)⟩
  · rintro ⟨t, rest, rfl, ⟨rfl, rfl, ht⟩ | ⟨rfl, ht, h⟩ | ⟨rfl, ht, h⟩⟩
    · exact .tail ht
    · exact .any ht h
    · exact .literal ht h

theorem aligns_tail : Aligns [">"] ts ↔ ∃ t rest, ts = t :: rest ∧ t ≠ "" := by
  rw [aligns_cons]
  constructor
  · rintro ⟨t, rest, rfl, ⟨-, -, ht⟩ | ⟨he, -⟩ | ⟨rfl, ht, -⟩⟩
    · exact ⟨t, rest, rfl, ht⟩
    · exact absurd he (by decide)
    · exact absurd hasWildcard_tail ht
  · rintro ⟨t, rest, rfl, ht⟩
    exact ⟨t, rest, rfl, .inl ⟨rfl, rfl, ht⟩⟩

theorem aligns_any : Aligns ("*" :: us) ts ↔ ∃ t rest, ts = t :: rest ∧ t ≠ "" ∧ Aligns us rest := by
  rw [aligns_cons]
  constructor
  · rintro ⟨t, rest, rfl, ⟨he, -⟩ | ⟨-, ht, h⟩ | ⟨rfl, ht, -⟩⟩
    · exact absurd he (by decide)
    · exact ⟨t, rest, rfl, ht, h⟩
    · exact absurd hasWildcard_star ht
  · rintro ⟨t, rest, rfl, ht, h⟩
    exact ⟨t, rest, rfl, .inr (.inl ⟨rfl, ht, h⟩)⟩

theorem aligns_literal (hplain : ¬ HasWildcard t) :
    Aligns (t :: us) ts ↔ ∃ rest, ts = t :: rest ∧ Aligns us rest := by
  rw [aligns_cons]
  constructor
  · rintro ⟨t, rest, rfl, ⟨rfl, -⟩ | ⟨rfl, -⟩ | ⟨rfl, -, h⟩⟩
    · exact absurd hasWildcard_tail hplain
    · exact absurd hasWildcard_star hplain
    · exact ⟨rest, rfl, h⟩
  · rintro ⟨rest, rfl, h⟩
    exact ⟨t, rest, rfl, .inr (.inr ⟨rfl, hplain, h⟩)⟩

/-- The matcher accepts the tokens that line up with those of the pattern. -/
theorem Spells.matchTokens_iff (h : Spells us p) :
    matchTokens p.tail p.slots ts = true ↔ Aligns us ts := by
  induction h generalizing ts with
  | done =>
    rw [aligns_nil]
    cases ts with
    | nil => simp [matchTokens]
    | cons t ts => simp [matchTokens]
  | tail =>
    rw [aligns_tail]
    cases ts with
    | nil => simp [matchTokens]
    | cons t ts => simp [matchTokens]
  | any rest ih =>
    rw [aligns_any]
    cases ts with
    | nil => simp [push, matchTokens]
    | cons t ts => simpa [push, matchTokens, Slot.accepts, and_congr_right_iff] using fun _ => ih
  | literal nonempty plain rest ih =>
    rw [aligns_literal plain]
    cases ts with
    | nil => simp [push, matchTokens]
    | cons t ts =>
      simp only [push, matchTokens, Slot.accepts, Bool.and_eq_true, beq_iff_eq, List.cons.injEq]
      constructor
      · rintro ⟨rfl, h⟩
        exact ⟨_, ⟨rfl, rfl⟩, ih.1 h⟩
      · rintro ⟨_, ⟨rfl, rfl⟩, h⟩
        exact ⟨rfl, ih.2 h⟩

/-- A pattern matches its own text: a wildcard is a token like any other in a key. -/
theorem Spells.aligns_self (h : Spells ts p) : Aligns ts ts := by
  induction h with
  | done => exact .done
  | tail => exact .tail (by decide)
  | any rest ih => exact .any (by decide) ih
  | literal nonempty plain rest ih => exact .literal plain ih

/-- The tokens of a pattern with a letter in the place of each wildcard. -/
def filled (ts : List String) : List String := ts.map fun t => if t = "*" ∨ t = ">" then "a" else t

theorem Spells.aligns_filled (h : Spells ts p) : Aligns ts (filled ts) := by
  induction h with
  | done => exact .done
  | tail => exact .tail (by decide)
  | any rest ih => exact .any (by decide) ih
  | @literal t ts p nonempty plain rest ih =>
    have hstar : t ≠ "*" := fun e => plain (e ▸ hasWildcard_star)
    have htail : t ≠ ">" := fun e => plain (e ▸ hasWildcard_tail)
    have hfilled : filled (t :: ts) = t :: filled ts := by simp [filled, hstar, htail]
    rw [hfilled]
    exact .literal plain ih

/-- Tokens without a wildcard line up with themselves alone. -/
theorem Spells.eq_of_aligns (h : Spells us p) (hexact : p.isExact = true) (ha : Aligns us ts) :
    ts = us := by
  induction h generalizing ts with
  | done => exact aligns_nil.1 ha
  | tail => simp [isExact] at hexact
  | any rest ih => simp [isExact, push] at hexact
  | literal nonempty plain rest ih =>
    obtain ⟨rest', rfl, ha'⟩ := (aligns_literal plain).1 ha
    rw [ih (by simpa [isExact, push] using hexact) ha']

/-- Tokens that stay the same with each wildcard filled in have none. -/
theorem Spells.isExact_of_filled (h : Spells ts p) (he : filled ts = ts) : p.isExact = true := by
  induction h with
  | done => rfl
  | tail => exact absurd he (by decide)
  | any rest ih => exact absurd (List.cons.inj he).1 (by decide)
  | literal nonempty plain rest ih => simpa [isExact, push] using ih (List.cons.inj he).2

theorem Spells.isExact_of_forall (h : Spells (Key.tokens text) p)
    (honly : ∀ key, p.accepts key = true → key = text) : p.isExact = true := by
  -- the key that the text becomes with its wildcards filled in is matched too
  have hdot : ∀ t ∈ filled (Key.tokens text), '.' ∉ t.toList := by
    intro t ht
    obtain ⟨u, hu, rfl⟩ := List.mem_map.1 ht
    split
    · decide
    · exact Key.dot_not_mem_tokens hu
  have hne : filled (Key.tokens text) ≠ [] := by simpa [filled] using Key.tokens_ne_nil text
  have htokens : Key.tokens (Key.join (filled (Key.tokens text))) = filled (Key.tokens text) :=
    Key.tokens_join_of_ne_nil hne hdot
  have hkey : Key.join (filled (Key.tokens text)) = text := by
    refine honly _ ?_
    rw [accepts, htokens, h.matchTokens_iff]
    exact h.aligns_filled
  refine h.isExact_of_filled ?_
  rw [← htokens, hkey]

/-- Exactly the texts without empty tokens whose wildcards stand alone are read, each as a pattern
that matches the keys whose tokens line up with its own, that begin with its stem, and only the
text itself if and only if it is exact. -/
theorem parse_spec (text : String) :
    ((∃ p, parse text = .ok p) ↔
      text ≠ "" ∧ "" ∉ Key.tokens text ∧ WildcardsAlone (Key.tokens text)) ∧
    ∀ p, parse text = .ok p →
      p.text = text ∧
      (∀ key, p.accepts key = true ↔ Aligns (Key.tokens text) (Key.tokens key)) ∧
      (∀ key, p.accepts key = true → Key.startsWith key p.stem = true) ∧
      (p.isExact = true ↔ ∀ key, p.accepts key = true ↔ key = text) := by
  refine ⟨?_, fun p hp => ?_⟩
  · simp only [parse_eq_ok, exists_and_left, exists_spells]
  · obtain ⟨-, h⟩ := parse_eq_ok.1 hp
    have haccepts : ∀ key, p.accepts key = true ↔ Aligns (Key.tokens text) (Key.tokens key) :=
      fun key => h.matchTokens_iff
    refine ⟨?_, haccepts, fun key => startsWith_stem, fun hexact key => ⟨fun hkey => ?_, ?_⟩,
      fun honly => h.isExact_of_forall fun key => (honly key).1⟩
    · exact (congrArg Key.join h.spelling).trans (Key.join_tokens text)
    · exact Key.tokens_injective (h.eq_of_aligns hexact ((haccepts key).1 hkey))
    · rintro rfl
      exact (haccepts key).2 h.aligns_self

theorem parse_spec_tail : parse "node.>" = .ok ⟨[.literal "node"], true⟩ ∧
    Aligns (Key.tokens "node.>") (Key.tokens "node.a.property.age") ∧
    ¬ ∀ key, accepts ⟨[.literal "node"], true⟩ key = true ↔ key = "node.>" := by
  have hparse : parse "node.>" = .ok ⟨[.literal "node"], true⟩ := by decide
  obtain ⟨-, haccepts, -, hexact⟩ := (parse_spec "node.>").2 _ hparse
  exact ⟨hparse, (haccepts _).1 (by decide), fun honly => absurd (hexact.2 honly) (by decide)⟩

end KeyPattern

end PropertyGraph
