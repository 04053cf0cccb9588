/-
The texts of numbers. `Number.Spelled` is the grammar of JSON: a sign, whole digits without a
leading zero, a fraction and an exponent. The reader takes exactly the texts of this grammar that
no double is too small for, and finds the number of their parts (`Number.ofText?_eq_some_iff`).
-/
import PropertyGraph.Json.Number
import Mathlib.Data.Option.Basic

namespace PropertyGraph

/-! ## Runs of characters -/

/-- A run of characters of a kind does not go on into a text. -/
def Stops (kind : Char → Bool) (rest : List Char) : Prop :=
  ∀ c, rest.head? = some c → kind c = false

theorem stops_cons {kind : Char → Bool} {c : Char} (h : kind c = false) (rest : List Char) :
    Stops kind (c :: rest) := by
  intro d hd
  rwa [← Option.some.inj hd]

theorem stops_nil (kind : Char → Bool) : Stops kind [] := fun _ h => by cases h

/-- What is taken, and what is left, of a run that ends where it should. -/
theorem span_append {kind : Char → Bool} {cs rest : List Char} (hcs : ∀ c ∈ cs, kind c = true)
    (hrest : Stops kind rest) :
    (cs ++ rest).takeWhile kind = cs ∧ (cs ++ rest).dropWhile kind = rest := by
  rw [List.takeWhile_append_of_pos hcs, List.dropWhile_append_of_pos hcs]
  cases rest with
  | nil => simp
  | cons c rest => simp [hrest c rfl]

theorem mem_takeWhile {kind : Char → Bool} {cs : List Char} {c : Char}
    (h : c ∈ cs.takeWhile kind) : kind c = true :=
  List.all_eq_true.1 List.all_takeWhile c h

namespace Number

/-! ## The grammar -/

/-- One decimal digit or more. -/
def Digits (cs : List Char) : Prop := cs ≠ [] ∧ ∀ c ∈ cs, c.isDigit = true

/-- The number that decimal digits stand for. -/
def decimal (ds : List Char) : Nat := ds.foldl (fun n c => n * 10 + digit c) 0

/-- The text of a fraction, with its digits. -/
inductive Fraction : List Char → List Char → Prop
  | absent : Fraction [] []
  | point {ds : List Char} (h : Digits ds) : Fraction ('.' :: ds) ds

/-- The text of an exponent, with its value. -/
inductive Exponent : List Char → Option Int → Prop
  | absent : Exponent [] none
  | plain {e : Char} {ds : List Char} (he : e = 'e' ∨ e = 'E') (h : Digits ds) :
    Exponent (e :: ds) (some (decimal ds))
  | plus {e : Char} {ds : List Char} (he : e = 'e' ∨ e = 'E') (h : Digits ds) :
    Exponent (e :: '+' :: ds) (some (decimal ds))
  | minus {e : Char} {ds : List Char} (he : e = 'e' ∨ e = 'E') (h : Digits ds) :
    Exponent (e :: '-' :: ds) (some (-decimal ds))

/-- The text of a number. A zero in front of the point stands there alone. -/
inductive Spelled : List Char → Number → Prop
  | parts {negative : Bool} {whole fractionText fraction exponentText : List Char}
    {exponent : Option Int} {n : Number} (hwhole : Digits whole)
    (hzero : whole.head? = some '0' → whole.length = 1) (hfraction : Fraction fractionText fraction)
    (hexponent : Exponent exponentText exponent)
    (hvalue : ofParts? negative whole fraction exponent = some n) :
    Spelled ((if negative then ['-'] else []) ++ (whole ++ (fractionText ++ exponentText))) n

/-! ## Reading the parts -/

theorem Digits.isEmpty {ds : List Char} (h : Digits ds) : ds.isEmpty = false := by
  simpa using h.1

theorem spanDigits_append {ds rest : List Char} (hds : ∀ c ∈ ds, c.isDigit = true)
    (hrest : Stops Char.isDigit rest) : spanDigits (ds ++ rest) = (ds, rest) := by
  obtain ⟨htake, hdrop⟩ := span_append hds hrest
  rw [spanDigits, htake, hdrop]

theorem spanDigits_eq {cs ds rest : List Char} (h : spanDigits cs = (ds, rest)) :
    cs = ds ++ rest ∧ ∀ c ∈ ds, c.isDigit = true := by
  rw [spanDigits, Prod.mk.injEq] at h
  obtain ⟨rfl, rfl⟩ := h
  exact ⟨List.takeWhile_append_dropWhile.symm, fun c hc => mem_takeWhile hc⟩

theorem fraction?_append {text ds rest : List Char} (h : Fraction text ds)
    (hdigit : Stops Char.isDigit rest) (hpoint : rest.head? ≠ some '.') :
    fraction? (text ++ rest) = some (ds, rest) := by
  cases h with
  | absent =>
    cases rest with
    | nil => rfl
    | cons c rest =>
      rw [List.nil_append, fraction?]
      rintro rest' ⟨⟩
      exact hpoint rfl
  | point h =>
    rw [List.cons_append, fraction?, spanDigits_append h.2 hdigit]
    simp [h.isEmpty]

theorem fraction?_eq_some {cs ds rest : List Char} (h : fraction? cs = some (ds, rest)) :
    ∃ text, cs = text ++ rest ∧ Fraction text ds := by
  rw [fraction?.eq_def] at h
  split at h
  · rename_i tail
    simp only at h
    split at h
    · cases h
    · rename_i hne
      cases h
      obtain ⟨hcs, hds⟩ := spanDigits_eq (Prod.eta (spanDigits tail)).symm
      exact ⟨_, congrArg ('.' :: ·) hcs, .point ⟨by simpa using hne, hds⟩⟩
  · cases h
    exact ⟨[], rfl, .absent⟩

/-- The characters that may go on with a number. -/
def continues (c : Char) : Bool := c.isDigit || c == '.' || c == 'e' || c == 'E'

theorem stops_isDigit {rest : List Char} (h : Stops continues rest) : Stops Char.isDigit rest := by
  intro c hc
  have := h c hc
  simp only [continues, Bool.or_eq_false_iff] at this
  exact this.1.1.1

theorem exponent?_append {text rest : List Char} {value : Option Int} (h : Exponent text value)
    (hrest : Stops continues rest) : exponent? (text ++ rest) = some (value, rest) := by
  have hdigit := stops_isDigit hrest
  cases h with
  | absent =>
    cases rest with
    | nil => rfl
    | cons c rest =>
      have hc := hrest c rfl
      simp only [continues, Bool.or_eq_false_iff] at hc
      simp [exponent?, hc.1.2, hc.2]
  | @plain e ds he h =>
    have hmark : (e == 'e' || e == 'E') = true := by simpa using he
    -- A digit stands behind the mark, so no sign does.
    obtain ⟨d, tail, rfl⟩ := List.exists_cons_of_ne_nil h.1
    have hd : d.isDigit = true := h.2 d (by simp)
    have hspan := spanDigits_append h.2 hdigit
    rw [List.cons_append] at hspan ⊢
    rw [List.cons_append, exponent?, if_pos hmark, hspan]
    · simp [decimal]
    · rintro rest ⟨⟩
      exact absurd hd (by decide)
    · rintro rest ⟨⟩
      exact absurd hd (by decide)
  | @plus e ds he h =>
    have hmark : (e == 'e' || e == 'E') = true := by simpa using he
    rw [List.cons_append, List.cons_append, exponent?, if_pos hmark, spanDigits_append h.2 hdigit]
    simp [decimal, h.isEmpty]
  | @minus e ds he h =>
    have hmark : (e == 'e' || e == 'E') = true := by simpa using he
    rw [List.cons_append, List.cons_append, exponent?, if_pos hmark, spanDigits_append h.2 hdigit]
    simp [decimal, h.isEmpty]

theorem digits_of_spanDigits {cs : List Char} (hne : ¬ (spanDigits cs).1.isEmpty = true)
    (hrest : (spanDigits cs).2 = []) : (spanDigits cs).1 = cs ∧ Digits cs := by
  obtain ⟨hcs, hds⟩ := spanDigits_eq (Prod.eta (spanDigits cs)).symm
  rw [hrest, List.append_nil] at hcs
  rw [← hcs] at hds hne ⊢
  exact ⟨rfl, by simpa using hne, hds⟩

theorem exponent?_eq_some {cs : List Char} {value : Option Int}
    (h : exponent? cs = some (value, [])) : Exponent cs value := by
  rw [exponent?.eq_def] at h
  split at h
  · rename_i e tail
    split at h
    · rename_i hmark
      have he : e = 'e' ∨ e = 'E' := by simpa using hmark
      split at h
      rename_i negative rest hsign
      simp only at h
      split at h
      · cases h
      · rename_i hne
        simp only [Option.some.injEq, Prod.mk.injEq] at h
        obtain ⟨rfl, hrest⟩ := h
        obtain ⟨hds, hdigits⟩ := digits_of_spanDigits hne hrest
        rw [hds]
        split at hsign
        · cases hsign
          exact .plus he hdigits
        · cases hsign
          exact .minus he hdigits
        · cases hsign
          exact .plain he hdigits
    · cases h
  · cases h
    exact .absent

/-! ## Whole texts -/

/-- Digits that may stand in front of the point. -/
def isWhole (ds : List Char) : Bool := !ds.isEmpty && (ds.head? != some '0' || ds.length == 1)

/-- Reading a number behind its sign. -/
theorem read?_signed {negative : Bool} {cs : List Char}
    (hsign : negative = false → cs.head? ≠ some '-') :
    read? ((if negative then ['-'] else []) ++ cs) = (do
      guard (isWhole (spanDigits cs).1 = true)
      let (fraction, left) ← fraction? (spanDigits cs).2
      let (exponent, left) ← exponent? left
      return (← ofParts? negative (spanDigits cs).1 fraction exponent, left)) := by
  cases negative with
  | true => rfl
  | false =>
    cases cs with
    | nil => rfl
    | cons c tail =>
      have hc : c ≠ '-' := fun h => hsign rfl (by rw [h]; rfl)
      rw [if_neg (by simp), List.nil_append, read?]
      · rfl
      · exact fun rest h => hc (List.cons.inj h).1

/-- The sign of a text, and what stands behind it. -/
theorem exists_sign (cs : List Char) : ∃ (negative : Bool) (tail : List Char),
    cs = (if negative then ['-'] else []) ++ tail ∧ (negative = false → tail.head? ≠ some '-') := by
  by_cases h : cs.head? = some '-'
  · obtain ⟨tail, rfl⟩ := List.head?_eq_some_iff.1 h
    exact ⟨true, tail, rfl, by simp⟩
  · exact ⟨false, cs, rfl, fun _ => h⟩

theorem ofText?_eq_read? {cs : List Char} {n : Number} :
    ofText? cs = some n ↔ read? cs = some (n, []) := by
  rw [ofText?]
  split
  · rename_i hr
    simp [hr]
  · rename_i hr
    simpa using hr n

/-- What is read as a number spells it. -/
theorem spelled_of_ofText? {cs : List Char} {n : Number} (h : ofText? cs = some n) :
    Spelled cs n := by
  obtain ⟨negative, tail, rfl, hsign⟩ := exists_sign cs
  rw [ofText?_eq_read?, read?_signed hsign] at h
  obtain ⟨_, hguard, h⟩ := Option.bind_eq_some_iff.1 h
  obtain ⟨⟨fraction, left⟩, hfraction, h⟩ := Option.bind_eq_some_iff.1 h
  obtain ⟨⟨exponent, left'⟩, hexponent, h⟩ := Option.bind_eq_some_iff.1 h
  obtain ⟨n', hvalue, h⟩ := Option.bind_eq_some_iff.1 h
  have hguard : isWhole (spanDigits tail).1 = true := by
    cases hw : isWhole (spanDigits tail).1 with
    | true => rfl
    | false =>
      rw [hw] at hguard
      exact absurd hguard.symm (Option.some_ne_none _)
  cases h
  obtain ⟨htail, hwhole⟩ := spanDigits_eq (Prod.eta (spanDigits tail)).symm
  obtain ⟨fractionText, hleft, hfraction⟩ := fraction?_eq_some hfraction
  rw [isWhole, Bool.and_eq_true, Bool.or_eq_true] at hguard
  rw [hleft] at htail
  rw [htail]
  refine .parts ⟨by simpa using hguard.1, hwhole⟩ (fun hzero => ?_) hfraction
    (exponent?_eq_some hexponent) hvalue
  rcases hguard.2 with hne | hone
  · simp [hzero] at hne
  · simpa using hone

/-- What stands behind the fraction ends its digits, and is no point. -/
theorem Exponent.stops {text rest : List Char} {value : Option Int} (h : Exponent text value)
    (hrest : Stops continues rest) :
    Stops Char.isDigit (text ++ rest) ∧ (text ++ rest).head? ≠ some '.' := by
  have hmark : ∀ e : Char, e = 'e' ∨ e = 'E' → e.isDigit = false ∧ e ≠ '.' := by
    rintro e (rfl | rfl) <;> decide
  cases h with
  | absent =>
    refine ⟨stops_isDigit hrest, fun hpoint => ?_⟩
    have := hrest _ hpoint
    simp [continues] at this
  | plain he | plus he | minus he =>
    exact ⟨stops_cons (hmark _ he).1 _, by simpa using (hmark _ he).2⟩

/-- What spells a number is read as it, up to what cannot go on with a number. -/
theorem Spelled.read?_append {cs rest : List Char} {n : Number} (h : Spelled cs n)
    (hrest : Stops continues rest) : read? (cs ++ rest) = some (n, rest) := by
  obtain ⟨hwhole, hzero, hfraction, hexponent, hvalue⟩ := h
  rename_i negative whole fractionText fraction exponentText exponent
  obtain ⟨hdigit, hpoint⟩ := hexponent.stops hrest
  have hstops : Stops Char.isDigit (fractionText ++ (exponentText ++ rest)) := by
    cases hfraction with
    | absent => exact hdigit
    | point => exact stops_cons (by decide) _
  have hspan := spanDigits_append hwhole.2 hstops
  obtain ⟨d, ds, rfl⟩ := List.exists_cons_of_ne_nil hwhole.1
  have hd : d ≠ '-' := fun heq => absurd (hwhole.2 d (by simp)) (by rw [heq]; decide)
  have hguard : isWhole (d :: ds) = true := by
    by_cases hd : d = '0'
    · have hone : (d :: ds).length = 1 := hzero (by rw [hd]; rfl)
      rw [isWhole, hone]
      simp
    · simp [isWhole, hd]
  simp only [List.append_assoc] at hspan ⊢
  rw [read?_signed (fun _ => by simpa using hd), hspan]
  refine Option.bind_eq_some_iff.2 ⟨(), ?_, ?_⟩
  · show guard (isWhole (d :: ds) = true) = some ()
    rw [hguard]
    rfl
  refine Option.bind_eq_some_iff.2 ⟨_, fraction?_append hfraction hdigit hpoint, ?_⟩
  refine Option.bind_eq_some_iff.2 ⟨_, exponent?_append hexponent hrest, ?_⟩
  exact Option.bind_eq_some_iff.2 ⟨n, hvalue, rfl⟩

theorem Spelled.ofText? {cs : List Char} {n : Number} (h : Spelled cs n) :
    Number.ofText? cs = some n := by
  have hread := h.read?_append (stops_nil _)
  rw [List.append_nil] at hread
  exact ofText?_eq_read?.2 hread

/-- A text is read as a number exactly where it spells that number. -/
theorem ofText?_eq_some_iff {cs : List Char} {n : Number} : Number.ofText? cs = some n ↔ Spelled cs n :=
  ⟨spelled_of_ofText?, Spelled.ofText?⟩

/-- A number starts with its sign or a digit. -/
theorem Spelled.head {cs : List Char} {n : Number} (h : Spelled cs n) :
    ∃ c tail, cs = c :: tail ∧ (c = '-' ∨ c.isDigit = true) := by
  obtain ⟨hwhole, -, -, -, -⟩ := h
  rename_i negative whole fractionText fraction exponentText exponent
  obtain ⟨d, ds, rfl⟩ := List.exists_cons_of_ne_nil hwhole.1
  cases negative with
  | true => exact ⟨'-', _, rfl, .inl rfl⟩
  | false => exact ⟨d, _, rfl, .inr (hwhole.2 d (by simp))⟩

/-! ## Integers -/

theorem digits_digitsOf (n : Nat) : Digits (digitsOf n) :=
  ⟨Nat.toDigits_ne_nil, fun _ hc => Nat.isDigit_of_mem_toDigits (by decide) (by decide) hc⟩

/-- No digits but those of zero start with a zero. -/
theorem head?_digitsOf {n : Nat} (h : 0 < n) : (digitsOf n).head? ≠ some '0' := by
  induction n using Nat.strongRecOn with
  | _ n ih =>
  rw [digitsOf]
  by_cases hn : n < 10
  · rw [Nat.toDigits_of_lt_base hn]
    have hall : ∀ d : Fin 10, 0 < d.val → [Nat.digitChar d.val].head? ≠ some '0' := by decide
    exact hall ⟨n, hn⟩ h
  · have hrest := ih (n / 10) (by omega) (by omega)
    obtain ⟨d, ds, hds⟩ := List.exists_cons_of_ne_nil (digits_digitsOf (n / 10)).1
    rw [hds] at hrest
    rw [Nat.toDigits_of_base_le (by decide) (Nat.not_lt.1 hn), ← digitsOf, hds]
    exact hrest

/-- Digits whose value is an integer of JSON are all taken. -/
theorem gather_eq {ds : List Char} {significand : Nat}
    (h : Nat.ofDigitChars 10 ds significand ≤ maxInt) :
    gather significand ds = (Nat.ofDigitChars 10 ds significand, 0) := by
  have hle : ∀ (ds : List Char) s, s ≤ Nat.ofDigitChars 10 ds s := by
    intro ds
    induction ds with
    | nil => exact fun s => Nat.le_refl s
    | cons c ds ih =>
      intro s
      have := ih (10 * s + (c.toNat - '0'.toNat))
      rw [Nat.ofDigitChars_cons]
      omega
  induction ds generalizing significand with
  | nil => rfl
  | cons c ds ih =>
    have hsame : significand * 10 + digit c = 10 * significand + (c.toNat - '0'.toNat) := by
      rw [digit]
      omega
    rw [Nat.ofDigitChars_cons] at h ⊢
    have hfits := hle ds (10 * significand + (c.toNat - '0'.toNat))
    rw [gather, hsame, if_pos (by omega), ih h]

/-- An integer of JSON reads back. -/
theorem ofText?_int {i : Int} (hlow : -9223372036854775808 ≤ i) (hhigh : i ≤ maxInt) :
    ofText? (Number.int i).text = some (.int i) := by
  have hvalue : Nat.ofDigitChars 10 (digitsOf i.natAbs) 0 = i.natAbs := Nat.ofDigitChars_ten_toDigits
  have hgather : gather 0 (digitsOf i.natAbs) = _ := gather_eq (by
    rw [hvalue, maxInt]
    rw [maxInt] at hhigh
    omega)
  rw [hvalue] at hgather
  have hzero : (digitsOf i.natAbs).head? = some '0' → (digitsOf i.natAbs).length = 1 := by
    intro hhead
    have hnat : i.natAbs = 0 := by
      by_contra hne
      exact head?_digitsOf (Nat.pos_of_ne_zero hne) hhead
    rw [hnat]
    rfl
  have hparts : ofParts? (decide (i < 0)) (digitsOf i.natAbs) [] none = some (.int i) := by
    rw [ofParts?, hgather]
    by_cases hi : i < 0
    · have hne : (i.natAbs == 0 || decide (9223372036854775808 < i.natAbs)) = false := by
        simp only [Bool.or_eq_false_iff, beq_eq_false_iff_ne, decide_eq_false_iff_not]
        omega
      simp only [hi, List.isEmpty_nil, Option.isNone_none, beq_self_eq_true, Bool.and_self, if_true,
        decide_true, Bool.not_true, Bool.false_eq_true, if_false, hne]
      exact congrArg (fun i => some (Number.int i)) (by omega)
    · simp only [hi, List.isEmpty_nil, Option.isNone_none, beq_self_eq_true, Bool.and_self, if_true,
        decide_false, Bool.not_false]
      exact congrArg (fun i => some (Number.int i)) (by omega)
  have hspelled := Spelled.parts (digits_digitsOf i.natAbs) hzero .absent .absent hparts
  have htext : (Number.int i).text =
      (if decide (i < 0) = true then ['-'] else []) ++ (digitsOf i.natAbs ++ ([] ++ [])) := by
    simp [text]
  rw [htext]
  exact hspelled.ofText?

end Number

end PropertyGraph
