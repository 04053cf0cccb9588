/-
Equality of scalars. Numbers are compared as words where both are words of one form, and else as
the nearest doubles (`Number.equal_eq_equalByForm`). An integer that is no double is so blurred: it
equals the double nearest it, which it does not denote. This is the only way not to go by value
(`Number.equal_iff`), and with such integers kept apart from doubles the equality of scalars is an
equivalence that tells kinds apart and numbers by what they denote (`Json.scalarEqual_laws`).
-/
import PropertyGraph.Proofs.NearestDouble
import PropertyGraph.Stream.Basic

namespace PropertyGraph

namespace Number

/-! ## Numbers by value -/

/-- What a number of JSON denotes. -/
def value : Number → ℚ
  | .int i => i
  | .double x => x.value

/-- Integers of JSON lie from `-2 ^ 63` to `2 ^ 64 - 1`. -/
def InRange : Number → Prop
  | .int i => -2 ^ 63 ≤ i ∧ i < 2 ^ 64
  | .double _ => True

/-- An integer that no double denotes, and the double nearest it. -/
inductive Blurs : Number → Number → Prop
  | nearest {i : Int} {x : Binary64} (hno : ∀ y : Binary64, y.value ≠ i) (h : x.Nearest i) :
    Blurs (.int i) (.double x)

variable {m n k : Number} {i : Int} {x y : Binary64}

theorem exists_toDouble? (h : InRange (.int i)) : ∃ x, Binary64.ofInt? i = some x := by
  obtain ⟨hlow, hhigh⟩ := h
  exact Binary64.exists_ofInt? (by omega)

theorem equal_int_double (h : InRange (.int i)) :
    (int i).equal (double x) = true ↔ x.Nearest i := by
  obtain ⟨y, hy⟩ := exists_toDouble? h
  have hnearest := Binary64.nearest_ofInt? hy
  simp only [equal, toDouble?, hy, Binary64.sameValue_iff]
  exact ⟨hnearest.congr, hnearest.unique⟩

theorem equal_double : (double x).equal (double y) = true ↔ x.value = y.value :=
  Binary64.sameValue_iff

theorem equal_comm (m n : Number) : m.equal n = n.equal m := by
  have hsame : ∀ x y : Binary64, x.sameValue y = y.sameValue x := by
    intro x y
    rw [Bool.eq_iff_iff, Binary64.sameValue_iff, Binary64.sameValue_iff, eq_comm]
  cases m with
  | int i =>
    cases n with
    | int j => exact Bool.beq_comm
    | double y => cases h : Binary64.ofInt? i <;> simp [equal, toDouble?, h, hsame]
  | double x =>
    cases n with
    | int j => cases h : Binary64.ofInt? j <;> simp [equal, toDouble?, h, hsame]
    | double y => exact hsame x y

/-- Numbers are equal if they denote the same, or if one of them blurs the other. -/
theorem equal_iff (hm : m.InRange) (hn : n.InRange) :
    m.equal n = true ↔ m.value = n.value ∨ m.Blurs n ∨ n.Blurs m := by
  have hmixed : ∀ {i : Int} {x : Binary64}, InRange (.int i) →
      ((int i).equal (double x) = true ↔ (i : ℚ) = x.value ∨ Blurs (.int i) (.double x)) := by
    intro i x hi
    rw [equal_int_double hi]
    constructor
    · intro h
      by_cases hno : ∀ y : Binary64, y.value ≠ i
      · exact .inr (.nearest hno h)
      · push Not at hno
        obtain ⟨y, hy⟩ := hno
        exact .inl (by rw [← hy] at h ⊢; exact h.exact.symm)
    · rintro (hi | ⟨-, h⟩)
      · constructor
        · simp [hi]
        · intro y hne heq
          rw [hi, sub_self, abs_zero, abs_eq_zero, sub_eq_zero] at heq
          exact absurd heq hne
      · exact h
  cases m with
  | int i =>
    cases n with
    | int j =>
      have hnone : ∀ i j : Int, ¬Blurs (.int i) (.int j) := fun i j h => nomatch h
      simp [equal, value, hnone]
    | double y =>
      have hnone : ¬Blurs (.double y) (.int i) := fun h => nomatch h
      simp [value, hmixed hm, hnone]
  | double x =>
    cases n with
    | int j =>
      have hnone : ¬Blurs (.double x) (.int j) := fun h => nomatch h
      rw [equal_comm]
      simp [value, hmixed hn, hnone, eq_comm]
    | double y =>
      have hnone : ∀ x y, ¬Blurs (.double x) (.double y) := fun x y h => nomatch h
      simp [value, equal_double, hnone]

/-- What equals a number that it does not blur is equal. -/
theorem equal_trans (hm : m.InRange) (hn : n.InRange) (hk : k.InRange) (hmn : m.equal n = true)
    (hnk : n.equal k = true) (hclear : ¬m.Blurs n) (hclear' : ¬k.Blurs n) : m.equal k = true := by
  cases n with
  | int j =>
    -- of the two others, an integer is the same one and a double is the one nearest it
    cases m with
    | int i =>
      obtain rfl : i = j := beq_iff_eq.1 hmn
      exact hnk
    | double x =>
      cases k with
      | int l =>
        obtain rfl : j = l := beq_iff_eq.1 hnk
        exact hmn
      | double y =>
        rw [equal_comm, equal_int_double hn] at hmn
        rw [equal_int_double hn] at hnk
        exact equal_double.2 (hmn.unique hnk)
  | double x =>
    have hleft : m.value = (double x).value := by
      rcases (equal_iff hm hn).1 hmn with h | h | h
      · exact h
      · exact absurd h hclear
      · cases h
    have hright : (double x).value = k.value := by
      rcases (equal_iff hn hk).1 hnk with h | h | h
      · exact h
      · cases h
      · exact absurd h hclear'
    exact (equal_iff hm hk).2 (.inl (hleft.trans hright))

/-- Integers from `-2 ^ 53` to `2 ^ 53` blur nothing. -/
theorem not_blurs_of_small (h : i.natAbs ≤ 2 ^ 53) : ¬Blurs (.int i) n := by
  rintro ⟨hno, -⟩
  obtain ⟨x, hx⟩ := Binary64.exists_value_int h
  exact hno x hx

/-! ## Numbers by their forms -/

/-- A number as a signed word of 64 bits. -/
def toSigned? : Number → Option Int
  | .int i => if -2 ^ 63 ≤ i ∧ i < 2 ^ 63 then some i else none
  | .double _ => none

/-- A number as an unsigned word of 64 bits. -/
def toUnsigned? : Number → Option Int
  | .int i => if 0 ≤ i ∧ i < 2 ^ 64 then some i else none
  | .double _ => none

/-- Compares as signed words where both are, or else as unsigned words where both are, or else as
doubles. -/
def equalByForm (m n : Number) : Bool :=
  match m.toSigned?, n.toSigned? with
  | some a, some b => a == b
  | _, _ =>
    match m.toUnsigned?, n.toUnsigned? with
    | some a, some b => a == b
    | _, _ =>
      match m.toDouble?, n.toDouble? with
      | some x, some y => x.sameValue y
      | _, _ => false

/-- What is nearest to a negative integer is not nearest to a positive one. -/
theorem value_ne_of_signs {i j : Int} (hi : i < 0) (hj : 0 < j) (hx : x.Nearest i)
    (hy : y.Nearest j) : x.value ≠ y.value := by
  have hleft : (i : ℚ) ≤ -1 := by exact_mod_cast Int.le_sub_one_of_lt hi
  have hright : (0 : ℚ) < j := by exact_mod_cast hj
  intro hsame
  -- with zero at hand neither lies beyond it, and minus one is nearer to the negative one
  have hxzero := hx.least (Binary64.zero false)
  have hyzero := hy.least (Binary64.zero false)
  obtain ⟨z, hz⟩ := Binary64.exists_value_int (i := -1) (by decide)
  have hxone := hx.least z
  rw [Binary64.value_zero, zero_sub, abs_neg] at hxzero hyzero
  rw [abs_of_neg (a := (i : ℚ)) (by linarith)] at hxzero
  rw [abs_of_pos hright, ← hsame] at hyzero
  rw [hz, abs_of_nonneg (a := ((-1 : Int) : ℚ) - i) (by push_cast; linarith)] at hxone
  push_cast at hxone
  have := (abs_le.1 hxone).2
  have := (abs_le.1 hyzero).1
  linarith

theorem toSigned?_eq_some {a : Int} :
    toSigned? (int i) = some a ↔ -2 ^ 63 ≤ i ∧ i < 2 ^ 63 ∧ i = a := by
  simp [toSigned?, and_assoc]

theorem toUnsigned?_eq_some {a : Int} :
    toUnsigned? (int i) = some a ↔ 0 ≤ i ∧ i < 2 ^ 64 ∧ i = a := by
  simp [toUnsigned?, and_assoc]

/-- Whatever forms two numbers have, integers are compared as integers and all else as doubles. -/
theorem equal_eq_equalByForm (hm : m.InRange) (hn : n.InRange) : m.equal n = m.equalByForm n := by
  cases m with
  | double x => cases n <;> rfl
  | int i =>
    cases n with
    | double y =>
      rw [equalByForm]
      cases toSigned? (int i) <;> cases toUnsigned? (int i) <;> rfl
    | int j =>
      have hequal : equal (int i) (int j) = (i == j) := rfl
      rw [hequal, equalByForm]
      split
      · rename_i hi hj
        rw [(toSigned?_eq_some.1 hi).2.2, (toSigned?_eq_some.1 hj).2.2]
      · rename_i hsigned
        split
        · rename_i hi hj
          rw [(toUnsigned?_eq_some.1 hi).2.2, (toUnsigned?_eq_some.1 hj).2.2]
        · -- a negative integer and one that no signed word holds
          rename_i hunsigned
          obtain ⟨x, hx⟩ := exists_toDouble? hm
          obtain ⟨y, hy⟩ := exists_toDouble? hn
          obtain ⟨hi, hi'⟩ := hm
          obtain ⟨hj, hj'⟩ := hn
          have hlarge : ¬(i < 2 ^ 63 ∧ j < 2 ^ 63) := fun h =>
            hsigned i j (toSigned?_eq_some.2 ⟨hi, h.1, rfl⟩) (toSigned?_eq_some.2 ⟨hj, h.2, rfl⟩)
          have hnegative : ¬(0 ≤ i ∧ 0 ≤ j) := fun h =>
            hunsigned i j (toUnsigned?_eq_some.2 ⟨h.1, hi', rfl⟩)
              (toUnsigned?_eq_some.2 ⟨h.2, hj', rfl⟩)
          have hvalue : x.value ≠ y.value := by
            have hx := Binary64.nearest_ofInt? hx
            have hy := Binary64.nearest_ofInt? hy
            rcases lt_or_ge i 0 with hneg | hnonneg
            · exact value_ne_of_signs hneg (by omega) hx hy
            · exact (value_ne_of_signs (by omega) (by omega) hy hx).symm
          simp only [toDouble?, hx, hy]
          rw [Bool.eq_iff_iff, beq_iff_eq, Binary64.sameValue_iff]
          exact iff_of_false (by omega) hvalue

end Number

/-! ## Scalars -/

/-- The kinds of scalars. -/
inductive ScalarKind where
  | string
  | boolean
  | number
deriving DecidableEq

namespace Json

/-- The scalars of a kind. -/
inductive OfKind : Json → ScalarKind → Prop
  | string (s : String) : OfKind (.str s) .string
  | boolean (b : Bool) : OfKind (.bool b) .boolean
  | number {n : Number} (h : n.InRange) : OfKind (.num n) .number

/-- Scalars that are the same: one text, one truth value, or numbers that denote one number. -/
inductive SameScalar : Json → Json → Prop
  | string (s : String) : SameScalar (.str s) (.str s)
  | boolean (b : Bool) : SameScalar (.bool b) (.bool b)
  | number {m n : Number} (h : m.value = n.value) : SameScalar (.num m) (.num n)

/-- Numbers of which one blurs the other. -/
inductive Blurs : Json → Json → Prop
  | number {m n : Number} (h : m.Blurs n) : Blurs (.num m) (.num n)

variable {a b c : Json} {k l m : ScalarKind}

@[simp]
theorem sameScalar_number {m n : Number} : SameScalar (.num m) (.num n) ↔ m.value = n.value :=
  ⟨fun h => by cases h with | number h => exact h, .number⟩

@[simp]
theorem blurs_number {m n : Number} : Blurs (.num m) (.num n) ↔ m.Blurs n :=
  ⟨fun h => by cases h with | number h => exact h, .number⟩

@[simp]
theorem sameScalar_string {s t : String} : SameScalar (.str s) (.str t) ↔ s = t :=
  ⟨fun h => by cases h; rfl, fun h => h ▸ .string s⟩

@[simp]
theorem sameScalar_boolean {s t : Bool} : SameScalar (.bool s) (.bool t) ↔ s = t :=
  ⟨fun h => by cases h; rfl, fun h => h ▸ .boolean s⟩

theorem SameScalar.kind_eq (h : a.SameScalar b) (ha : a.OfKind k) (hb : b.OfKind l) : k = l := by
  cases h <;> cases ha <;> cases hb <;> rfl

theorem Blurs.kind_eq (h : a.Blurs b) (ha : a.OfKind k) (hb : b.OfKind l) : k = l := by
  cases h
  cases ha
  cases hb
  rfl

theorem scalarEqual_of_ne (ha : a.OfKind k) (hb : b.OfKind l) (hkl : k ≠ l) :
    a.scalarEqual b = false := by
  cases ha <;> cases hb <;> first | rfl | exact absurd rfl hkl

/-- Scalars are equal if they are the same, or if one blurs the other. -/
theorem scalarEqual_iff (ha : a.OfKind k) (hb : b.OfKind l) :
    a.scalarEqual b = true ↔ a.SameScalar b ∨ a.Blurs b ∨ b.Blurs a := by
  by_cases hkl : k = l
  · subst hkl
    cases ha with
    | number hm =>
      cases hb with
      | number hn =>
        simp only [sameScalar_number, blurs_number]
        exact Number.equal_iff hm hn
    | string s =>
      cases hb with
      | string t =>
        have hclear : ∀ s t : String, ¬Blurs (.str s) (.str t) := fun s t h => nomatch h
        simp [scalarEqual, hclear]
    | boolean s =>
      cases hb with
      | boolean t =>
        have hclear : ∀ s t : Bool, ¬Blurs (.bool s) (.bool t) := fun s t h => nomatch h
        simp [scalarEqual, hclear]
  · rw [scalarEqual_of_ne ha hb hkl]
    refine iff_of_false Bool.false_ne_true ?_
    rintro (h | h | h)
    · exact hkl (h.kind_eq ha hb)
    · exact hkl (h.kind_eq ha hb)
    · exact hkl (h.kind_eq hb ha).symm

theorem scalarEqual_self (ha : a.OfKind k) : a.scalarEqual a = true :=
  (scalarEqual_iff ha ha).2 (.inl (by cases ha <;> simp))

theorem scalarEqual_comm (a b : Json) : a.scalarEqual b = b.scalarEqual a := by
  cases a <;> cases b <;> first | rfl | exact Bool.beq_comm | exact Number.equal_comm _ _

theorem scalarEqual_trans (ha : a.OfKind k) (hb : b.OfKind l) (hc : c.OfKind m)
    (hab : a.scalarEqual b = true) (hbc : b.scalarEqual c = true) (hclear : ¬a.Blurs b)
    (hclear' : ¬c.Blurs b) : a.scalarEqual c = true := by
  cases hb with
  | number hn =>
    cases ha with
    | number hm =>
      cases hc with
      | number hk =>
        rw [blurs_number] at hclear hclear'
        exact Number.equal_trans hm hn hk hab hbc hclear hclear'
      | _ => cases hbc
    | _ => cases hab
  | string s =>
    cases ha with
    | string t =>
      obtain rfl : t = s := beq_iff_eq.1 hab
      exact hbc
    | _ => cases hab
  | boolean s =>
    cases ha with
    | boolean t =>
      obtain rfl : t = s := beq_iff_eq.1 hab
      exact hbc
    | _ => cases hab

/-- **Scalars are equal by value**, except that an integer that no double denotes equals the double
nearest it. Of scalars of JSON each equals itself, and equality goes both ways and never from one
kind to another. Two are equal if they are the same (one text, one truth value, numbers that denote
one number, whatever their forms), or if one is an integer that no double denotes and the other the
double nearest it. Beside such integers equality is transitive, and those from `-2 ^ 53` to
`2 ^ 53` are not among them. -/
theorem scalarEqual_laws (ha : a.OfKind k) (hb : b.OfKind l) (hc : c.OfKind m) :
    a.scalarEqual a = true ∧
    a.scalarEqual b = b.scalarEqual a ∧
    (k ≠ l → a.scalarEqual b = false) ∧
    (a.scalarEqual b = true ↔ a.SameScalar b ∨ a.Blurs b ∨ b.Blurs a) ∧
    (∀ n n', a = .num n → b = .num n' → a.scalarEqual b = n.equalByForm n') ∧
    (a.scalarEqual b = true → b.scalarEqual c = true → ¬a.Blurs b → ¬c.Blurs b →
      a.scalarEqual c = true) ∧
    ∀ i : Int, a = .num (.int i) → i.natAbs ≤ 2 ^ 53 → ¬a.Blurs b := by
  refine ⟨scalarEqual_self ha, scalarEqual_comm a b, scalarEqual_of_ne ha hb, scalarEqual_iff ha hb,
    ?_, scalarEqual_trans ha hb hc, ?_⟩
  · rintro n n' rfl rfl
    cases ha with
    | number hn =>
      cases hb with
      | number hn' => exact Number.equal_eq_equalByForm hn hn'
  · rintro i rfl hsmall hblurs
    cases hblurs with
    | number h => exact Number.not_blurs_of_small hsmall h

/-- `2 ^ 53` as a double. -/
def borderDouble : Json := .num (.double ⟨false, 4503599627370496, 1, by decide⟩)

/-- Equal to one double are the two integers `2 ^ 53` and `2 ^ 53 + 1`, of which it is the first. -/
theorem scalarEqual_laws_border :
    (int 9007199254740993).OfKind .number ∧ borderDouble.OfKind .number ∧
    (int 9007199254740992).OfKind .number ∧
    (int 9007199254740993).scalarEqual borderDouble = true ∧
    borderDouble.scalarEqual (int 9007199254740992) = true ∧
    (int 9007199254740993).scalarEqual (int 9007199254740992) = false ∧
    (int 9007199254740993).Blurs borderDouble ∧ ¬(int 9007199254740992).Blurs borderDouble := by
  have ha : (int 9007199254740993).OfKind .number := .number ⟨by decide, by decide⟩
  have hb : borderDouble.OfKind .number := .number trivial
  have hc : (int 9007199254740992).OfKind .number := .number ⟨by decide, by decide⟩
  have hab : (int 9007199254740993).scalarEqual borderDouble = true := by decide +kernel
  have hbc : borderDouble.scalarEqual (int 9007199254740992) = true := by decide +kernel
  have hac : (int 9007199254740993).scalarEqual (int 9007199254740992) = false := by decide
  obtain ⟨-, -, -, -, -, htrans, -⟩ := scalarEqual_laws ha hb hc
  obtain ⟨-, -, -, -, -, -, hsmall⟩ := scalarEqual_laws hc hb ha
  have hclear := hsmall 9007199254740992 rfl (by decide)
  refine ⟨ha, hb, hc, hab, hbc, hac, ?_, hclear⟩
  by_contra hblurs
  exact Bool.false_ne_true (hac ▸ htrans hab hbc hblurs hclear)

end Json

end PropertyGraph
