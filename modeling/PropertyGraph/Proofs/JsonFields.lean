/-
The fields of JSON objects, in the order of their keys and each key once (`Json.Ascending`). A field
goes in by its name, in place of one of its name, so that fields put in one after the other tabulate
a map in which the later value of a name counts (`Json.Tabulates.insertField`).
-/
import Mathlib.Data.List.Induction
import PropertyGraph.Json.Basic

namespace PropertyGraph

namespace Json

/-- Fields in the order of their keys, each key once. -/
def Ascending (fields : List (String × Json)) : Prop :=
  fields.Pairwise fun a b => compare a.1 b.1 = .lt

instance (fields : List (String × Json)) : Decidable (Ascending fields) :=
  inferInstanceAs (Decidable (List.Pairwise _ _))

theorem ne_of_compare {a b : String} (h : compare a b = .lt) : a ≠ b := by
  rintro rfl
  simp at h

/-! ## Putting a field in -/

variable {fields : List (String × Json)} {key : String}

/-- What is put in is there, and of all others those of another name. -/
theorem mem_insertField (h : Ascending fields) (value : Json) {f : String × Json} :
    f ∈ insertField key value fields ↔ f = (key, value) ∨ f.1 ≠ key ∧ f ∈ fields := by
  induction fields with
  | nil => simp [insertField]
  | cons g fields ih =>
    obtain ⟨k, v⟩ := g
    obtain ⟨hhead, htail⟩ := List.pairwise_cons.1 h
    have hlater : ∀ f ∈ fields, f.1 ≠ k := fun f hf heq =>
      ne_of_compare (hhead f hf) heq.symm
    rw [insertField]
    cases hcompare : compare key k with
    | lt =>
      have hne : ∀ f ∈ (k, v) :: fields, f.1 ≠ key := by
        rintro f hf rfl
        rcases List.mem_cons.1 hf with rfl | hf
        · exact ne_of_compare hcompare rfl
        · exact ne_of_compare (Std.TransCmp.lt_trans hcompare (hhead f hf)) rfl
      simp only [List.mem_cons (b := (key, value))]
      exact or_congr_right ⟨fun hf => ⟨hne f hf, hf⟩, And.right⟩
    | eq =>
      obtain rfl := Std.LawfulEqCmp.eq_of_compare hcompare
      simp only [List.mem_cons]
      refine or_congr_right ⟨fun hf => ⟨hlater f hf, .inr hf⟩, fun ⟨hne, hf⟩ => ?_⟩
      exact hf.resolve_left fun heq => hne (congrArg Prod.fst heq)
    | gt =>
      have hne : k ≠ key := fun heq => by simp [heq] at hcompare
      simp only [List.mem_cons, ih htail]
      constructor
      · rintro (rfl | rfl | ⟨hf, hmem⟩)
        · exact .inr ⟨hne, .inl rfl⟩
        · exact .inl rfl
        · exact .inr ⟨hf, .inr hmem⟩
      · rintro (rfl | ⟨hf, rfl | hmem⟩)
        · exact .inr (.inl rfl)
        · exact .inl rfl
        · exact .inr (.inr ⟨hf, hmem⟩)

theorem Ascending.insertField (h : Ascending fields) (key : String) (value : Json) :
    Ascending (insertField key value fields) := by
  induction fields with
  | nil => exact List.pairwise_singleton _ _
  | cons g fields ih =>
    obtain ⟨k, v⟩ := g
    obtain ⟨hhead, htail⟩ := List.pairwise_cons.1 h
    rw [Json.insertField]
    cases hcompare : compare key k with
    | lt =>
      refine List.pairwise_cons.2 ⟨fun f hf => ?_, h⟩
      rcases List.mem_cons.1 hf with rfl | hf
      · exact hcompare
      · exact Std.TransCmp.lt_trans hcompare (hhead f hf)
    | eq =>
      obtain rfl := Std.LawfulEqCmp.eq_of_compare hcompare
      exact List.pairwise_cons.2 ⟨hhead, htail⟩
    | gt =>
      refine List.pairwise_cons.2 ⟨fun f hf => ?_, ih htail⟩
      rcases (mem_insertField htail value).1 hf with rfl | ⟨-, hf⟩
      · exact Std.OrientedCmp.lt_of_gt hcompare
      · exact hhead f hf

/-! ## Objects -/

/-- A field behind all others comes last. -/
theorem insertField_append (h : ∀ f ∈ fields, compare f.1 key = .lt) (value : Json) :
    insertField key value fields = fields ++ [(key, value)] := by
  induction fields with
  | nil => rfl
  | cons f fields ih =>
    have hgt : compare key f.1 = .gt := Std.OrientedCmp.gt_of_lt (h f (by simp))
    rw [insertField, hgt]
    exact congrArg (f :: ·) (ih fun f hf => h f (by simp [hf]))

theorem foldl_insertField {sorted : List (String × Json)} (h : Ascending (sorted ++ fields)) :
    fields.foldl (fun sorted (f : String × Json) => insertField f.1 f.2 sorted) sorted =
      sorted ++ fields := by
  induction fields generalizing sorted with
  | nil => simp
  | cons f fields ih =>
    have hbehind : ∀ g ∈ sorted, compare g.1 f.1 = .lt := fun g hg =>
      (List.pairwise_append.1 h).2.2 g hg f (by simp)
    rw [List.foldl_cons, insertField_append hbehind, ih (by simpa using h)]
    simp

/-- An object of fields that ascend keeps them as they are. -/
theorem object_of_ascending (h : Ascending fields) : object fields = .obj fields :=
  congrArg Json.obj (foldl_insertField (show Ascending ([] ++ fields) from h))

/-! ## Maps -/

/-- Fields in the order of their keys that list a map. -/
structure Tabulates (fields : List (String × Json)) (map : String → Option Json) : Prop where
  ascending : Ascending fields
  mem_iff : ∀ key value, (key, value) ∈ fields ↔ map key = some value

namespace Tabulates

variable {map : String → Option Json}

theorem nil : Tabulates [] fun _ => none := ⟨.nil, by simp⟩

theorem congr {map' : String → Option Json} (h : Tabulates fields map) (hmap : ∀ key, map key = map' key) :
    Tabulates fields map' := by
  obtain rfl : map = map' := funext hmap
  exact h

/-- The value that is put in counts. -/
theorem insertField (h : Tabulates fields map) (key : String) (value : Json) :
    Tabulates (insertField key value fields) fun k => if k = key then some value else map k := by
  refine ⟨h.ascending.insertField key value, fun k v => ?_⟩
  rw [mem_insertField h.ascending, Prod.mk.injEq, h.mem_iff]
  by_cases hk : k = key
  · simp [hk, eq_comm]
  · simp [hk]

/-- A map has one such list. -/
theorem unique {fields' : List (String × Json)} (h : Tabulates fields map)
    (h' : Tabulates fields' map) : fields = fields' := by
  have hperm : fields.Perm fields' := by
    have hnodup : ∀ {l : List (String × Json)}, Ascending l → l.Nodup := fun hl =>
      hl.imp fun hlt heq => ne_of_compare hlt (congrArg Prod.fst heq)
    refine (List.perm_ext_iff_of_nodup (hnodup h.ascending) (hnodup h'.ascending)).2 fun f => ?_
    rw [← Prod.eta f, h.mem_iff, h'.mem_iff]
  refine hperm.eq_of_pairwise (fun a b _ _ hab hba => ?_) h.ascending h'.ascending
  rw [Std.OrientedCmp.gt_of_lt hba] at hab
  cases hab

end Tabulates

/-- The fields of some names, where something is found under them. -/
def collect (find : String → Option Json) (names : List String) : List (String × Json) :=
  names.foldl (fun found name => (find name).elim found (insertField name · found)) []

theorem tabulates_collect (find : String → Option Json) (names : List String) :
    Tabulates (collect find names) fun key => if key ∈ names then find key else none := by
  induction names using List.reverseRecOn with
  | nil => exact Tabulates.nil.congr (by simp)
  | append_singleton names name ih =>
    rw [collect, List.foldl_append, List.foldl_cons, List.foldl_nil]
    show Tabulates ((find name).elim (collect find names) (insertField name · (collect find names))) _
    cases hfind : find name with
    | some value =>
      refine (ih.insertField name value).congr fun key => ?_
      by_cases hkey : key = name
      · simp [hkey, hfind]
      · simp [hkey]
    | none =>
      refine ih.congr fun key => ?_
      by_cases hkey : key = name
      · simp [hkey, hfind]
      · simp [hkey]

end Json

end PropertyGraph
