/-
Finite maps kept as lists of entries in the strict order of their keys. A map is
determined by what it answers: `SortedMap.ext_get?`.
-/

namespace PropertyGraph

/-- The key of the first entry is below that of the second. -/
def KeyBefore {κ α : Type} [Ord κ] (a b : κ × α) : Prop := compare a.1 b.1 = .lt

/-- A finite map from `κ` to `α`: its entries in strict order of their keys. -/
structure SortedMap (κ α : Type) [Ord κ] where
  toList : List (κ × α)
  sorted : toList.Pairwise KeyBefore
deriving DecidableEq

namespace SortedMap

variable {κ α : Type} [Ord κ]

/-! ## Lists of entries -/

/-- Puts an entry into its place, over one of its key. -/
def insertList (k : κ) (v : α) : List (κ × α) → List (κ × α)
  | [] => [(k, v)]
  | e :: rest =>
    match compare k e.1 with
    | .lt => (k, v) :: e :: rest
    | .eq => (k, v) :: rest
    | .gt => e :: insertList k v rest

/-- Takes out the entry of a key. -/
def eraseList (k : κ) : List (κ × α) → List (κ × α)
  | [] => []
  | e :: rest =>
    match compare k e.1 with
    | .lt => e :: rest
    | .eq => rest
    | .gt => e :: eraseList k rest

/-- Looks a key up. -/
def getList? (k : κ) : List (κ × α) → Option α
  | [] => none
  | e :: rest =>
    match compare k e.1 with
    | .lt => none
    | .eq => some e.2
    | .gt => getList? k rest

theorem mem_insertList {k : κ} {v : α} {e : κ × α} {l : List (κ × α)}
    (h : e ∈ insertList k v l) : e = (k, v) ∨ e ∈ l := by
  induction l with
  | nil => simpa [insertList] using h
  | cons f rest ih =>
    simp only [insertList] at h
    split at h <;> simp only [List.mem_cons] at h ⊢
    · exact h
    · exact h.imp_right .inr
    · rcases h with rfl | h
      · exact .inr (.inl rfl)
      · exact (ih h).imp_right .inr

theorem mem_of_mem_eraseList {k : κ} {e : κ × α} {l : List (κ × α)}
    (h : e ∈ eraseList k l) : e ∈ l := by
  induction l with
  | nil => simp [eraseList] at h
  | cons f rest ih =>
    simp only [eraseList] at h
    split at h
    · exact h
    · exact List.mem_cons_of_mem _ h
    · simp only [List.mem_cons] at h ⊢
      exact h.imp_right ih

theorem pairwise_eraseList {k : κ} {l : List (κ × α)} (h : l.Pairwise KeyBefore) :
    (eraseList k l).Pairwise KeyBefore := by
  induction l with
  | nil => simp [eraseList]
  | cons f rest ih =>
    obtain ⟨hf, hrest⟩ := List.pairwise_cons.1 h
    simp only [eraseList]
    split
    · exact h
    · exact hrest
    · exact List.pairwise_cons.2 ⟨fun e he => hf e (mem_of_mem_eraseList he), ih hrest⟩

theorem getList?_eq_none_of_before {k : κ} {l : List (κ × α)}
    (h : ∀ e ∈ l, compare k e.1 = .lt) : getList? k l = none := by
  cases l with
  | nil => rfl
  | cons f rest => simp [getList?, h f (by simp)]

section Ordered

variable [Std.TransOrd κ] [Std.LawfulEqOrd κ]

theorem pairwise_insertList {k : κ} {v : α} {l : List (κ × α)} (h : l.Pairwise KeyBefore) :
    (insertList k v l).Pairwise KeyBefore := by
  induction l with
  | nil => simp [insertList]
  | cons f rest ih =>
    obtain ⟨hf, hrest⟩ := List.pairwise_cons.1 h
    simp only [insertList]
    split
    · rename_i hlt
      refine List.pairwise_cons.2 ⟨fun e he => ?_, h⟩
      rcases List.mem_cons.1 he with rfl | he
      · exact hlt
      · exact Std.TransCmp.lt_trans hlt (hf e he)
    · rename_i heq
      refine List.pairwise_cons.2 ⟨fun e he => ?_, hrest⟩
      have hk : k = f.1 := Std.LawfulEqOrd.eq_of_compare heq
      simpa [KeyBefore, hk] using hf e he
    · rename_i hgt
      refine List.pairwise_cons.2 ⟨fun e he => ?_, ih hrest⟩
      rcases mem_insertList he with rfl | he
      · exact Std.OrientedCmp.lt_of_gt hgt
      · exact hf e he

omit [Std.TransOrd κ] in
theorem getList?_insertList_self (k : κ) (v : α) (l : List (κ × α)) :
    getList? k (insertList k v l) = some v := by
  induction l with
  | nil => simp [insertList, getList?]
  | cons f rest ih =>
    simp only [insertList]
    split
    · simp [getList?]
    · simp [getList?]
    · rename_i hgt
      simp [getList?, hgt, ih]

theorem getList?_insertList_of_ne {k j : κ} (hne : j ≠ k) (v : α) (l : List (κ × α)) :
    getList? j (insertList k v l) = getList? j l := by
  have hjk : compare j k ≠ .eq := fun h => hne (Std.LawfulEqOrd.eq_of_compare h)
  induction l with
  | nil =>
    simp only [insertList, getList?]
    split <;> simp_all
  | cons f rest ih =>
    simp only [insertList]
    split
    · rename_i hlt
      simp only [getList?]
      split
      · rename_i h
        have : compare j f.1 = .lt := Std.TransCmp.lt_trans h hlt
        simp [this]
      · contradiction
      · rfl
    · rename_i heq
      have hk : k = f.1 := Std.LawfulEqOrd.eq_of_compare heq
      simp only [getList?, ← hk]
      split <;> simp_all
    · simp only [getList?]
      split <;> simp_all

omit [Std.TransOrd κ] in
theorem getList?_eraseList_self {k : κ} {l : List (κ × α)} (h : l.Pairwise KeyBefore) :
    getList? k (eraseList k l) = none := by
  induction l with
  | nil => rfl
  | cons f rest ih =>
    obtain ⟨hf, hrest⟩ := List.pairwise_cons.1 h
    simp only [eraseList]
    split
    · rename_i hlt
      simp [getList?, hlt]
    · rename_i heq
      have hk : k = f.1 := Std.LawfulEqOrd.eq_of_compare heq
      exact getList?_eq_none_of_before fun e he => hk ▸ hf e he
    · rename_i hgt
      simp [getList?, hgt, ih hrest]

theorem getList?_eraseList_of_ne {k j : κ} (hne : j ≠ k) {l : List (κ × α)}
    (h : l.Pairwise KeyBefore) : getList? j (eraseList k l) = getList? j l := by
  have hjk : compare j k ≠ .eq := fun h => hne (Std.LawfulEqOrd.eq_of_compare h)
  induction l with
  | nil => rfl
  | cons f rest ih =>
    obtain ⟨hf, hrest⟩ := List.pairwise_cons.1 h
    simp only [eraseList]
    split
    · rfl
    · rename_i heq
      have hk : k = f.1 := Std.LawfulEqOrd.eq_of_compare heq
      simp only [getList?]
      split
      · rename_i hlt
        exact getList?_eq_none_of_before fun e he => Std.TransCmp.lt_trans hlt (hf e he)
      · rename_i h; exact absurd (hk ▸ h) hjk
      · rfl
    · simp only [getList?]
      split <;> simp_all

theorem mem_iff_getList? {k : κ} {v : α} {l : List (κ × α)} (h : l.Pairwise KeyBefore) :
    (k, v) ∈ l ↔ getList? k l = some v := by
  induction l with
  | nil => simp [getList?]
  | cons f rest ih =>
    obtain ⟨hf, hrest⟩ := List.pairwise_cons.1 h
    simp only [getList?, List.mem_cons]
    split
    · rename_i hlt
      simp only [reduceCtorEq, iff_false, not_or]
      refine ⟨fun e => ?_, fun m => ?_⟩
      · subst e; simp at hlt
      · have : compare f.1 k = .lt := hf _ m
        exact absurd (Std.TransCmp.lt_trans hlt this) (by simp)
    · rename_i heq
      have hk : k = f.1 := Std.LawfulEqOrd.eq_of_compare heq
      constructor
      · rintro (e | m)
        · simp [← e]
        · have : compare f.1 k = .lt := hf _ m
          simp [hk] at this
      · intro e
        left
        simp only [Option.some.injEq] at e
        simp [hk, ← e]
    · rename_i hgt
      rw [← ih hrest]
      refine or_iff_right fun e => ?_
      subst e; simp at hgt

theorem eq_of_getList? {l m : List (κ × α)} (hl : l.Pairwise KeyBefore)
    (hm : m.Pairwise KeyBefore) (h : ∀ k, getList? k l = getList? k m) : l = m := by
  induction l generalizing m with
  | nil =>
    cases m with
    | nil => rfl
    | cons f rest =>
      have := h f.1
      simp [getList?] at this
  | cons e l ih =>
    cases m with
    | nil =>
      have := h e.1
      simp [getList?] at this
    | cons f m =>
      obtain ⟨he, hl'⟩ := List.pairwise_cons.1 hl
      obtain ⟨hf, hm'⟩ := List.pairwise_cons.1 hm
      have hef : e = f := by
        have h1 : (e.1, e.2) ∈ f :: m := (mem_iff_getList? hm).2 (by rw [← h]; simp [getList?])
        have h2 : (f.1, f.2) ∈ e :: l := (mem_iff_getList? hl).2 (by rw [h]; simp [getList?])
        rcases List.mem_cons.1 h1 with h1 | h1
        · exact h1
        · rcases List.mem_cons.1 h2 with h2 | h2
          · exact h2.symm
          · exact absurd (Std.TransCmp.lt_trans (he _ h2) (hf _ h1)) (by simp)
      subst hef
      congr 1
      refine ih hl' hm' fun k => ?_
      have := h k
      simp only [getList?] at this
      split at this
      · rename_i hlt
        rw [getList?_eq_none_of_before fun x hx => Std.TransCmp.lt_trans hlt (he x hx),
          getList?_eq_none_of_before fun x hx => Std.TransCmp.lt_trans hlt (hf x hx)]
      · rename_i heq
        have hk : k = e.1 := Std.LawfulEqOrd.eq_of_compare heq
        rw [getList?_eq_none_of_before fun x hx => hk ▸ he x hx,
          getList?_eq_none_of_before fun x hx => hk ▸ hf x hx]
      · exact this

end Ordered

/-! ## Maps -/

/-- The map without entries. -/
def empty : SortedMap κ α := ⟨[], .nil⟩

instance : Inhabited (SortedMap κ α) := ⟨empty⟩

/-- The value of a key. -/
def get? (m : SortedMap κ α) (k : κ) : Option α := getList? k m.toList

@[simp]
theorem get?_empty (k : κ) : (empty : SortedMap κ α).get? k = none := rfl

def contains (m : SortedMap κ α) (k : κ) : Bool := (m.get? k).isSome

/-- The number of entries. -/
def size (m : SortedMap κ α) : Nat := m.toList.length

/-- The keys in their order. -/
def keys (m : SortedMap κ α) : List κ := m.toList.map (·.1)

/-- The same keys with other values. -/
def mapValues {β : Type} (f : α → β) (m : SortedMap κ α) : SortedMap κ β :=
  ⟨m.toList.map fun e => (e.1, f e.2), by
    rw [List.pairwise_map]; exact m.sorted⟩

variable [Std.TransOrd κ] [Std.LawfulEqOrd κ]

/-- Sets the value of a key. -/
def insert (m : SortedMap κ α) (k : κ) (v : α) : SortedMap κ α :=
  ⟨insertList k v m.toList, pairwise_insertList m.sorted⟩

/-- Takes a key out. -/
def erase (m : SortedMap κ α) (k : κ) : SortedMap κ α :=
  ⟨eraseList k m.toList, pairwise_eraseList m.sorted⟩

@[simp]
theorem get?_insert_self (m : SortedMap κ α) (k : κ) (v : α) : (m.insert k v).get? k = some v :=
  getList?_insertList_self k v m.toList

theorem get?_insert_of_ne (m : SortedMap κ α) {k j : κ} (v : α) (h : j ≠ k) :
    (m.insert k v).get? j = m.get? j :=
  getList?_insertList_of_ne h v m.toList

omit [Std.TransOrd κ] in
@[simp]
theorem get?_erase_self (m : SortedMap κ α) (k : κ) : (m.erase k).get? k = none :=
  getList?_eraseList_self m.sorted

theorem get?_erase_of_ne (m : SortedMap κ α) {k j : κ} (h : j ≠ k) :
    (m.erase k).get? j = m.get? j :=
  getList?_eraseList_of_ne h m.sorted

theorem mem_toList_iff (m : SortedMap κ α) {k : κ} {v : α} :
    (k, v) ∈ m.toList ↔ m.get? k = some v :=
  mem_iff_getList? m.sorted

/-- A map is determined by its answers. -/
theorem ext_get? {m n : SortedMap κ α} (h : ∀ k, m.get? k = n.get? k) : m = n := by
  obtain ⟨l, hl⟩ := m
  obtain ⟨l', hl'⟩ := n
  have : l = l' := eq_of_getList? hl hl' h
  subst this
  rfl

end SortedMap

end PropertyGraph
