/-
The properties of an element are those set last. Of every element that is there after any history,
the map that all readers tell of has, under each key, the value that was set last under it
(`RecordOp.SetLast`), and setting one more changes that key and nothing else
(`Engine.propertyMap_history`). A drop that takes other elements with it takes none that is there at
the end, for ids do not come back (`Multigraph.not_mem_history`).
-/
import PropertyGraph.Proofs.PropertyMap

namespace PropertyGraph

open PropertyGraph.Graph

/-! ## Sets and drops -/

namespace RecordOp

/-- Takes an element out by its id, or everything. -/
def Drops (kind : ElementKind) (id : String) : RecordOp → Prop
  | .dropVertex id' => kind = .vertex ∧ id' = id
  | .dropEdge id' => kind = .edge ∧ id' = id
  | .dropAll => True
  | .createVertex _ | .createEdge _ _ _ | .setProperty _ _ _ _ => False

/-- What is set reads back from its text. -/
def Storable : RecordOp → Prop
  | .setProperty _ _ _ value => value.Storable
  | _ => True

instance : (op : RecordOp) → Decidable op.Storable
  | .setProperty _ _ _ value => inferInstanceAs (Decidable value.Storable)
  | .createVertex _ | .createEdge _ _ _ | .dropEdge _ | .dropVertex _ | .dropAll =>
    inferInstanceAs (Decidable True)

/-- An operation leaves a property of an element as it is. -/
def Spares (op : RecordOp) (kind : ElementKind) (id key : String) : Prop :=
  ¬op.Drops kind id ∧ ∀ value, op ≠ .setProperty kind id key value

/-- A value is what was set last under a key of an element, and the element was not dropped since. -/
def SetLast (ops : List RecordOp) (kind : ElementKind) (id key : String) (value : Json) : Prop :=
  IsPropertyKey key ∧ ∃ before after, ops = before ++ .setProperty kind id key value :: after ∧
    ∀ op ∈ after, op.Spares kind id key

variable {kind : ElementKind} {id key : String} {value : Json}

theorem not_setLast_nil : ¬SetLast [] kind id key value := by
  rintro ⟨-, before, after, hops, -⟩
  simp at hops

/-- What was set last is what the last operation set, or what was set before it and is left. -/
theorem setLast_append (ops : List RecordOp) (op : RecordOp) :
    SetLast (ops ++ [op]) kind id key value ↔
      IsPropertyKey key ∧ op = .setProperty kind id key value ∨
        op.Spares kind id key ∧ SetLast ops kind id key value := by
  constructor
  · rintro ⟨hkey, before, after, hops, hspares⟩
    rcases List.eq_nil_or_concat after with rfl | ⟨after, last, rfl⟩
    · exact .inl ⟨hkey, (List.append_inj' hops rfl).2 |> List.singleton_inj.1⟩
    · rw [List.concat_eq_append, ← List.cons_append, ← List.append_assoc] at hops
      obtain ⟨rfl, hlast⟩ := List.append_inj' hops rfl
      obtain rfl := List.singleton_inj.1 hlast
      exact .inr ⟨hspares op (by simp), hkey, before, after, rfl, fun o ho => hspares o (by simp [ho])⟩
  · rintro (⟨hkey, rfl⟩ | ⟨hop, hkey, before, after, rfl, hspares⟩)
    · exact ⟨hkey, ops, [], rfl, by simp⟩
    · refine ⟨hkey, before, after ++ [op], by simp, fun o ho => ?_⟩
      rcases List.mem_append.1 ho with ho | ho
      · exact hspares o ho
      · rwa [List.mem_singleton.1 ho]

end RecordOp

namespace Multigraph

variable {ids : Nat → String} {s : Multigraph × Nat} {kind : ElementKind} {id key : String}

/-! ## Ids do not come back -/

/-- An operation adds no element, or one that has the next id. -/
theorem mem_ids_step {op : RecordOp} (h : id ∈ (step ids s op).1.ids kind) :
    id ∈ s.1.ids kind ∨ id = ids s.2 ∧ (step ids s op).2 = s.2 + 1 := by
  cases op with
  | createVertex label =>
    simp only [step] at h ⊢
    split at h
    · rename_i hlabel
      rw [if_pos hlabel]
      exact (mem_ids_addVertex.1 h).imp_right fun hnew => ⟨hnew.2, rfl⟩
    · exact .inl h
  | createEdge label source target =>
    simp only [step] at h ⊢
    split at h
    · rename_i hnew
      rw [if_pos hnew]
      exact (mem_ids_addEdge.1 h).imp_right fun hnew => ⟨hnew.2, rfl⟩
    · exact .inl h
  | setProperty kind' id' key' value =>
    simp only [step] at h
    split at h <;> exact .inl h
  | dropEdge id' => exact .inl ((s.1.ids_removeEdges_sublist [id'] kind).subset h)
  | dropVertex id' => exact .inl ((s.1.ids_dropVertex_sublist id' kind).subset h)
  | dropAll => cases kind <;> simp [step, Multigraph.ids, empty] at h

/-- An id that was handed out and is not there is not there later. -/
theorem not_mem_history {i : Nat} (hi : i < s.2) (hid : ids i ∉ s.1.ids kind) {ops : List RecordOp}
    (hids : GoodIds ids (history ids ops s).2) : ids i ∉ (history ids ops s).1.ids kind := by
  induction ops generalizing s with
  | nil => exact hid
  | cons op ops ih =>
    have hstep : (step ids s op).2 ≤ (history ids (op :: ops) s).2 := le_history ids ops _
    refine ih (Nat.lt_of_lt_of_le hi (le_step ids s op)) (fun hmem => ?_) hids
    rcases mem_ids_step hmem with hmem | ⟨heq, hnext⟩
    · exact hid hmem
    · have := hids.injective (i := i) (j := s.2) (by omega) (by omega) heq
      omega

/-- A drop takes an element out. -/
theorem not_mem_of_drops {op : RecordOp} (h : op.Drops kind id) :
    id ∉ (step ids s op).1.ids kind := by
  cases op with
  | createVertex | createEdge | setProperty => cases h
  | dropEdge id' =>
    obtain ⟨rfl, rfl⟩ := h
    exact fun hmem => (mem_ids_removeEdges.1 hmem).2 ⟨rfl, by simp⟩
  | dropVertex id' =>
    obtain ⟨rfl, rfl⟩ := h
    exact fun hmem => (mem_ids_removeVertex.1 hmem).2 ⟨rfl, rfl⟩
  | dropAll => cases kind <;> simp [step, Multigraph.ids, empty]

/-! ## What operations make of a property -/

theorem property_of_drops {op : RecordOp} (h : op.Drops kind id) :
    (step ids s op).1.property kind id key = none := by
  cases op with
  | createVertex | createEdge | setProperty => cases h
  | dropEdge id' =>
    obtain ⟨rfl, rfl⟩ := h
    simp [step, dropEdge, removeEdges]
  | dropVertex id' =>
    obtain ⟨rfl, rfl⟩ := h
    simp [step, dropVertex, removeVertex]
  | dropAll => rfl

/-- A property stays where neither it is set nor its element taken out, with a vertex or by itself. -/
theorem property_of_spares {op : RecordOp} (h : op.Spares kind id key)
    (hstays : id ∈ s.1.ids kind → id ∈ (step ids s op).1.ids kind) :
    (step ids s op).1.property kind id key = s.1.property kind id key := by
  cases op with
  | createVertex | createEdge =>
    simp only [step]
    split <;> rfl
  | setProperty kind' id' key' value =>
    simp only [step]
    split
    · simp only [setProperty]
      refine if_neg ?_
      rintro ⟨hkind, hid, hkey⟩
      exact h.2 value (by rw [hkind, hid, hkey])
    · rfl
  | dropEdge id' =>
    simp only [step, dropEdge, removeEdges]
    refine if_neg ?_
    rintro ⟨hkind, hid⟩
    exact h.1 ⟨hkind, (List.mem_singleton.1 hid).symm⟩
  | dropVertex id' =>
    simp only [step, dropVertex, removeVertex]
    rw [if_neg fun hgone => h.1 ⟨hgone.1, hgone.2.symm⟩]
    simp only [removeEdges]
    refine if_neg ?_
    rintro ⟨rfl, hincident⟩
    have hmem : id ∈ s.1.ids .edge := (List.filter_sublist.map _).subset hincident
    have hleft : id ∈ (s.1.dropVertex id').ids .edge := hstays hmem
    exact (mem_ids_removeEdges.1 hleft).2 ⟨rfl, hincident⟩
  | dropAll => exact absurd trivial h.1

theorem property_of_set {value : Json} (hkey : IsPropertyKey key) :
    (step ids s (.setProperty kind id key value)).1.property kind id key = some value := by
  simp [step, hkey, setProperty]

/-! ## After a history -/

/-- An element is there, or its id was not handed out yet. -/
def Unspent (ids : Nat → String) (s : Multigraph × Nat) (kind : ElementKind) (id : String) : Prop :=
  id ∈ s.1.ids kind ∨ ∀ i < s.2, ids i ≠ id

theorem Unspent.of_step (h : Ascending ids s) {op : RecordOp} (hids : GoodIds ids (step ids s op).2)
    (hu : Unspent ids (step ids s op) kind id) :
    Unspent ids s kind id ∧ (id ∈ s.1.ids kind → id ∈ (step ids s op).1.ids kind) := by
  have hle := le_step ids s op
  rcases hu with hid | hid
  · refine ⟨?_, fun _ => hid⟩
    rcases mem_ids_step hid with hid | ⟨rfl, hnext⟩
    · exact .inl hid
    · refine .inr fun i hi heq => ?_
      have := hids.injective (i := i) (j := s.2) (by omega) (by omega) heq
      omega
  · refine ⟨.inr fun i hi => hid i (by omega), fun hmem => ?_⟩
    obtain ⟨i, hi, heq⟩ := h.born kind id hmem
    exact absurd heq (hid i (by omega))

/-- Of an element that is there, a property has the value that was set last. -/
theorem property_history {n : Nat} {ops : List RecordOp}
    (hids : GoodIds ids (history ids ops (.empty, n)).2)
    (hu : Unspent ids (history ids ops (.empty, n)) kind id) (key : String) (value : Json) :
    (history ids ops (.empty, n)).1.property kind id key = some value ↔
      RecordOp.SetLast ops kind id key value := by
  induction ops using List.reverseRecOn generalizing value with
  | nil => exact ⟨fun h => by simp [history, empty] at h, fun h => absurd h RecordOp.not_setLast_nil⟩
  | append_singleton ops op ih =>
    have hlast : history ids (ops ++ [op]) (.empty, n) = step ids (history ids ops (.empty, n)) op := by
      rw [history, List.foldl_append]
      rfl
    rw [hlast] at hids hu ⊢
    have hbefore := hids.mono (le_step ids _ op)
    have hascending := (Ascending.empty ids n).history hbefore
    obtain ⟨hearlier, hstays⟩ := hu.of_step hascending hids
    have ih := ih hbefore hearlier
    rw [RecordOp.setLast_append, ← ih value]
    by_cases hdrops : op.Drops kind id
    · rw [property_of_drops hdrops]
      have hnot : op ≠ .setProperty kind id key value := by
        rintro rfl
        exact hdrops
      simp [RecordOp.Spares, hdrops, hnot]
    by_cases hset : ∃ v, op = .setProperty kind id key v
    · obtain ⟨v, rfl⟩ := hset
      have hspares : ¬(RecordOp.setProperty kind id key v).Spares kind id key := fun h => h.2 v rfl
      by_cases hkey : IsPropertyKey key
      · rw [property_of_set hkey]
        simp [hkey, hspares]
      · have hnone : (history ids ops (.empty, n)).1.property kind id key = none := by
          rw [Option.eq_none_iff_forall_ne_some]
          exact fun v hv => hkey ((ih v).1 hv).1
        simp [step, hkey, hspares, hnone]
    · have hspares : op.Spares kind id key := ⟨hdrops, fun v hv => hset ⟨v, hv⟩⟩
      rw [property_of_spares hspares hstays]
      have hnot : op ≠ .setProperty kind id key value := hspares.2 value
      simp [hspares, hnot]

/-- A drop of an element that is there at the end came before it was created. -/
theorem not_mem_of_drop_before {n : Nat} {before after : List RecordOp} {op : RecordOp}
    (hids : GoodIds ids (history ids (before ++ op :: after) (.empty, n)).2) (hop : op.Drops kind id)
    (hid : id ∈ (history ids (before ++ op :: after) (.empty, n)).1.ids kind) :
    id ∉ (history ids before (.empty, n)).1.ids kind := by
  intro hbefore
  have hsplit : history ids (before ++ op :: after) (.empty, n) =
      history ids after (step ids (history ids before (.empty, n)) op) := by
    rw [history, List.foldl_append]
    rfl
  rw [hsplit] at hids hid
  have hle := le_step ids (history ids before (.empty, n)) op
  have hall := le_history ids after (step ids (history ids before (.empty, n)) op)
  have hascending := (Ascending.empty ids n).history (hids.mono (hle.trans hall))
  obtain ⟨i, hi, rfl⟩ := hascending.born kind id hbefore
  exact not_mem_history (by omega) (not_mem_of_drops hop) hids hid

theorem property_step {op : RecordOp} {value : Json}
    (h : (step ids s op).1.property kind id key = some value) :
    s.1.property kind id key = some value ∨ op = .setProperty kind id key value := by
  cases op with
  | createVertex | createEdge =>
    simp only [step] at h
    split at h <;> exact .inl h
  | setProperty kind' id' key' value' =>
    simp only [step] at h
    split at h
    · simp only [setProperty] at h
      split at h
      · rename_i hsame
        obtain ⟨rfl, rfl, rfl⟩ := hsame
        exact .inr (by rw [Option.some.inj h])
      · exact .inl h
    · exact .inl h
  | dropEdge id' =>
    simp only [step, dropEdge, removeEdges] at h
    split at h
    · cases h
    · exact .inl h
  | dropVertex id' =>
    simp only [step, dropVertex, removeVertex, removeEdges] at h
    split at h
    · cases h
    · split at h
      · cases h
      · exact .inl h
  | dropAll => cases h

/-- What holds of every value that is set holds of every property. -/
theorem forall_property_history {P : Json → Prop}
    (h : ∀ kind id key value, s.1.property kind id key = some value → P value) {ops : List RecordOp}
    (hops : ∀ kind id key value, .setProperty kind id key value ∈ ops → P value) :
    ∀ kind id key value, (history ids ops s).1.property kind id key = some value → P value := by
  induction ops generalizing s with
  | nil => exact h
  | cons op ops ih =>
    refine ih (fun kind id key value hstored => ?_) fun kind id key value hop =>
      hops kind id key value (List.mem_cons_of_mem _ hop)
    rcases property_step hstored with hstored | rfl
    · exact h kind id key value hstored
    · exact hops kind id key value List.mem_cons_self

/-- Properties read back if all that was set does. -/
theorem Storable.history (h : s.1.Storable) {ops : List RecordOp} (hops : ∀ op ∈ ops, op.Storable) :
    (history ids ops s).1.Storable :=
  forall_property_history h fun _ _ _ _ hop => hops _ hop

end Multigraph

/-! ## After a history -/

/-- Whatever operations ran from an empty store, if all values that were set nest at most as deep as
a text may and their doubles read back: of an element that is there, the properties are those set
last, and any drop of it came before it was created. All that is read tells of that one map: all of
it, or some of its keys, where `id` and `label` count as keys, as one value or a row for each key; and
a filter lets the element pass where it has an equal scalar under a key. Setting a property changes
the map at its key, and no other answer. -/
theorem Engine.propertyMap_history {σ : Type} [Backend σ] [LawfulBackend σ] {e : Engine σ}
    (hempty : ∀ key, e.contents key = none) {ops : List RecordOp} (hops : ∀ op ∈ ops, op.Named)
    (hstorable : ∀ op ∈ ops, op.Storable)
    (hids : GoodIds e.ids (Multigraph.history e.ids ops (.empty, e.issued)).2) :
    let g := (Multigraph.history e.ids ops (.empty, e.issued)).1
    let e' := ((RecordOp.runAll ops).run e).2
    ∀ kind id, id ∈ g.ids kind →
      (∀ key value, g.property kind id key = some value ↔ RecordOp.SetLast ops kind id key value) ∧
      (∀ before op after, ops = before ++ op :: after → op.Drops kind id →
        id ∉ (Multigraph.history e.ids before (.empty, e.issued)).1.ids kind) ∧
      (∃ fields, Json.Tabulates fields (g.property kind id) ∧
        (properties kind id).run.run e' = (.ok fields, e')) ∧
      (∀ names args, (∀ n ∈ names, Key.isToken n = true) → Arguments.Spell names args →
        ∃ fields, Json.Tabulates fields (g.asked kind id names) ∧
          (Chain.startingAt kind id [⟨.valueMap, args⟩]).Yields e' [.ok (.value (.obj fields))] ∧
          (Chain.startingAt kind id [⟨.properties, args⟩]).Yields e' (fields.map Task.row)) ∧
      (∀ key value, IsPropertyKey key → Arguments.scalar .has (some value) = .ok value →
        (Chain.startingAt kind id [⟨.has, [.str key, value]⟩]).Yields e'
          (if (g.property kind id key).any (·.scalarEqual value) then [.ok (.ofElement kind id)]
            else [])) ∧
      ∀ key value, IsPropertyKey key → value.Storable →
        ∃ e'' fields, (setProperty kind id key value).run.run e' = (.ok (), e'') ∧
          e'.AgreesApart e'' kind id key ∧ (properties kind id).run.run e'' = (.ok fields, e'') ∧
          Json.Tabulates fields fun k => if k = key then some value else g.property kind id k := by
  intro g e' kind id hid
  obtain ⟨htracks, -⟩ := (Tracks.empty hempty).run hops hids
  have h : e'.Keeps g := htracks.keeps
  have hg : g.Storable := Multigraph.Storable.history (s := (.empty, e.issued))
    (fun _ _ _ _ hnone => by cases hnone) hstorable
  have hsorted : ∀ v : Survey, v.Sorted g :=
    Survey.sorted_of_ascending ((Multigraph.Ascending.empty e.ids e.issued).history hids) hids
  have htoken : Key.isToken id = true := h.sound.isToken_of_has (x := (kind, id)) hid
  refine ⟨Multigraph.property_history hids (.inl hid), ?_, ?_,
    fun names args hnames hargs => h.yields_map hg hid hnames hargs,
    fun key value hkey hvalue => h.yields_has hg hid hkey hvalue, fun key value hkey hvalue => ?_⟩
  · rintro before op after rfl hop
    exact Multigraph.not_mem_of_drop_before hids hop hid
  · obtain ⟨fields, hread, hfields⟩ := h.properties_run kind hg htoken
    exact ⟨fields, hfields, hread⟩
  · obtain ⟨e'', hset, hkeeps, hagrees⟩ := h.setProperty_apart kind hg hsorted htoken hkey hvalue
    obtain ⟨fields, hread, hfields⟩ :=
      hkeeps.properties_run kind (hg.setProperty hvalue) htoken
    refine ⟨e'', fields, hset, hagrees, hread, hfields.congr fun k => ?_⟩
    simp only [Multigraph.setProperty, true_and]

/-- A name that is set twice, with a list between, and a neighbour that is dropped with its edge. -/
def renamingOps : List RecordOp :=
  [.createVertex "person", .createVertex "person",
    .createEdge "knows" (elementId 0) (elementId 1),
    .setProperty .vertex (elementId 0) "name" (.str "Ann"),
    .setProperty .vertex (elementId 1) "name" (.str "Cid"),
    .setProperty .vertex (elementId 0) "tags" (.arr [.int 7, .obj [("a", .null)]]),
    .setProperty .vertex (elementId 0) "name" (.str "Bob"), .dropVertex (elementId 1)]

theorem propertyMap_renamingOps :
    RecordOp.SetLast renamingOps .vertex (elementId 0) "name" (.str "Bob") ∧
      (Chain.startingAt .vertex (elementId 0) [⟨.has, [.str "name", .str "Bob"]⟩]).Yields
        ((RecordOp.runAll renamingOps).run (Engine.ofStore Memory.empty)).2
        [.ok (.vertex (elementId 0))] := by
  obtain ⟨hlast, -, -, -, hhas, -⟩ := @Engine.propertyMap_history Memory _ _
    (Engine.ofStore Memory.empty) (fun _ => rfl) renamingOps (by decide) (by decide) (by decide)
    .vertex (elementId 0) (by decide)
  exact ⟨(hlast _ _).1 (by decide), hhas "name" (.str "Bob") (by decide) rfl⟩

end PropertyGraph
