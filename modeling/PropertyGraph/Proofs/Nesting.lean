/-
Values that nest deep. Setting a property takes a value of any depth, since its text is written
without a look at it, while a text is read only up to a depth. So after any history all that is told
of properties is what the graph tells (`Engine.Tells`): the values that were set, or a failure
wherever one of those asked for nests deeper than a text may (`Engine.nesting_history`). One such value
makes its element unreadable, unless it is asked for other names only, and what a scan brings has the
failure in the place of that element and goes on behind it.
-/
import PropertyGraph.Proofs.LastWrite

namespace PropertyGraph

open PropertyGraph.Graph

/-! ## Values of a depth -/

namespace Json

/-- A list in a list, so many deep. -/
def nest : Nat → Json
  | 0 => .null
  | n + 1 => .arr [nest n]

theorem depth_nest (n : Nat) : (nest n).depth = n := by
  induction n with
  | zero => rfl
  | succ n ih => rw [nest, depth, depthItems, depthItems, ih, Nat.max_zero]

theorem readable_nest (n : Nat) : (nest n).readable = true := by
  induction n with
  | zero => rfl
  | succ n ih => rw [nest, readable, readableItems, readableItems, ih, Bool.and_true]

end Json

namespace RecordOp

/-- What is set is a value that is spelled by its text, however deep it nests. -/
def Readable : RecordOp → Prop
  | .setProperty _ _ _ value => value.readable = true
  | _ => True

instance : (op : RecordOp) → Decidable op.Readable
  | .setProperty _ _ _ value => inferInstanceAs (Decidable (value.readable = true))
  | .createVertex _ | .createEdge _ _ _ | .dropEdge _ | .dropVertex _ | .dropAll =>
    inferInstanceAs (Decidable True)

end RecordOp

namespace Multigraph

variable {g : Multigraph} {kind : ElementKind} {id key : String} {value : Json}

theorem readable_history {ids : Nat → String} {n : Nat} {ops : List RecordOp}
    (hops : ∀ op ∈ ops, op.Readable) : (history ids ops (.empty, n)).1.Readable := by
  have hempty : (Multigraph.empty, n).1.Readable := fun _ _ _ _ hnone => by cases hnone
  exact forall_property_history hempty fun _ _ _ _ hop => hops _ hop

theorem ids_setProperty (g : Multigraph) (kind kind' : ElementKind) (id key : String) (value : Json) :
    (g.setProperty kind id key value).ids kind' = g.ids kind' := by
  cases kind' <;> rfl

/-- Surveys find the same elements. -/
theorem sorted_setProperty {v : Survey} (h : v.Sorted g) :
    v.Sorted (g.setProperty kind id key value) := by
  refine h.sublist ?_
  cases v with
  | vertices f => cases f <;> exact .refl _
  | edges => exact .refl _

theorem Readable.setProperty (h : g.Readable) (hvalue : value.readable = true) :
    (g.setProperty kind id key value).Readable := by
  intro kind' id' key' value' hstored
  simp only [Multigraph.setProperty] at hstored
  split at hstored
  · cases hstored
    exact hvalue
  · exact h kind' id' key' value' hstored

/-- Under one key its value is told, as it is read back. -/
theorem tells_property (hkey : IsPropertyKey key) (hproperty : g.property kind id key = some value) :
    g.Tells kind id [key] (value.readBack.map fun value => [(key, value)]) := by
  have hasked : ∀ k, g.asked kind id [key] k = if k = key then some value else none := by
    intro k
    rw [asked, if_neg (List.cons_ne_nil _ _)]
    by_cases hk : k = key
    · subst hk
      simp [named?, hkey.2.1, hkey.2.2, hproperty]
    · simp [hk]
  by_cases hdepth : value.depth ≤ Json.maxDepth
  · rw [Json.readBack, if_pos hdepth]
    refine ⟨fun k value' hvalue => ?_, List.pairwise_singleton _ _, fun k value' => ?_⟩
    · rw [hasked] at hvalue
      split at hvalue
      · cases hvalue
        exact hdepth
      · cases hvalue
    · rw [hasked, List.mem_singleton, Prod.mk.injEq]
      by_cases hk : k = key
      · simp [hk, eq_comm]
      · simp [hk]
  · rw [Json.readBack, if_neg hdepth]
    exact ⟨rfl, key, value, (hasked key).trans (if_pos rfl), Nat.lt_of_not_le hdepth⟩

end Multigraph

/-! ## What is told -/

section Telling

variable {σ : Type} [Backend σ] [LawfulBackend σ] {e : Engine σ} {g : Multigraph} {kind : ElementKind}
  {id key : String} {value : Json}

omit [LawfulBackend σ] in
/-- All that is told of properties is what a graph tells: of one element and in a scan of all
elements of a kind, as one map or in rows, whichever names are asked for. -/
def Engine.Tells (e : Engine σ) (g : Multigraph) : Prop :=
  ∀ kind names args, (∀ n ∈ names, Key.isToken n = true) → Arguments.Spell names args →
    ∃ outcome : String → Except Error (List (String × Json)),
      (∀ id ∈ g.ids kind, g.Tells kind id names (outcome id) ∧
        (readProperties kind id names).run.run e = (outcome id, e) ∧
        (Chain.startingAt kind id [⟨.valueMap, args⟩]).Yields e [Item.ofMap (outcome id)] ∧
        (Chain.startingAt kind id [⟨.properties, args⟩]).Yields e (Task.rows (outcome id))) ∧
      (Chain.startingAtAll kind [⟨.valueMap, args⟩]).Yields e
        ((g.ids kind).map fun id => Item.ofMap (outcome id)) ∧
      (Chain.startingAtAll kind [⟨.properties, args⟩]).Yields e
        ((g.ids kind).flatMap fun id => Task.rows (outcome id))

/-- What a store keeps is told. -/
theorem Engine.Keeps.tells (h : e.Keeps g) (hg : g.Readable) (hsorted : ∀ v : Survey, v.Sorted g) :
    e.Tells g := by
  intro kind names args hnames hargs
  have houtcome : ∀ id, ∃ outcome, id ∈ g.ids kind → g.Tells kind id names outcome := by
    intro id
    by_cases hid : id ∈ g.ids kind
    · obtain ⟨outcome, -, htells⟩ := h.readProperties_tells kind (hg kind id)
        (h.sound.isToken_of_has (x := (kind, id)) hid) hnames
      exact ⟨outcome, fun _ => htells⟩
    · exact ⟨.ok [], fun hthere => absurd hthere hid⟩
  choose outcome htells using houtcome
  refine ⟨outcome, fun id hid => ⟨htells id hid, ?_,
    h.yields_told (hg kind id) hid hnames hargs (htells id hid)⟩,
    h.yields_toldAll hg hsorted hnames hargs htells⟩
  exact h.readProperties_told kind (hg kind id) (h.sound.isToken_of_has (x := (kind, id)) hid) hnames
    (htells id hid)

/-- A query that sets a property of one element succeeds, whatever the value. -/
theorem Engine.Keeps.setting_startingAt (h : e.Keeps g) (hid : id ∈ g.ids kind)
    (hkey : IsPropertyKey key) (value : Json) (c : Config) :
    ∃ e', (∃ n, ∀ budget, n ≤ budget →
        (do (← (Chain.startingAt kind id [⟨.property, [.str key, value]⟩]).openStream
          c.optimizer).items? budget : Attempt σ _).run.run e =
            (.ok (some [.ok (.ofElement kind id)]), e')) ∧
      e'.Keeps (g.setProperty kind id key value) ∧ e.Beside e' := by
  have htoken := h.sound.isToken_of_has (x := (kind, id)) hid
  have hcalls : Chain.resolveFrom kind.type [⟨.property, [.str key, value]⟩] =
      .ok [⟨Operation.property.name, [.str key, value], kind.type, kind.type, .property key value⟩] := by
    have hrule : kind.type.rule? .property = some ⟨.property, kind.type, .transform⟩ := by
      cases kind <;> rfl
    refine Chain.resolveFrom_cons hrule ?_ rfl
    simp only [Step.ofCall, List.getElem?_cons_zero, List.getElem?_cons_succ, Arguments.propertyKey,
      Validation.propertyKey_eq_ok.2 hkey, Arguments.value]
    rfl
  obtain ⟨trace, e', hruns, htrace, hkeeps, hbeside, -⟩ :=
    (Multigraph.supplies_selected (σ := σ) hid).runs_setting (by simpa using htoken) hkey value h
  obtain ⟨n, hn⟩ := hruns.items?_run
  refine ⟨e', ⟨n, fun budget hbudget => ?_⟩, hkeeps, hbeside⟩
  rw [Attempt.bind_ok (Chain.openStream_startingAt htoken hcalls c e),
    ← show trace.map (·.1) = [.ok (.ofElement kind id)] from htrace]
  exact hn budget hbudget

end Telling

/-! ## After a history -/

/-- Whatever operations ran from an empty store, and whatever values they set, so long as these are
spelled by their texts: all that is told of properties is what the graph tells. Setting a property of
an element that is there succeeds for a value of any depth, and then all that is told is what the
graph with that value tells. Under its key alone it is read back, if it nests at most as deep as a
text may; if not, that fails, and so does every reading of all properties of its element. -/
theorem Engine.nesting_history {σ : Type} [Backend σ] [LawfulBackend σ] {e : Engine σ}
    (hempty : ∀ key, e.contents key = none) {ops : List RecordOp} (hops : ∀ op ∈ ops, op.Named)
    (hreadable : ∀ op ∈ ops, op.Readable)
    (hids : GoodIds e.ids (Multigraph.history e.ids ops (.empty, e.issued)).2) :
    let g := (Multigraph.history e.ids ops (.empty, e.issued)).1
    let e' := ((RecordOp.runAll ops).run e).2
    e'.Tells g ∧ ∀ kind id, id ∈ g.ids kind → ∀ key value, IsPropertyKey key → value.readable = true →
      ∀ c : Config, ∃ e'', (∃ n, ∀ budget, n ≤ budget →
          (do (← (Chain.startingAt kind id [⟨.property, [.str key, value]⟩]).openStream
            c.optimizer).items? budget : Attempt σ _).run.run e' =
              (.ok (some [.ok (.ofElement kind id)]), e'')) ∧
        e''.Tells (g.setProperty kind id key value) ∧
        (Chain.startingAt kind id [⟨.valueMap, [.str key]⟩]).Yields e''
          [Item.ofMap (value.readBack.map fun value => [(key, value)])] ∧
        (Json.maxDepth < value.depth →
          (properties kind id).run.run e'' = (.error .serialization, e'') ∧
          (Chain.startingAt kind id [⟨.valueMap, []⟩]).Yields e'' [.error .serialization] ∧
          (Chain.startingAt kind id [⟨.properties, []⟩]).Yields e'' [.error .serialization]) := by
  intro g e'
  obtain ⟨htracks, -⟩ := (Tracks.empty hempty).run hops hids
  have h : e'.Keeps g := htracks.keeps
  have hg : g.Readable := Multigraph.readable_history hreadable
  have hsorted : ∀ v : Survey, v.Sorted g :=
    Survey.sorted_of_ascending ((Multigraph.Ascending.empty e.ids e.issued).history hids) hids
  refine ⟨h.tells hg hsorted, fun kind id hid key value hkey hvalue c => ?_⟩
  obtain ⟨e'', hset, hkeeps, -⟩ := h.setting_startingAt hid hkey value c
  have hg' : (g.setProperty kind id key value).Readable := hg.setProperty hvalue
  have hsorted' : ∀ v : Survey, v.Sorted (g.setProperty kind id key value) := fun v =>
    Multigraph.sorted_setProperty (hsorted v)
  have hproperty : (g.setProperty kind id key value).property kind id key = some value := by
    simp [Multigraph.setProperty]
  have hid' : id ∈ (g.setProperty kind id key value).ids kind := by
    rwa [Multigraph.ids_setProperty]
  have htoken := h.sound.isToken_of_has (x := (kind, id)) hid
  have hone : ∀ n ∈ [key], Key.isToken n = true := by simpa using hkey.1
  have hnone : ∀ n ∈ ([] : List String), Key.isToken n = true := by simp
  refine ⟨e'', hset, hkeeps.tells hg' hsorted',
    (hkeeps.yields_told (hg' kind id) hid' hone (.inl rfl)
      (Multigraph.tells_property hkey hproperty)).1, fun hdepth => ?_⟩
  have htells : (g.setProperty kind id key value).Tells kind id [] (.error .serialization) :=
    ⟨rfl, key, value, (if_pos rfl).trans hproperty, hdepth⟩
  have hread : (properties kind id).run.run e'' = _ :=
    hkeeps.readProperties_told kind (hg' kind id) htoken hnone htells
  obtain ⟨hmap, hrows⟩ := hkeeps.yields_told (hg' kind id) hid' hnone (.inl rfl) htells
  exact ⟨hread, hmap, hrows⟩

/-- A list 128 deep is set, and then the properties of its element cannot be read; one 127 deep is
read back. -/
theorem nesting_person :
    let kept := ((RecordOp.runAll [.createVertex "person"]).run (Engine.ofStore Memory.empty)).2
    ∀ c : Config,
      (∃ after : Engine Memory, (∃ n, ∀ budget, n ≤ budget →
          (do (← (Chain.startingAt .vertex (elementId 0)
            [⟨.property, [.str "k", Json.nest 128]⟩]).openStream c.optimizer).items? budget :
              Attempt Memory _).run.run kept =
                (.ok (some [.ok (.vertex (elementId 0))]), after)) ∧
        (Chain.startingAt .vertex (elementId 0) [⟨.valueMap, []⟩]).Yields after
          [.error .serialization]) ∧
      ∃ after : Engine Memory,
        (Chain.startingAt .vertex (elementId 0) [⟨.valueMap, [.str "k"]⟩]).Yields after
          [.ok (.value (.obj [("k", Json.nest 127)]))] := by
  intro kept c
  obtain ⟨-, hset⟩ := @Engine.nesting_history Memory _ _ (Engine.ofStore Memory.empty) (fun _ => rfl)
    [.createVertex "person"] (by decide) (by decide) (by decide)
  obtain ⟨after, hsets, -, -, hdeep⟩ := hset .vertex (elementId 0) (by decide) "k" (Json.nest 128)
    (by decide) (Json.readable_nest 128) c
  obtain ⟨after', -, -, hread, -⟩ := hset .vertex (elementId 0) (by decide) "k" (Json.nest 127)
    (by decide) (Json.readable_nest 127) c
  have hdepth : Json.maxDepth < (Json.nest 128).depth := by rw [Json.depth_nest]; decide
  have hback : (Json.nest 127).readBack = .ok (Json.nest 127) :=
    if_pos (by rw [Json.depth_nest]; decide)
  rw [hback] at hread
  exact ⟨⟨after, hsets, (hdeep hdepth).2.1⟩, after', hread⟩

end PropertyGraph
