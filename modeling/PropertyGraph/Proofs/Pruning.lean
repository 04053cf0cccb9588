/-
Drops out of a store of any contents, where lists and ends of edges may lead anywhere. A drop brings
no key: it deletes keys, and a list it writes was there (`Prunes`). So what its last steps clear stays
away (`Clears`), and where nothing of an element is left, a drop of it changes nothing (`Rests`). A
drop leaves nothing of its element, and a second one leaves everything as it is (`Engine.drop_twice`).
-/
import PropertyGraph.Proofs.FlakyDrops
import PropertyGraph.Proofs.Reading

namespace PropertyGraph

open PropertyGraph.Graph

/-! ## The keys of an element -/

/-- A key of an element: its marker, the entry that lists it, or one below its marker. -/
def Key.Owned (kind : ElementKind) (id key : String) : Prop :=
  key = element kind id ∨ key = enumeration kind id ∨
    ∃ t rest, tokens key = kind.root :: id :: t :: rest ∧ t ≠ ""

namespace Key

variable {kind : ElementKind} {id : String}

theorem owned_children {key : String} (h : (KeyPattern.children kind id).accepts key = true) :
    Owned kind id key :=
  .inr (.inr ((KeyPattern.matchTokens_below (l := [kind.root, id])).1 h))

variable (kind) in
theorem owned_join (hid : isToken id = true) (ts : List String)
    (hts : ∀ t ∈ ts, isToken t = true) (hne : ts ≠ []) :
    Owned kind id (join (kind.root :: id :: ts)) := by
  obtain ⟨t, rest, rfl⟩ := List.exists_cons_of_ne_nil hne
  refine .inr (.inr ⟨t, rest, tokens_join fun u hu => ?_, ne_empty_of_isToken (hts t (by simp))⟩)
  apply dot_not_mem_of_isToken
  rcases List.mem_cons.1 hu with rfl | hu
  · exact isToken_root kind
  · rcases List.mem_cons.1 hu with rfl | hu
    · exact hid
    · exact hts u hu

/-- The keys a pattern for one family of records of an element matches. -/
theorem owned_of_accepts {p : KeyPattern} {t : String} {slots : List Slot} (ht : isToken t = true)
    (hp : p.slots = .literal kind.root :: .literal id :: .literal t :: slots) {key : String}
    (h : p.accepts key = true) : Owned kind id key := by
  rw [KeyPattern.accepts, hp] at h
  rcases hts : tokens key with _ | ⟨a, _ | ⟨b, _ | ⟨c, rest⟩⟩⟩ <;> rw [hts] at h
  · simp [KeyPattern.matchTokens] at h
  · simp [KeyPattern.matchTokens] at h
  · simp [KeyPattern.matchTokens] at h
  · simp only [KeyPattern.matchTokens, Slot.accepts, Bool.and_eq_true, beq_iff_eq] at h
    obtain ⟨rfl, rfl, rfl, -⟩ := h
    exact .inr (.inr ⟨_, rest, hts, ne_empty_of_isToken ht⟩)

end Key

variable {σ α β : Type} [Backend σ] [LawfulBackend σ]

/-! ## No key comes -/

/-- An operation brings no key. -/
def Prunes (operation : Run σ α) : Prop :=
  ∀ e key, e.contents key = none → (operation.run e).2.contents key = none

namespace Prunes

open Engine

theorem pure (a : α) : Prunes (pure a : Run σ α) := fun _ _ h => h

theorem bind {x : Run σ α} {f : α → Run σ β} (hx : Prunes x) (hf : ∀ a, Prunes (f a)) :
    Prunes (x >>= f) :=
  fun e key h => hf _ _ key (hx e key h)

theorem andThen {x : Attempt σ α} {f : α → Attempt σ β} (hx : Prunes x.run)
    (hf : ∀ a, Prunes (f a).run) : Prunes (x >>= f).run := by
  refine .bind (f := ExceptT.bindCont f) hx fun outcome => ?_
  cases outcome with
  | ok a => exact hf a
  | error err => exact .pure _

theorem lift {x : Run σ α} (hx : Prunes x) : Prunes (liftM x : Attempt σ α).run :=
  fun e key h => hx e key h

theorem forM {f : α → Run σ Unit} (hf : ∀ a, Prunes (f a)) (l : List α) : Prunes (l.forM f) := by
  induction l with
  | nil => exact .pure ()
  | cons a l ih => exact .bind (hf a) fun _ => ih

theorem note (notice : Notice) : Prunes (Engine.note notice : Run σ Unit) := fun _ _ h => h

theorem quietly {key : String} {instead : α} {x : Attempt σ α} (hx : Prunes x.run) :
    Prunes (Engine.quietly key instead x) := by
  refine .bind hx fun outcome => ?_
  cases outcome with
  | ok a => exact .pure a
  | error err => exact .bind (.note _) fun _ => .pure instead

theorem of_reads {x : Attempt σ α} (hx : Reads x) : Prunes x.run := by
  intro e key h
  rwa [contents, hx.store e]

theorem deleteQuietly (key : String) : Prunes (deleteQuietly key : Run σ Unit) := by
  intro e k h
  rw [contents_deleteQuietly, h, ite_self]

theorem collectQuietly (pattern : String) : Prunes (collectQuietly pattern : Run σ _) :=
  .quietly (.of_reads (.keysDespite _ _))

end Prunes

namespace Graph

open Engine

theorem readIndex_absent {key : String} {e : Engine σ} (h : e.contents key = none) :
    (readIndex key).run.run e = (.ok none, e) := by
  have hnone : (LawfulBackend.entries e.store).get? key = none := by simpa [contents] using h
  rw [readIndex, Attempt.bind_ok (get_run key e), hnone]
  rfl

/-- A list that is written was there. -/
theorem prunes_removeFromIndex (key id : String) (all : Bool) :
    Prunes (removeFromIndex key id all : Attempt σ _).run := by
  intro e k hk
  show ((removeFromIndex key id all).run.run e).2.contents k = none
  by_cases hkey : e.contents key = none
  · rw [removeFromIndex, Attempt.bind_ok (readIndex_absent hkey)]
    exact hk
  · have hne : k ≠ key := by
      rintro rfl
      exact hkey hk
    obtain ⟨log, hstate⟩ := (reads_readIndex key).state e
    rw [removeFromIndex, Attempt.bind_run, hstate]
    rcases ((readIndex key).run.run e).1 with err | _ | ids
    · exact hk
    · exact hk
    · dsimp only
      generalize (if all then ids.filter (· != id) else ids.erase id) = left
      split
      · rw [Attempt.bind_ok (update_run key (idList left) _)]
        refine (contents_write _ key (idList left) k).trans ?_
        rw [if_neg hne]
        exact hk
      · exact hk

theorem prunes_unlinkEnd (edge vertex : String) (direction : Direction) (other label : Option String) :
    Prunes (unlinkEnd edge vertex direction other label : Run σ Unit) := by
  refine .bind (.deleteQuietly _) fun _ => .bind (.quietly (prunes_removeFromIndex _ _ _)) fun _ => ?_
  cases other with
  | none => exact .pure ()
  | some other =>
    refine .bind (.quietly (prunes_removeFromIndex _ _ _)) fun stillLinked => ?_
    cases stillLinked with
    | true => exact .pure ()
    | false => exact .deleteQuietly _

theorem prunes_unlinkEdge (edge : String) (label source target : Option String) :
    Prunes (unlinkEdge edge label source target : Run σ Unit) := by
  refine .forM (fun e => ?_) _
  obtain ⟨vertex, direction, other⟩ := e
  cases vertex with
  | none => exact .pure ()
  | some vertex =>
    refine .bind (prunes_unlinkEnd _ _ _ _ _) fun _ => ?_
    cases label with
    | none => exact .pure ()
    | some label => exact prunes_unlinkEnd _ _ _ _ _

theorem prunes_deleteChildren (kind : ElementKind) (id : String) :
    Prunes (deleteChildren kind id : Run σ Unit) :=
  .bind (.collectQuietly _) fun _ => .forM .deleteQuietly _

theorem prunes_dropEdge (id : String) : Prunes (dropEdge id : Run σ Unit) :=
  .bind (.quietly (.of_reads (reads_readText _))) fun _ =>
    .bind (.quietly (.of_reads (reads_readText _))) fun _ =>
      .bind (.quietly (.of_reads (reads_readText _))) fun _ =>
        .bind (.deleteQuietly _) fun _ => .bind (prunes_unlinkEdge _ _ _ _) fun _ =>
          .bind (prunes_deleteChildren _ _) fun _ => .deleteQuietly _

theorem prunes_forgetNeighbor (neighbor : String) (direction : Direction) (label : Option String)
    (gone : String) : Prunes (forgetNeighbor neighbor direction label gone : Run σ Unit) :=
  .bind (.deleteQuietly _) fun _ => .bind (.quietly (prunes_removeFromIndex _ _ _)) fun _ => .pure ()

theorem prunes_clearNeighbors (id : String) (direction : Direction) :
    Prunes (clearNeighbors id direction : Run σ Unit) := by
  refine .bind (.collectQuietly _) fun _ => .bind (.forM (fun key => ?_) _) fun _ =>
    .bind (.collectQuietly _) fun _ => .forM (fun key => ?_) _
  · dsimp only
    split
    · exact prunes_forgetNeighbor _ _ _ _
    · exact .pure ()
  · split
    · split
      · exact prunes_forgetNeighbor _ _ _ _
      · exact .pure ()
    · exact .pure ()

theorem prunes_dropVertex (id : String) : Prunes (dropVertex id : Run σ Unit) := by
  have hincident : Reads (incidentEdges id : Attempt σ _) :=
    .bind (reads_adjacentIds _ _ _ _) fun _ => .bind (reads_adjacentIds _ _ _ _) fun _ => .pure _
  exact .bind (.quietly (.of_reads hincident)) fun _ => .bind (.deleteQuietly _) fun _ =>
    .bind (.forM prunes_dropEdge _) fun _ => .bind (prunes_clearNeighbors _ _) fun _ =>
      .bind (prunes_clearNeighbors _ _) fun _ => .bind (prunes_deleteChildren _ _) fun _ =>
        .deleteQuietly _

theorem prunes_dropAll : Prunes (dropAll : Attempt σ Unit).run :=
  .andThen (.of_reads (.keysDespite _ _)) fun _ => .lift (.forM .deleteQuietly _)

end Graph

/-! ## Keys that are cleared -/

/-- An operation leaves nothing under a key. -/
def Clears (operation : Run σ α) (key : String) : Prop :=
  ∀ e, (operation.run e).2.contents key = none

namespace Clears

variable {key : String} {x : Run σ α} {f : α → Run σ β}

theorem after (hf : ∀ a, Clears (f a) key) : Clears (x >>= f) key := fun _ => hf _ _

theorem before (hx : Clears x key) (hf : ∀ a, Prunes (f a)) : Clears (x >>= f) key :=
  fun e => hf _ _ key (hx e)

theorem deleteQuietly (key : String) : Clears (deleteQuietly key : Run σ Unit) key := by
  intro e
  rw [Engine.contents_deleteQuietly, if_pos rfl]

theorem deleteChildren {kind : ElementKind} {id : String} (hid : Key.isToken id = true)
    (h : (KeyPattern.children kind id).accepts key = true) :
    Clears (deleteChildren kind id : Run σ Unit) key := by
  intro e
  rw [Graph.deleteChildren, Run.bind_run,
    collectQuietly_run (KeyPattern.parse_children hid) rfl rfl, Engine.contents_deleteAll]
  by_cases hkey : e.contents key = none
  · rw [hkey, ite_self]
  · exact if_pos (List.mem_filter.2 ⟨Engine.mem_keys_iff.2 hkey, h⟩)

end Clears

/-- A drop of an element leaves none of its keys. -/
theorem clears_dropElement (kind : ElementKind) {id key : String} (hid : Key.isToken id = true)
    (h : Key.Owned kind id key) : Clears (dropElement kind id : Run σ Unit) key := by
  cases kind with
  | edge =>
    refine .after fun label => .after fun source => .after fun target => ?_
    rcases h with rfl | rfl | h
    · exact .after fun _ => .after fun _ => .after fun _ => .deleteQuietly _
    · exact .before (.deleteQuietly _) fun _ => .bind (prunes_unlinkEdge _ _ _ _) fun _ =>
        .bind (prunes_deleteChildren _ _) fun _ => .deleteQuietly _
    · exact .after fun _ => .after fun _ =>
        .before (.deleteChildren hid ((KeyPattern.matchTokens_below (l := ["edge", id])).2 h)) fun _ =>
          .deleteQuietly _
  | vertex =>
    refine .after fun incident => ?_
    rcases h with rfl | rfl | h
    · exact .after fun _ => .after fun _ => .after fun _ => .after fun _ => .after fun _ =>
        .deleteQuietly _
    · exact .before (.deleteQuietly _) fun _ => .bind (.forM prunes_dropEdge _) fun _ =>
        .bind (prunes_clearNeighbors _ _) fun _ => .bind (prunes_clearNeighbors _ _) fun _ =>
          .bind (prunes_deleteChildren _ _) fun _ => .deleteQuietly _
    · exact .after fun _ => .after fun _ => .after fun _ => .after fun _ =>
        .before (.deleteChildren hid ((KeyPattern.matchTokens_below (l := ["node", id])).2 h)) fun _ =>
          .deleteQuietly _

/-! ## Nothing left to do -/

/-- Where there is none of some keys, an operation gives this value and changes nothing. -/
def Rests (gone : String → Prop) (operation : Run σ α) (a : α) : Prop :=
  ∀ e : Engine σ, (∀ key, gone key → e.contents key = none) →
    (operation.run e).1 = a ∧
      LawfulBackend.entries (operation.run e).2.store = LawfulBackend.entries e.store

namespace Rests

open Engine

variable {gone : String → Prop}

theorem pure (a : α) : Rests gone (pure a : Run σ α) a := fun _ _ => ⟨rfl, rfl⟩

theorem bind {x : Run σ α} {f : α → Run σ β} {a : α} {b : β} (hx : Rests gone x a)
    (hf : Rests gone (f a) b) : Rests gone (x >>= f) b := by
  intro e he
  obtain ⟨ha, hentries⟩ := hx e he
  have he' : ∀ key, gone key → (x.run e).2.contents key = none := by
    intro key hkey
    rw [contents, hentries]
    exact he key hkey
  obtain ⟨hb, hentries'⟩ := hf _ he'
  rw [Run.bind_run, ha]
  exact ⟨hb, hentries'.trans hentries⟩

theorem deleteQuietly {key : String} (h : gone key) :
    Rests gone (deleteQuietly key : Run σ Unit) () := by
  intro e he
  have hnone : (LawfulBackend.entries e.store).get? key = none := by
    simpa [contents] using he key h
  rw [Graph.deleteQuietly, quietly_ok (delete_run key e)]
  refine ⟨rfl, SortedMap.ext_get? fun k => ?_⟩
  rw [LawfulBackend.entries_erase]
  by_cases hk : k = key
  · rw [hk, hnone, SortedMap.get?_erase_self]
  · rw [SortedMap.get?_erase_of_ne _ hk]

theorem readText {key : String} (h : gone key) :
    Rests gone (quietly key none (readText key) : Run σ _) none := by
  intro e he
  rw [readQuietly_run, he key h]
  exact ⟨rfl, rfl⟩

theorem collectQuietly {pattern : String} {p : KeyPattern}
    (hread : KeyPattern.parse pattern = .ok p) (heverything : p.isEverything = false)
    (hexact : p.isExact = false) (h : ∀ key, p.accepts key = true → gone key) :
    Rests gone (collectQuietly pattern : Run σ _) [] := by
  intro e he
  rw [collectQuietly_run hread heverything hexact]
  refine ⟨List.filter_eq_nil_iff.2 fun key hkey haccepts => ?_, rfl⟩
  exact mem_keys_iff.1 hkey (he key (h key haccepts))

theorem deleteChildren {kind : ElementKind} {id : String} (hid : Key.isToken id = true)
    (h : ∀ key, Key.Owned kind id key → gone key) :
    Rests gone (deleteChildren kind id : Run σ Unit) () :=
  .bind (.collectQuietly (KeyPattern.parse_children hid) rfl rfl fun key hkey =>
    h key (Key.owned_children hkey)) (.pure ())

end Rests

section Vertex

open Engine

variable {id : String}

theorem owned_markers (id : String) (direction : Direction) (adjacency : Adjacency) {key : String}
    (h : (KeyPattern.markers ⟨id, direction, none⟩ adjacency).accepts key = true) :
    Key.Owned .vertex id key :=
  Key.owned_of_accepts (Key.isToken_segment direction adjacency) rfl h

/-- No ids are next to a vertex of which nothing is left. -/
theorem adjacentIds_absent (hid : Key.isToken id = true) (direction : Direction) (adjacency : Adjacency)
    {e : Engine σ} (he : ∀ key, Key.Owned .vertex id key → e.contents key = none) :
    (adjacentIds id direction adjacency none).run.run e = (.ok [], e) := by
  have hindex : e.contents (Key.index id direction adjacency none) = none := by
    refine he _ (Key.owned_join .vertex hid [_, _] ?_ (by simp))
    simpa using ⟨Key.isToken_segment direction adjacency, by decide⟩
  have hmarkers : e.keys.filter (KeyPattern.markers ⟨id, direction, none⟩ adjacency).accepts = [] :=
    List.filter_eq_nil_iff.2 fun key hkey haccepts =>
      mem_keys_iff.1 hkey (he key (owned_markers id direction adjacency haccepts))
  have hkeys := keysMatching_run (KeyPattern.parse_markers (scope_valid hid direction) adjacency) rfl
    (by simp [KeyPattern.isExact, KeyPattern.markers]) e
  rw [hmarkers] at hkeys
  rw [adjacentIds, Attempt.bind_ok (readIndex_absent hindex), Attempt.bind_ok hkeys]
  rfl

theorem rests_incidentEdges (hid : Key.isToken id = true) (key : String) :
    Rests (Key.Owned .vertex id) (quietly key [] (incidentEdges id) : Run σ _) [] := by
  intro e he
  have hrun : (incidentEdges id).run.run e = (.ok [], e) := by
    rw [incidentEdges, Attempt.bind_ok (adjacentIds_absent hid .outgoing .edges he),
      Attempt.bind_ok (adjacentIds_absent hid .incoming .edges he)]
    rfl
  rw [quietly_ok hrun]
  exact ⟨rfl, rfl⟩

theorem rests_clearNeighbors (hid : Key.isToken id = true) (direction : Direction) :
    Rests (Key.Owned .vertex id) (clearNeighbors id direction : Run σ Unit) () := by
  refine .bind (.collectQuietly (KeyPattern.parse_markers (scope_valid hid direction) .vertices) rfl
    (by simp [KeyPattern.isExact, KeyPattern.markers]) fun key => owned_markers id direction .vertices)
    (.bind (.pure ()) (.bind (.collectQuietly (KeyPattern.parse_labeledMarkers hid direction .vertices)
      rfl (by simp [KeyPattern.isExact, KeyPattern.labeledMarkers]) fun key => ?_) (.pure ())))
  exact Key.owned_of_accepts (Key.isToken_segment direction .vertices) rfl

end Vertex

/-- Where nothing of an element is left, a drop of it changes nothing. -/
theorem rests_dropElement (kind : ElementKind) {id : String} (hid : Key.isToken id = true) :
    Rests (Key.Owned kind id) (dropElement kind id : Run σ Unit) () := by
  cases kind with
  | edge =>
    have hbelow : ∀ t, Key.isToken t = true → Key.Owned .edge id (Key.join ["edge", id, t]) :=
      fun t ht => Key.owned_join .edge hid [t] (by simpa using ht) (by simp)
    exact .bind (.readText (hbelow Key.labelToken (by decide)))
      (.bind (.readText (hbelow "incoming" (by decide)))
        (.bind (.readText (hbelow "outgoing" (by decide)))
          (.bind (.deleteQuietly (.inr (.inl rfl))) (.bind (.pure ())
            (.bind (.deleteChildren hid fun _ h => h) (.deleteQuietly (.inl rfl)))))))
  | vertex =>
    exact .bind (rests_incidentEdges hid _) (.bind (.deleteQuietly (.inr (.inl rfl))) (.bind (.pure ())
      (.bind (rests_clearNeighbors hid .outgoing) (.bind (rests_clearNeighbors hid .incoming)
        (.bind (.deleteChildren hid fun _ h => h) (.deleteQuietly (.inl rfl)))))))

/-! ## Drops -/

/-- Out of a store of any contents, a drop of an element takes its marker, the entry that lists it
and all that stands below the marker, and a second drop of it changes neither a key nor an entry. -/
theorem Engine.drop_twice (e : Engine σ) (kind : ElementKind) {id : String}
    (hid : Key.isToken id = true) :
    let e₁ := ((dropElement kind id : Run σ Unit).run e).2
    let e₂ := ((dropElement kind id : Run σ Unit).run e₁).2
    (∀ key, Key.Owned kind id key → e₁.contents key = none) ∧
      LawfulBackend.entries e₂.store = LawfulBackend.entries e₁.store := by
  intro e₁ e₂
  have hgone : ∀ key, Key.Owned kind id key → e₁.contents key = none := fun key hkey =>
    clears_dropElement kind hid hkey e
  exact ⟨hgone, (rests_dropElement kind hid e₁ hgone).2⟩

/-- A store with a vertex that lists an edge of no proper id and one that leads out of the graph,
beside a list that is none. -/
def corruptStore : Memory :=
  [("node.a", ""), ("nodes.a", ""), ("node.a.label", "person"),
    ("node.a.outE.__index", "[\"b\",\"x.y\"]"), ("node.a.inE.__index", "no list"),
    ("node.a.inE.b", ""), ("node.a.outV.a", ""), ("edge.b.incoming", "a"),
    ("edge.b.outgoing", "c.d"), ("edges.x.y", ""), ("node.ab", "")].foldl
    (fun m record => m.write record.1 (.text record.2)) .empty

theorem drop_twice_corruptStore :
    let e : Engine Memory := .ofStore corruptStore
    let e₁ := ((dropElement .vertex "a" : Run Memory Unit).run e).2
    let e₂ := ((dropElement .vertex "a" : Run Memory Unit).run e₁).2
    Key.isToken "a" = true ∧ (∀ key, Key.Owned .vertex "a" key → e₁.contents key = none) ∧
      LawfulBackend.entries e₂.store = LawfulBackend.entries e₁.store :=
  ⟨by decide, Engine.drop_twice (.ofStore corruptStore) .vertex (by decide)⟩

end PropertyGraph
