/-
Drops on a store that fails deletes, beside the same drops where nothing fails. Lists of ids are
never deleted before the records of their vertex are, so both sides read the same in them and
unlink the same (`InStep`, `Lags`). What a failed delete left behind is found again by the scans:
it is deleted once more, and where it is the marker of a neighbour, nothing of the vertex is found
there (`Lags.clearNeighbors`). So after any history a drop leaves what it leaves where no delete
fails, and besides just the keys of which every delete failed
(`Engine.failingDeletes_history`).
-/
import PropertyGraph.Proofs.FlakyStore
import PropertyGraph.Proofs.Postings
import PropertyGraph.Proofs.RecordOps

namespace PropertyGraph

open PropertyGraph.Graph

variable {σ α β : Type} [Backend σ] [LawfulBackend σ]

/-! ## Both sides in step -/

/-- An engine trails another one, all keys are keys of records, and no delete of a list of ids was
asked for. -/
structure Lags (start : String → Option Blob) (e : Engine σ) (e' : Engine (Flaky σ)) : Prop
    extends Trails start e e' where
  records : ∀ key, start key ≠ none → ∃ r : RecordKey, r.Valid ∧ key = r.text
  lists : ∀ s : Scope, s.Valid → ∀ a, ¬e'.store.Tried (RecordKey.index s a).text

/-- Operations give the same value and keep one engine behind the other. -/
def InStep (start : String → Option Blob) (x : Run σ α) (x' : Run (Flaky σ) α) : Prop :=
  ∀ e e', Lags start e e' → (x'.run e').1 = (x.run e).1 ∧ Lags start (x.run e).2 (x'.run e').2

variable {start : String → Option Blob} {e e₁ : Engine σ} {e' : Engine (Flaky σ)}

namespace Lags

/-- What is there where nothing fails is a table of records. -/
theorem holds (h : Lags start e e') : e.Holds fun r => e.contents r.text :=
  ⟨fun _ _ => rfl, fun key hkey => h.records key ((h.kept key).1 hkey).1⟩

/-- And so is what is there where deletes fail. -/
theorem holds_steady (h : Lags start e e') : e'.steady.Holds fun r => e'.steady.contents r.text :=
  ⟨fun _ _ => rfl, fun key hkey => h.records key (h.started hkey)⟩

/-- Only what is there where nothing fails counts on that side. -/
theorem congr (h : Lags start e e') (hcontents : ∀ key, e₁.contents key = e.contents key) :
    Lags start e₁ e' :=
  ⟨h.toTrails.congr hcontents, h.records, h.lists⟩

/-- A delete that is asked for of no list, where the record is gone then on the other side. -/
theorem delete {r : RecordKey} (h : Lags start e e') (hr : r.Valid) (hlist : ∀ s a, r ≠ .index s a)
    (hgone : ∀ k, e₁.contents k = if k = r.text then none else e.contents k) :
    Lags start e₁ ((deleteQuietly r.text).run e').2 := by
  refine ⟨h.toTrails.delete hgone, h.records, fun s hs a htried => ?_⟩
  rcases (Engine.tried_deleteQuietly _ _ _).1 htried with heq | hbefore
  · exact hlist s a (RecordKey.text_injective (r := .index s a) hs hr heq).symm
  · exact h.lists s hs a hbefore

/-- A key of which no delete was asked for is written on both sides. -/
theorem write {key : String} {e₁' : Engine (Flaky σ)} (h : Lags start e e')
    (hkey : ¬e'.store.Tried key) (hdeletes : e₁'.store.deletes = e'.store.deletes)
    (hthere : e₁.contents key ≠ none ↔ e.contents key ≠ none)
    (hsame : e₁'.steady.contents key = e₁.contents key)
    (hothers : ∀ k, k ≠ key → e₁.contents k = e.contents k)
    (hothers' : ∀ k, k ≠ key → e₁'.steady.contents k = e'.steady.contents k) :
    Lags start e₁ e₁' := by
  refine ⟨h.toTrails.write hdeletes (fun k => ?_) (fun k hk => ?_) fun k hk => ?_, h.records,
    fun s hs a => ?_⟩
  · by_cases heq : k = key
    · rw [heq, hthere]
    · rw [hothers k heq]
  · by_cases heq : k = key
    · rw [heq, hsame]
    · rw [hothers k heq, hothers' k heq, h.untried k hk]
  · refine hothers' k ?_
    rintro rfl
    exact hkey hk
  · rw [Flaky.Tried, hdeletes]
    exact h.lists s hs a

end Lags

namespace InStep

theorem pure (a : α) : InStep start (Pure.pure a : Run σ α) (Pure.pure a) := fun _ _ h => ⟨rfl, h⟩

theorem bind {x : Run σ α} {x' : Run (Flaky σ) α} {f : α → Run σ β} {f' : α → Run (Flaky σ) β}
    (hx : InStep start x x') (hf : ∀ a, InStep start (f a) (f' a)) :
    InStep start (x >>= f) (x' >>= f') := by
  intro e e' h
  obtain ⟨hvalue, hlags⟩ := hx e e' h
  rw [Run.bind_run, Run.bind_run, hvalue]
  exact hf _ _ _ hlags

theorem forM {f : α → Run σ Unit} {f' : α → Run (Flaky σ) Unit} {l : List α}
    (hf : ∀ a ∈ l, InStep start (f a) (f' a)) : InStep start (l.forM f) (l.forM f') := by
  induction l with
  | nil => exact .pure ()
  | cons a l ih =>
    show InStep start (f a >>= fun _ => l.forM f) (f' a >>= fun _ => l.forM f')
    exact bind (hf a (by simp)) fun _ => ih fun b hb => hf b (List.mem_cons_of_mem _ hb)

theorem deleteQuietly {r : RecordKey} (hr : r.Valid) (hlist : ∀ s a, r ≠ .index s a) :
    InStep start (deleteQuietly r.text : Run σ Unit) (deleteQuietly r.text) :=
  fun e _ h => ⟨rfl, h.delete hr hlist (Engine.contents_deleteQuietly r.text e)⟩

end InStep

/-! ## Edges -/

/-- A key is the same on two stores if its record is. -/
theorem Engine.Holds.contents_eq {m m₁ : Records} (he : e.Holds m) (he₁ : e₁.Holds m₁)
    {key : String} (h : ∀ r : RecordKey, r.Valid → key = r.text → m₁ r = m r) :
    e₁.contents key = e.contents key := by
  by_cases hrecord : ∃ r : RecordKey, r.Valid ∧ key = r.text
  · obtain ⟨r, hr, rfl⟩ := hrecord
    rw [he₁.stored r hr, he.stored r hr, h r hr rfl]
  · rw [not_not.1 fun hthere => hrecord (he₁.only key hthere),
      not_not.1 fun hthere => hrecord (he.only key hthere)]

/-- Taking an id out of a list changes the list and no other key. -/
theorem Engine.Holds.takeOut_run {m : Records} (he : e.Holds m) {r : RecordKey} (hr : r.Valid)
    (id : String) (all : Bool) :
    ∃ e₁, (Engine.quietly r.text false (removeFromIndex r.text id all)).run e =
        (((m.takeOut r id all).ids? r).any (·.contains id), e₁) ∧
      e₁.contents r.text = m.takeOut r id all r ∧
      ∀ k, k ≠ r.text → e₁.contents k = e.contents k := by
  have htaken : Leads m (Engine.quietly r.text false (removeFromIndex r.text id all) : Run σ Bool) _ :=
    .quietly (completes_removeFromIndex hr m id all)
  obtain ⟨m', hholds, hvalue, rfl⟩ := htaken e he
  refine ⟨_, Prod.ext hvalue rfl, hholds.stored r hr, fun k hk => ?_⟩
  refine he.contents_eq hholds fun r' hr' hrecord => Records.takeOut_of_ne m id all ?_
  rintro rfl
  exact hk hrecord

/-- What stays of a list depends on nothing but the list. -/
theorem Records.takeOut_congr {m m' : Records} {r : RecordKey} (h : m r = m' r) (id : String)
    (all : Bool) : m.takeOut r id all r = m'.takeOut r id all r := by
  rw [takeOut, takeOut, ids?_congr h]
  cases m'.ids? r with
  | none => exact h
  | some ids =>
    dsimp only
    split
    · exact h
    · rw [set_self, set_self]

/-- A list stays where it was. -/
theorem Records.takeOut_ne_none (m : Records) (r : RecordKey) (id : String) (all : Bool) :
    m.takeOut r id all r ≠ none ↔ m r ≠ none := by
  rw [takeOut]
  cases hids : m.ids? r with
  | none => rfl
  | some ids =>
    have hthere : m r ≠ none := fun h => by simp [ids?, h] at hids
    dsimp only
    split
    · rfl
    · simp [hthere]

namespace InStep

variable {s : Scope}

theorem removeFromIndex (hs : s.Valid) (a : Adjacency) (id : String) (all : Bool) :
    InStep start
      (Engine.quietly (RecordKey.index s a).text false
        (removeFromIndex (RecordKey.index s a).text id all) : Run σ Bool)
      (Engine.quietly (RecordKey.index s a).text false
        (removeFromIndex (RecordKey.index s a).text id all)) := by
  intro e e' h
  have hr : (RecordKey.index s a).Valid := hs
  have hsame := h.untried _ (h.lists s hs a)
  obtain ⟨e₁, hrun, hlist, hothers⟩ := h.holds.takeOut_run hr id all
  obtain ⟨e₂, hrun', hlist', hothers'⟩ := h.holds_steady.takeOut_run hr id all
  have hcongr : Records.takeOut (fun r => e'.steady.contents r.text) (.index s a) id all _ =
      Records.takeOut (fun r => e.contents r.text) (.index s a) id all _ :=
    Records.takeOut_congr hsame id all
  rw [Steady.quietly (Steady.removeFromIndex _ id all), hrun, hrun']
  refine ⟨by rw [Records.ids?_congr hcongr], ?_⟩
  refine h.write (h.lists s hs a) rfl ?_ (hlist'.trans (hcongr.trans hlist.symm)) hothers hothers'
  rw [hlist]
  exact Records.takeOut_ne_none _ _ id all

theorem unlinkEnd (hs : s.Valid) {edge other : String} (hedge : IsName edge)
    (hother : IsName other) :
    InStep start (unlinkEnd edge s.vertex s.direction (some other) s.label : Run σ Unit)
      (unlinkEnd edge s.vertex s.direction (some other) s.label) := by
  have hmarker : (RecordKey.marker s .edges edge).Valid := ⟨hs, hedge⟩
  have hneighbor : (RecordKey.marker s .vertices other).Valid := ⟨hs, hother⟩
  simp only [Graph.unlinkEnd, Key.marker_eq, Key.index_eq]
  refine .bind (deleteQuietly hmarker (by simp)) fun _ => ?_
  refine .bind (removeFromIndex hs .edges edge true) fun _ => ?_
  refine .bind (removeFromIndex hs .vertices other false) fun stillLinked => ?_
  cases stillLinked with
  | true => exact .pure ()
  | false => exact deleteQuietly hneighbor (by simp)

/-- Unlinking an edge whose label and ends are known. -/
theorem unlinkEdge {y : Edge} (hy : y.Named) :
    InStep start (unlinkEdge y.id (some y.label) (some y.source) (some y.target) : Run σ Unit)
      (unlinkEdge y.id (some y.label) (some y.source) (some y.target)) := by
  have hend : ∀ d b, InStep start
      (Graph.unlinkEnd y.id (y.scope d b).vertex (y.scope d b).direction (some (y.far d))
        (y.scope d b).label : Run σ Unit)
      (Graph.unlinkEnd y.id (y.scope d b).vertex (y.scope d b).direction (some (y.far d))
        (y.scope d b).label) :=
    fun d b => unlinkEnd (hy.scope_valid d b) hy.id (hy.far d)
  refine .forM fun x hx => ?_
  simp only [edgeEnds, List.mem_cons, List.not_mem_nil, or_false] at hx
  rcases hx with rfl | rfl
  · exact .bind (hend .outgoing false) fun _ => hend .outgoing true
  · exact .bind (hend .incoming false) fun _ => hend .incoming true

end InStep

section Children

variable {id : String}

/-- A scan where deletes fail finds what the other one finds, and what was left behind. -/
theorem Trails.contents_found (h : Trails start e e') (p : String → Bool) (k : String) :
    (if k ∈ e.keys.filter p then none else e.contents k) =
      if k ∈ e'.steady.keys.filter p then none else e.contents k := by
  by_cases hkey : e.contents k = none
  · simp [hkey]
  · have hfound : k ∈ e'.steady.keys ↔ k ∈ e.keys := by
      rw [Engine.mem_keys_iff, Engine.mem_keys_iff, h.same hkey]
    simp only [List.mem_filter, hfound]

/-- Everything below the marker of an element is deleted. -/
theorem Trails.deleteChildren (h : Trails start e e') (hid : Key.isToken id = true)
    (kind : ElementKind) :
    Trails start ((deleteChildren kind id).run e).2 ((deleteChildren kind id).run e').2 := by
  rw [Graph.deleteChildren, Graph.deleteChildren, Run.bind_run, Run.bind_run,
    collectQuietly_run (KeyPattern.parse_children hid) rfl rfl,
    Engine.collectQuietly_flaky (KeyPattern.parse_children hid) rfl rfl]
  refine h.deleteAll fun k => ?_
  rw [Engine.contents_deleteAll, h.contents_found]

/-- No list is below the marker of an edge. -/
theorem InStep.deleteChildren (hid : Key.isToken id = true) :
    InStep start (deleteChildren .edge id : Run σ Unit) (deleteChildren .edge id) := by
  intro e e' h
  refine ⟨rfl, h.toTrails.deleteChildren hid .edge, h.records, fun s hs a htried => ?_⟩
  rw [Graph.deleteChildren, Run.bind_run,
    Engine.collectQuietly_flaky (KeyPattern.parse_children hid) rfl rfl,
    Engine.tried_deleteAll] at htried
  rcases htried with hfound | hbefore
  · have howner := (KeyPattern.children_accepts (r := .index s a) hs .edge id).1
      (List.mem_filter.1 hfound).2
    cases howner
  · exact h.lists s hs a hbefore

end Children

section Dropping

variable {id : String}

/-- Dropping an edge of which it is known what is recorded of its label and ends. -/
def dropKnown {σ : Type} [Backend σ] (id : String) (label source target : Option String) :
    Run σ Unit := do
  deleteQuietly (Key.enumeration .edge id)
  unlinkEdge id label source target
  deleteChildren .edge id
  deleteQuietly (Key.element .edge id)

omit [Backend σ] [LawfulBackend σ] in
/-- An edge is dropped by what reading gives. -/
theorem dropEdge_run {τ : Type} [Backend τ] {e : Engine τ} {contents : String → Option Blob}
    (hread : ∀ key, (Engine.quietly key none (readText key)).run e =
      ((contents key).map Blob.string, e)) (id : String) :
    (dropEdge id).run e = (dropKnown id ((contents (Key.label .edge id)).map Blob.string)
      ((contents (Key.edgeFrom id)).map Blob.string)
      ((contents (Key.edgeTo id)).map Blob.string)).run e := by
  rw [dropEdge, getLabel, Run.bind_run, hread, Run.bind_run, hread, Run.bind_run, hread]
  rfl

theorem inStep_dropKnown (hid : Key.isToken id = true) {label source target : Option String}
    (hunlink : InStep start (unlinkEdge id label source target : Run σ Unit)
      (unlinkEdge id label source target)) :
    InStep start (dropKnown id label source target : Run σ Unit)
      (dropKnown id label source target) := by
  refine .bind (.deleteQuietly (r := .plain (.listing .edge id)) hid (by simp)) fun _ => ?_
  refine .bind hunlink fun _ => ?_
  refine .bind (.deleteChildren hid) fun _ => ?_
  exact .deleteQuietly (r := .plain (.element .edge id)) hid (by simp)

/-- What is recorded of an edge by which it is unlinked: its label and its ends. -/
structure Engine.Links (e : Engine σ) (y : Edge) : Prop where
  label : e.contents (Key.label .edge y.id) = some (.text y.label)
  source : e.contents (Key.edgeFrom y.id) = some (.text y.source)
  target : e.contents (Key.edgeTo y.id) = some (.text y.target)

/-- An edge that is still recorded is dropped the same way. -/
theorem Lags.dropEdge (h : Lags start e e') {y : Edge} (hy : y.Named) (hlinks : e.Links y) :
    Lags start ((dropEdge y.id).run e).2 ((dropEdge y.id).run e').2 := by
  have hsame : ∀ {key value}, e.contents key = some value →
      e'.steady.contents key = some value := fun hkey => by
    rw [h.same (by simp [hkey]), hkey]
  rw [dropEdge_run e.readQuietly_run, dropEdge_run e'.readQuietly_flaky, hlinks.label,
    hlinks.source, hlinks.target, hsame hlinks.label, hsame hlinks.source, hsame hlinks.target]
  exact (inStep_dropKnown hy.id.1 (.unlinkEdge hy) e e' h).2

end Dropping

/-! ## Edges of a graph -/

/-- On a store that holds `m` where nothing fails and then holds `m'`, operations keep one engine
behind the other. -/
def Alongside (start : String → Option Blob) (m : Records) (x : Run σ Unit)
    (x' : Run (Flaky σ) Unit) (m' : Records) : Prop :=
  ∀ e e', Lags start e e' → e.Holds m →
    Lags start (x.run e).2 (x'.run e').2 ∧ (x.run e).2.Holds m'

namespace Alongside

variable {m m' m'' : Records}

theorem pure (m : Records) : Alongside start m (Pure.pure () : Run σ Unit) (Pure.pure ()) m :=
  fun _ _ h he => ⟨h, he⟩

theorem bind {x : Run σ Unit} {x' : Run (Flaky σ) Unit} {f : Unit → Run σ Unit}
    {f' : Unit → Run (Flaky σ) Unit} (hx : Alongside start m x x' m')
    (hf : Alongside start m' (f ()) (f' ()) m'') : Alongside start m (x >>= f) (x' >>= f') m'' := by
  intro e e' h he
  obtain ⟨hlags, hholds⟩ := hx e e' h he
  exact hf _ _ hlags hholds

theorem of_acts {x : Run σ Unit} {x' : Run (Flaky σ) Unit} (hacts : Acts x m () m')
    (hlags : ∀ e e', Lags start e e' → e.Holds m → Lags start (x.run e).2 (x'.run e').2) :
    Alongside start m x x' m' := by
  intro e e' h he
  obtain ⟨e₁, hrun, he₁, -⟩ := hacts e he
  exact ⟨hlags e e' h he, by rwa [hrun]⟩

section Edges

variable {g : Multigraph} {neighbors : Scope → List String} (start : String → Option Blob)
  (hidden : PlainKey → Prop) [DecidablePred hidden]

theorem dropEdge (hg : g.Sound) (hfits : g.Fits neighbors)
    (hhidden : ∀ key, hidden key → key.about.1 = .vertex) {y : Edge} (hy : y ∈ g.edges) :
    ∃ neighbors', (g.dropEdge y.id).Fits neighbors' ∧
      Alongside start ((g.layout neighbors).hide hidden).record (dropEdge y.id : Run σ Unit)
        (dropEdge y.id) (((g.dropEdge y.id).layout neighbors').hide hidden).record := by
  have hnamed := hg.edges y hy
  have hedge : g.edge? y.id = some y := (Multigraph.edge?_eq_some hg).2 hy
  have hacts := acts_dropEdge_hide (σ := σ) hidden hg neighbors hhidden hnamed.id.1
  refine ⟨_, hfits.thinned [y.id], .of_acts hacts fun e e' h he => h.dropEdge hnamed ?_⟩
  have hrecord : ∀ key : PlainKey, key.Valid → key.about.1 = .edge →
      e.contents (RecordKey.plain key).text = (g.layout neighbors).plain key := by
    intro key hkey habout
    have hnot : ¬hidden key := fun h => by
      rw [hhidden key h] at habout
      cases habout
    rw [he.stored (.plain key) hkey]
    simp [Layout.record, Layout.hide, hnot]
  constructor
  · exact (hrecord (.label .edge y.id) hnamed.id.1 rfl).trans (by simp [Multigraph.layout, hedge])
  · exact (hrecord (.source y.id) hnamed.id.1 rfl).trans (by simp [Multigraph.layout, hedge])
  · exact (hrecord (.target y.id) hnamed.id.1 rfl).trans (by simp [Multigraph.layout, hedge])

/-- Dropping edges one after the other, each of which is still there. -/
theorem dropEdges {ids : List String} (hids : ∀ id ∈ ids, id ∈ g.ids .edge) (hnodup : ids.Nodup)
    (hg : g.Sound) (hfits : g.Fits neighbors)
    (hhidden : ∀ key, hidden key → key.about.1 = .vertex) :
    ∃ neighbors', (g.removeEdges ids).Fits neighbors' ∧
      Alongside start ((g.layout neighbors).hide hidden).record (ids.forM Graph.dropEdge : Run σ Unit)
        (ids.forM Graph.dropEdge) (((g.removeEdges ids).layout neighbors').hide hidden).record := by
  induction ids generalizing g neighbors with
  | nil =>
    rw [removeEdges_nil]
    exact ⟨neighbors, hfits, .pure _⟩
  | cons id ids ih =>
    obtain ⟨hnew, hdistinct⟩ := List.nodup_cons.1 hnodup
    obtain ⟨y, hy, rfl⟩ := Multigraph.exists_edge (hids id (by simp))
    obtain ⟨n1, hfits1, hfirst⟩ := dropEdge (σ := σ) start hidden hg hfits hhidden hy
    have hrest : ∀ i ∈ ids, i ∈ (g.removeEdges [y.id]).ids .edge := fun i hi =>
      Multigraph.mem_ids_removeEdges.2 ⟨hids i (List.mem_cons_of_mem _ hi), by
        rintro ⟨-, hmem⟩
        exact hnew (List.mem_singleton.1 hmem ▸ hi)⟩
    obtain ⟨n2, hfits2, hothers⟩ := ih hrest hdistinct (hg.removeEdges [y.id]) hfits1
    have hall : (g.removeEdges [y.id]).removeEdges ids = g.removeEdges (y.id :: ids) :=
      removeEdges_removeEdges g [y.id] ids
    rw [hall] at hfits2 hothers
    refine ⟨n2, hfits2, ?_⟩
    show Alongside start _ (Graph.dropEdge y.id >>= fun _ => ids.forM Graph.dropEdge)
      (Graph.dropEdge y.id >>= fun _ => ids.forM Graph.dropEdge) _
    exact bind hfirst hothers

end Edges

end Alongside

/-! ## Neighbours -/

/-- No vertex knows a vertex as its neighbour. -/
structure Engine.Forgets (e : Engine σ) (id : String) : Prop where
  marker : ∀ s : Scope, s.Valid → e.contents (RecordKey.marker s .vertices id).text = none
  list : ∀ s : Scope, s.Valid → ∀ ids,
    (e.contents (RecordKey.index s .vertices).text).bind Blob.ids? = some ids → id ∉ ids

/-- A list that does not hold an id stays as it is. -/
theorem Records.takeOut_of_not_mem {m : Records} {r : RecordKey} {id : String}
    (h : ∀ ids, m.ids? r = some ids → id ∉ ids) (all : Bool) : m.takeOut r id all = m := by
  rw [takeOut]
  cases hids : m.ids? r with
  | none => rfl
  | some ids =>
    have hsame : remaining ids id all = ids := by
      cases all with
      | true =>
        refine List.filter_eq_self.2 fun i hi => ?_
        simpa using ne_of_mem_of_not_mem hi (h ids hids)
      | false => exact List.erase_of_not_mem (h ids hids)
    exact if_pos hsame

namespace Lags

variable {id : String}

/-- A neighbour that was left behind is asked to forget a vertex it does not know any more. -/
theorem forgetNeighbor (h : Lags start e e') (hid : IsName id) (hforgets : e.Forgets id) {s : Scope}
    (hs : s.Valid) :
    Lags start e ((forgetNeighbor s.vertex s.direction s.label id).run e').2 := by
  have hmarker : (RecordKey.marker s .vertices id).Valid := ⟨hs, hid⟩
  have hgone : ∀ k, e.contents k =
      if k = (RecordKey.marker s .vertices id).text then none else e.contents k := fun k => by
    split
    · rename_i hk
      rw [hk, hforgets.marker s hs]
    · rfl
  have hafter := h.delete hmarker (by simp) hgone
  simp only [Graph.forgetNeighbor, Key.marker_eq, Key.index_eq]
  rw [Run.bind_run]
  generalize ((deleteQuietly (RecordKey.marker s .vertices id).text).run e').2 = e₁' at hafter ⊢
  have hlist := hafter.lists s hs .vertices
  have hsame := hafter.untried _ hlist
  obtain ⟨e₂, hrun, hkept, hothers⟩ :=
    hafter.holds_steady.takeOut_run (r := .index s .vertices) hs id true
  have hnot : ∀ ids, Records.ids? (fun r => e₁'.steady.contents r.text) (.index s .vertices) =
      some ids → id ∉ ids := fun ids hids => hforgets.list s hs ids (by rw [← hsame]; exact hids)
  rw [Records.takeOut_of_not_mem hnot] at hkept
  rw [Run.bind_run, Steady.quietly (Steady.removeFromIndex _ id true), hrun]
  exact hafter.write hlist rfl Iff.rfl (hkept.trans hsame) (fun _ _ => rfl) hothers

/-- What keeps an engine behind another one that stands still, done for several keys. -/
theorem forM (h : Lags start e e') {f : String → Run (Flaky σ) Unit} {keys : List String}
    (hf : ∀ key ∈ keys, ∀ e₁' : Engine (Flaky σ), Lags start e e₁' →
      Lags start e ((f key).run e₁').2) : Lags start e ((keys.forM f).run e').2 := by
  induction keys generalizing e' with
  | nil => exact h
  | cons key keys ih =>
    exact ih (hf key (by simp) e' h) fun k hk => hf k (List.mem_cons_of_mem _ hk)

/-- The markers of neighbours that were left behind are found once more. -/
theorem clearNeighbors (h : Lags start e e') (hid : IsName id) (hforgets : e.Forgets id)
    (d : Direction) : Lags start e ((clearNeighbors id d).run e').2 := by
  -- what a scan finds is the key of a record that is still there, and so the key of a marker
  have hrecord : ∀ {e₁' : Engine (Flaky σ)} {p : KeyPattern}, Lags start e e₁' →
      ∀ key ∈ e₁'.steady.keys.filter p.accepts, ∃ r : RecordKey, r.Valid ∧ key = r.text ∧
        p.accepts r.text = true := by
    intro e₁' p h₁ key hkey
    obtain ⟨hthere, haccepts⟩ := List.mem_filter.1 hkey
    obtain ⟨r, hr, rfl⟩ := h₁.holds_steady.only key (Engine.mem_keys_iff.1 hthere)
    exact ⟨r, hr, rfl, haccepts⟩
  rw [Graph.clearNeighbors, Run.bind_run,
    Engine.collectQuietly_flaky (KeyPattern.parse_markers (scope_valid hid.1 d) .vertices) rfl
      (by simp [KeyPattern.isExact, KeyPattern.markers]), Run.bind_run]
  have hall : Lags start e (((e'.steady.keys.filter
      (KeyPattern.markers ⟨id, d, none⟩ .vertices).accepts).forM fun key => do
        let neighbor := Key.lastToken key
        if neighbor != Key.indexToken then
          Graph.forgetNeighbor neighbor d.reverse none id : Run (Flaky σ) Unit).run e').2 := by
    refine h.forM fun key hkey e₁' h₁ => ?_
    obtain ⟨r, hr, rfl, haccepts⟩ := hrecord h key hkey
    rcases (KeyPattern.markers_accepts hr _ .vertices).1 haccepts with rfl | ⟨t, rfl⟩
    · rw [lastToken_index _ hr]
      exact h₁
    · rw [lastToken_marker hr]
      dsimp only
      split
      · exact h₁.forgetNeighbor hid hforgets (s := ⟨t, d.reverse, none⟩) (scope_valid hr.2.1 _)
      · exact h₁
  generalize ((List.forM _ _ : Run (Flaky σ) Unit).run e').2 = e₁' at hall ⊢
  rw [Run.bind_run,
    Engine.collectQuietly_flaky (KeyPattern.parse_labeledMarkers hid.1 d .vertices) rfl
      (by simp [KeyPattern.isExact, KeyPattern.labeledMarkers])]
  refine hall.forM fun key hkey e₂' h₂ => ?_
  obtain ⟨r, hr, rfl, haccepts⟩ := hrecord hall key hkey
  obtain ⟨l, rfl | ⟨t, rfl⟩⟩ := (KeyPattern.labeledMarkers_accepts hr id d .vertices).1 haccepts
  · rw [Key.token?, Key.token?, hr.tokens_text]
    exact h₂
  · rw [Key.token?, Key.token?, hr.tokens_text]
    show Lags start e ((if t != Key.indexToken then Graph.forgetNeighbor t d.reverse (some l) id
      else Pure.pure () : Run (Flaky σ) Unit).run e₂').2
    split
    · exact h₂.forgetNeighbor hid hforgets (s := ⟨t, d.reverse, some l⟩) ⟨hr.2.1, hr.1.label⟩
    · exact h₂

end Lags

/-! ## Vertices -/

section Vertex

variable {g : Multigraph} {neighbors : Scope → List String} {id : String}

/-- With the edges at a vertex gone, no list of neighbours has it. -/
theorem Multigraph.Fits.not_mem (hfits : (g.removeEdges (g.incident id)).Fits neighbors)
    (s : Scope) : id ∉ neighbors s := by
  intro hmem
  obtain ⟨y, hy, hfar⟩ := List.mem_map.1 ((hfits s).mem_iff.1 hmem)
  refine near_ne_of_removed (List.mem_of_mem_filter hy) s.direction.reverse ?_
  rw [← hfar]
  cases s.direction <;> rfl

theorem forgets_of_removed (hg : g.Sound) (hid : IsName id)
    (hfits : (g.removeEdges (g.incident id)).Fits neighbors) {hidden : PlainKey → Prop}
    [DecidablePred hidden]
    (he : e.Holds (((g.removeEdges (g.incident id)).layout neighbors).hide hidden).record) :
    e.Forgets id := by
  have hnot : ∀ s, id ∉ (((g.removeEdges (g.incident id)).layout neighbors).hide hidden).listed s
      .vertices := fun s hmem =>
    hfits.not_mem s (Multigraph.listed_vertices (hg.removeEdges (g.incident id)) hfits s ▸ hmem)
  constructor
  · intro s hs
    rw [he.stored (.marker s .vertices id) ⟨hs, hid⟩]
    exact if_neg (hnot s)
  · intro s hs ids hids
    rw [he.stored (.index s .vertices) hs, Layout.record_index] at hids
    have hlist := Layout.getD_list? (((g.removeEdges (g.incident id)).layout neighbors).hide hidden)
      s .vertices
    cases hthere : Layout.list? _ s .vertices with
    | none =>
      rw [hthere] at hids
      cases hids
    | some kept =>
      rw [hthere] at hids hlist
      rw [Option.map_some, Option.bind_some, ids?_idList] at hids
      obtain rfl := Option.some.inj hids
      rw [show kept = _ from hlist]
      exact hnot s

/-- Where no vertex knows the vertex any more, there is nothing to clear but what was left. -/
theorem Alongside.clearNeighbors (start : String → Option Blob) {m : Records} (hid : IsName id)
    (hmarker : ∀ s : Scope, s.vertex = id → ∀ t, m (.marker s .vertices t) = none)
    (hforgets : ∀ e : Engine σ, e.Holds m → e.Forgets id) (d : Direction) :
    Alongside start m (clearNeighbors id d : Run σ Unit) (clearNeighbors id d) m := by
  have hacts := acts_clearNeighbors (σ := σ) hid.1 hmarker d
  refine .of_acts hacts fun e e' h he => ?_
  obtain ⟨e₁, hrun, he₁, -⟩ := hacts e he
  rw [hrun]
  exact (h.clearNeighbors hid (hforgets e he) d).congr fun key => he.contents_eq he₁ fun _ _ _ => rfl

/-- Dropping a vertex as far as the records of other elements go, where the edges at it are
known. -/
def unlinkVertex {σ : Type} [Backend σ] (id : String) (incident : List String) : Run σ Unit := do
  deleteQuietly (Key.enumeration .vertex id)
  incident.forM dropEdge
  clearNeighbors id .outgoing
  clearNeighbors id .incoming

omit [Backend σ] [LawfulBackend σ] in
/-- A vertex is dropped with the edges that reading gives. -/
theorem dropVertex_run {τ : Type} [Backend τ] {e e₁ : Engine τ} {ids : List String}
    (hread : (Engine.quietly (Key.element .vertex id) [] (incidentEdges id)).run e = (ids, e₁)) :
    (dropVertex id).run e = (do
      unlinkVertex id ids
      deleteChildren .vertex id
      deleteQuietly (Key.element .vertex id) : Run τ Unit).run e₁ := by
  rw [dropVertex, Run.bind_run, hread]
  rfl

theorem alongside_unlinkVertex (start : String → Option Blob) (hg : g.Sound)
    (hfits : g.Fits neighbors) (hid : IsName id) {ids : List String} (hnodup : ids.Nodup)
    (hids : ∀ i, i ∈ ids ↔ i ∈ g.incident id) :
    ∃ m, Alongside start (g.layout neighbors).record (unlinkVertex id ids : Run σ Unit)
      (unlinkVertex id ids) m := by
  have hlive : ∀ i ∈ ids, i ∈ g.ids .edge := fun i hi => by
    obtain ⟨y, hy, rfl⟩ := List.mem_map.1 ((hids i).1 hi)
    exact List.mem_map_of_mem (List.mem_of_mem_filter hy)
  obtain ⟨n, hn, hedges⟩ := Alongside.dropEdges (σ := σ) start
    (· = .listing .vertex id) hlive hnodup hg hfits (by rintro key rfl; rfl)
  rw [removeEdges_congr g hids] at hn hedges
  have hmarker := marker_of_removed hg hn (· = .listing .vertex id)
  have hlisting : Alongside start (g.layout neighbors).record
      (deleteQuietly (Key.enumeration .vertex id) : Run σ Unit)
      (deleteQuietly (Key.enumeration .vertex id))
      ((g.layout neighbors).hide (· = .listing .vertex id)).record :=
    .of_acts (acts_deletePlain (k := .listing .vertex id) hid.1 _) fun e e' h _ =>
      (InStep.deleteQuietly (r := .plain (.listing .vertex id)) hid.1 (by simp) e e' h).2
  have hclear := Alongside.clearNeighbors (σ := σ) start hid hmarker
    fun e he => forgets_of_removed hg hid hn he
  exact ⟨_, .bind hlisting (.bind hedges (.bind (hclear .outgoing) (hclear .incoming)))⟩

/-- Whatever deletes fail while a vertex is dropped, it trails the drop where none fails. -/
theorem Trails.dropVertex (he : e.Holds (g.layout neighbors).record) (hg : g.Sound)
    (hfits : g.Fits neighbors) (hlive : id ∈ g.ids .vertex) (fails : Nat → Bool) :
    Trails e.contents ((dropVertex id).run e).2 ((dropVertex id).run (e.flaky fails)).2 := by
  obtain ⟨v, hv, rfl⟩ := List.mem_map.1 hlive
  have hid := (hg.vertices v hv).1
  obtain ⟨ids, hnodup, hids, hincident⟩ := does_incidentEdges (σ := σ) hg neighbors hid.1
  have hreads : Acts (Engine.quietly (Key.element .vertex v.id) [] (incidentEdges v.id) : Run σ _)
      _ ids _ := .quietly hincident
  obtain ⟨e₁, hrun, he₁, -⟩ := hreads e he
  have hrun' : (Engine.quietly (Key.element .vertex v.id) [] (incidentEdges v.id)).run
      (e.flaky fails) = (ids, e₁.flaky fails) := by
    rw [Steady.quietly (Steady.incidentEdges v.id), show (e.flaky fails).steady = e from rfl, hrun]
    rfl
  have hsame : e₁.contents = e.contents := funext fun key => he.contents_eq he₁ fun _ _ _ => rfl
  obtain ⟨m, hunlink⟩ := alongside_unlinkVertex (σ := σ) e₁.contents hg hfits hid hnodup hids
  obtain ⟨hlags, -⟩ := hunlink e₁ (e₁.flaky fails)
    ⟨.refl e₁ fails, he₁.only, fun s hs a => by simp [Flaky.Tried, Engine.flaky]⟩ he₁
  rw [dropVertex_run hrun, dropVertex_run hrun', ← hsame]
  exact (hlags.toTrails.deleteChildren hid.1 .vertex).delete (Engine.contents_deleteQuietly _ _)

/-- And so it is for an edge. -/
theorem Trails.dropEdge (he : e.Holds (g.layout neighbors).record) (hg : g.Sound)
    (hfits : g.Fits neighbors) (hlive : id ∈ g.ids .edge) (fails : Nat → Bool) :
    Trails e.contents ((dropEdge id).run e).2 ((dropEdge id).run (e.flaky fails)).2 := by
  obtain ⟨y, hy, rfl⟩ := Multigraph.exists_edge hlive
  obtain ⟨_, -, hdrop⟩ := Alongside.dropEdge (σ := σ) e.contents (fun _ => False) hg hfits
    (fun _ h => h.elim) hy
  rw [Layout.hide_false] at hdrop
  exact (hdrop e (e.flaky fails)
    ⟨.refl e fails, he.only, fun s hs a => by simp [Flaky.Tried, Engine.flaky]⟩ he).1.toTrails

end Vertex

/-! ## After a history -/

/-- Drops an element. -/
def dropElement {σ : Type} [Backend σ] : (kind : ElementKind) → (id : String) → Run σ Unit
  | .vertex, id => dropVertex id
  | .edge, id => dropEdge id

/-- Whatever operations ran from an empty store, where ids are handed out as they should be,
and whichever deletes fail while an element that is there is dropped: the drop comes to its end. It
leaves the keys that it leaves where no delete fails, with the same values, and besides just the
keys that were there before, of which a delete was asked for and every one failed. -/
theorem Engine.failingDeletes_history {e : Engine σ} (hempty : ∀ key, e.contents key = none)
    {ops : List RecordOp} (hops : ∀ op ∈ ops, op.Named)
    (hids : GoodIds e.ids (Multigraph.history e.ids ops (.empty, e.issued)).2)
    {kind : ElementKind} {id : String}
    (hlive : id ∈ (Multigraph.history e.ids ops (.empty, e.issued)).1.ids kind)
    (fails : Nat → Bool) :
    let start := ((RecordOp.runAll ops).run e).2
    let intact := ((dropElement kind id).run start).2
    ∃ left : Engine (Flaky σ),
      (liftM (dropElement kind id : Run (Flaky σ) Unit) : Attempt (Flaky σ) Unit).run.run
        (start.flaky fails) = (.ok (), left) ∧
      ∀ key, (left.steady.contents key ≠ none ↔ intact.contents key ≠ none ∨
          start.contents key ≠ none ∧ left.store.Tried key ∧ left.store.Refused key) ∧
        (intact.contents key ≠ none → left.steady.contents key = intact.contents key) := by
  intro start intact
  obtain ⟨htracks, -⟩ := (Tracks.empty hempty).run hops hids
  obtain ⟨hsound, neighbors, hfits, hholds⟩ := htracks.keeps
  have htrails : Trails start.contents intact ((dropElement kind id).run (start.flaky fails)).2 := by
    cases kind with
    | vertex => exact .dropVertex hholds hsound hfits hlive fails
    | edge => exact .dropEdge hholds hsound hfits hlive fails
  exact ⟨_, rfl, fun key => ⟨htrails.left_iff key, htrails.same⟩⟩

/-- Two vertices with parallel edges between them and a loop. -/
def knottedOps : List RecordOp :=
  [.createVertex "person", .createVertex "person",
    .createEdge "knows" (elementId 0) (elementId 1), .createEdge "knows" (elementId 0) (elementId 1),
    .createEdge "likes" (elementId 1) (elementId 1), .setProperty .vertex (elementId 1) "name" .null]

/-- Of three deletes one is made. -/
theorem failingDeletes_knottedOps :
    let start := ((RecordOp.runAll knottedOps).run (Engine.ofStore Memory.empty)).2
    let intact := ((dropElement .vertex (elementId 1)).run start).2
    ∃ left : Engine (Flaky Memory),
      (liftM (dropElement .vertex (elementId 1) : Run (Flaky Memory) Unit) :
        Attempt (Flaky Memory) Unit).run.run (start.flaky fun n => n % 3 != 1) = (.ok (), left) ∧
      ∀ key, (left.steady.contents key ≠ none ↔ intact.contents key ≠ none ∨
          start.contents key ≠ none ∧ left.store.Tried key ∧ left.store.Refused key) ∧
        (intact.contents key ≠ none → left.steady.contents key = intact.contents key) :=
  Engine.failingDeletes_history (e := Engine.ofStore Memory.empty) (fun _ => rfl) (by decide)
    (by decide) (by decide) fun n => n % 3 != 1

end PropertyGraph
