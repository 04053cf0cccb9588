/-
Vertices that are torn. Two records find a vertex: its entry in the listing and the entry of its
label. Creating a vertex writes the entry of the label first, and dropping it deletes the entry
last, so where a call fails in between one is there without the other. Such a vertex is found by
one plan of a query and missed by the other. That it is torn shows in the error that creating it
ended with, or in what dropping it noted; all other vertices come with both plans, whatever
failed on the way (`Engine.torn_history`).
-/
import PropertyGraph.Proofs.HalfEdges
import PropertyGraph.Proofs.LabelQuery
import PropertyGraph.Proofs.SparedVertices

namespace PropertyGraph

open PropertyGraph.Graph

variable {σ : Type} [Backend σ] [LawfulBackend σ] {m m' m'' : Records} {id v : String}

/-! ## Whole vertices -/

namespace Records

/-- The label that finds a vertex is the one recorded of it, if it is listed. -/
def Whole (m : Records) (v : String) : Prop :=
  ∀ l, Key.isToken l = true → (m (.plain (.labelEntry v l)) ≠ none ↔
    m (.plain (.listing .vertex v)) ≠ none ∧
      (m (.plain (.label .vertex v))).map Blob.string = some l)

theorem Whole.congr (h : m.Whole v) (hsame : ∀ r, r.vertex? = some v → m' r = m r) : m'.Whole v := by
  intro l
  rw [hsame (.plain (.labelEntry v l)) rfl, hsame (.plain (.listing .vertex v)) rfl,
    hsame (.plain (.label .vertex v)) rfl]
  exact h l

/-- A vertex that nothing finds. -/
theorem Whole.of_none
    (hlisted : m (.plain (.listing .vertex v)) = none ∨ m (.plain (.label .vertex v)) = none)
    (hentry : ∀ l, Key.isToken l = true → m (.plain (.labelEntry v l)) = none) : m.Whole v := by
  intro l hl
  rcases hlisted with hlisting | hlabel
  · simp [hlisting, hentry l hl]
  · simp [hlabel, hentry l hl]

/-- Records of which some that are kept of a vertex are gone, and all that are kept of others are as
before. -/
structure Shed (id : String) (m m' : Records) : Prop where
  legible : m'.Legible
  other : ∀ r v, r.vertex? = some v → v ≠ id → m' r = m r
  gone : ∀ r, r.vertex? = some id → m' r = m r ∨ m' r = none

theorem Shed.trans (h : m.Shed id m') (h' : m'.Shed id m'') : m.Shed id m'' where
  legible := h'.legible
  other r v hr hv := (h'.other r v hr hv).trans (h.other r v hr hv)
  gone r hr := (h'.gone r hr).elim (fun hsame => hsame ▸ h.gone r hr) .inr

theorem Spared.shed (h : m.Spared m') (id : String) : m.Shed id m' where
  legible := h.legible
  other r v hr _ := h.vertex r (by simp [hr])
  gone r hr := .inl (h.vertex r (by simp [hr]))

/-- What is gone stays gone. -/
theorem Shed.eq_none (h : m.Shed id m') {r : RecordKey} (hr : r.vertex? = some id) (hnone : m r = none) :
    m' r = none :=
  (h.gone r hr).elim (·.trans hnone) fun hnone' => hnone'

theorem Shed.of_gone (hm : m.Legible) (hgone : ∀ r, m' r = m r ∨ m' r = none)
    (hother : ∀ r v, r.vertex? = some v → v ≠ id → m' r = m r) : m.Shed id m' :=
  ⟨hm.of_gone hgone, hother, fun r _ => hgone r⟩

/-- After a record of the vertex was deleted, or was not. -/
theorem Shed.delete (hm : m.Legible) {r : RecordKey} (hr : r.vertex? = some id)
    (h : m' = m ∨ m' = m.set r none) : m.Shed id m' := by
  rcases h with rfl | rfl
  · exact .of_gone hm (fun _ => .inl rfl) fun _ _ _ _ => rfl
  · refine .of_gone hm (fun r' => ?_) fun r' v hr' hv => set_of_ne _ _ ?_
    · by_cases hsame : r' = r
      · exact .inr (hsame ▸ set_self ..)
      · exact .inl (set_of_ne _ _ hsame)
    · rintro rfl
      exact hv (Option.some.inj (hr'.symm.trans hr))

/-- All records but those of one vertex are as before. -/
def OnlyOf (v : String) (m m' : Records) : Prop := ∀ r, r.vertex? ≠ some v → m' r = m r

theorem OnlyOf.refl (v : String) (m : Records) : m.OnlyOf v m := fun _ _ => rfl

theorem OnlyOf.set (h : m.OnlyOf v m') {r : RecordKey} (hr : r.vertex? = some v)
    (value : Option Blob) : m.OnlyOf v (m'.set r value) := by
  intro r' hr'
  rw [set_of_ne _ _ fun heq => ?_, h r' hr']
  rw [heq] at hr'
  exact hr' hr

/-- What is written about a vertex itself leaves records legible. -/
theorem OnlyOf.legible (h : m.OnlyOf v m') (hm : m.Legible) : m'.Legible := by
  intro r value hvalue
  by_cases hr : r.vertex? = some v
  · unfold RecordKey.vertex? at hr
    split at hr
    case h_5 => cases hr
    all_goals trivial
  · exact hm r value (h r hr ▸ hvalue)

end Records

/-! ## Creating that stops -/

section Creating

/-- Creating the records of a vertex leaves it whole, unless its entry in the listing failed. -/
theorem endures_vertexRecords (hid : Key.isToken id = true) {label : String}
    (hlabel : Key.isToken label = true) (hnew : ∀ r, r.vertex? = some id → m r = none) :
    Endures m (do
      createKey (Key.element .vertex id) id
      createKey (Key.label .vertex id) label
      createKey (Key.labelEntry id label) ""
      createKey (Key.enumeration .vertex id) ""
      return id : Attempt (Faulty σ) String).run fun outcome m' _ =>
      m.OnlyOf id m' ∧ (m'.Whole id ∨
        outcome = .error (.storage (.injected .create (Key.enumeration .vertex id)))) := by
  have hlisting := hnew (.plain (.listing .vertex id)) rfl
  have hentry := fun l (_ : Key.isToken l = true) => hnew (.plain (.labelEntry id l)) rfl
  have honly1 := (Records.OnlyOf.refl id m).set (r := .plain (.element .vertex id)) rfl
    (some (.text id))
  have honly2 := honly1.set (r := .plain (.label .vertex id)) rfl (some (.text label))
  have honly3 := honly2.set (r := .plain (.labelEntry id label)) rfl (some (.text ""))
  refine Endures.createKey_andThen (r := .plain (.element .vertex id)) hid ?_ fun _ _ =>
    ⟨.refl id m, .inl (.of_none (.inl hlisting) hentry)⟩
  refine Endures.createKey_andThen (r := .plain (.label .vertex id)) hid ?_ fun _ _ =>
    ⟨honly1, .inl (.of_none (.inl (by simpa [Records.set] using hlisting))
      (by simpa [Records.set] using hentry))⟩
  refine Endures.createKey_andThen (r := .plain (.labelEntry id label)) ⟨hid, hlabel⟩ ?_ fun _ _ =>
    ⟨honly2, .inl (.of_none (.inl (by simpa [Records.set] using hlisting))
      (by simpa [Records.set] using hentry))⟩
  refine Endures.createKey_andThen (r := .plain (.listing .vertex id)) hid ?_ fun _ hinjected =>
    ⟨honly3, .inr (congrArg _ (hinjected (by simpa [Records.set] using hlisting)))⟩
  refine .pure ⟨honly3.set rfl _, .inl fun l hl => ?_⟩
  by_cases hsame : l = label
  · subst hsame
    simp [Records.set, Blob.string]
  · have hne : label ≠ l := fun h => hsame h.symm
    simp [Records.set, Blob.string, hentry l hl, hsame, hne]

/-- Creating a vertex is refused and changes nothing, or comes to the records of the vertex. -/
theorem createVertex_cases {τ : Type} [Backend τ] (label : String) (e : Engine τ) :
    (∃ err, (createVertex label).run.run e = (.error err, e)) ∨
    (Key.isToken label = true ∧ (createVertex label).run.run e = (do
      createKey (Key.element .vertex (e.ids e.issued)) (e.ids e.issued)
      createKey (Key.label .vertex (e.ids e.issued)) label
      createKey (Key.labelEntry (e.ids e.issued) label) ""
      createKey (Key.enumeration .vertex (e.ids e.issued)) ""
      return e.ids e.issued : Attempt τ String).run.run { e with issued := e.issued + 1 }) := by
  by_cases hlabel : Key.isToken label = true
  · exact .inr ⟨hlabel, Attempt.ofExcept_ok_bind (Validation.label_eq_ok.2 hlabel) _ e⟩
  · exact .inl (createVertex_refused hlabel e)

end Creating

/-! ## Dropping that stops -/

section Dropping

/-- Among some notices is one that a key was not cleaned up. -/
def Noted (key : String) (new : List Notice) : Prop := ∃ err, .cleanupFailed key err ∈ new

theorem Noted.mono {key : String} {new new' : List Notice} (h : Noted key new) (hsub : new ⊆ new') :
    Noted key new' :=
  h.imp fun _ hn => hsub hn

/-- Deleting some records one after the other; each is gone, or that it is not was noted. -/
theorem endures_deleteEach {rs : List RecordKey} (hrs : ∀ r ∈ rs, r.Valid) (m : Records) :
    Endures m ((rs.map RecordKey.text).forM deleteQuietly : Run (Faulty σ) Unit) fun _ m' new =>
      (∀ r, m' r = m r ∨ m' r = none) ∧ (∀ r, r ∉ rs → m' r = m r) ∧
      ∀ r ∈ rs, m' r = none ∨ Noted r.text new := by
  induction rs generalizing m with
  | nil => exact .pure ⟨fun _ => .inl rfl, fun _ _ => rfl, fun _ hr => by cases hr⟩
  | cons first rs ih =>
    refine Endures.bind (endures_deleteQuietly (hrs first List.mem_cons_self) m) fun _ m1 new h1 => ?_
    refine (ih (fun r hr => hrs r (List.mem_cons_of_mem _ hr)) m1).mono fun _ m2 new' h2 => ?_
    obtain ⟨hgone, hkept, hnoted⟩ := h2
    have hfirst : ∀ r, m1 r = m r ∨ r = first ∧ m1 r = none := by
      intro r
      by_cases hr : r = first
      · subst hr
        rcases h1 with ⟨rfl, -⟩ | ⟨rfl, -⟩
        · exact .inl rfl
        · exact .inr ⟨rfl, Records.set_self ..⟩
      · rcases h1 with ⟨rfl, -⟩ | ⟨rfl, -⟩
        · exact .inl rfl
        · exact .inl (Records.set_of_ne _ _ hr)
    refine ⟨fun r => ?_, fun r hr => ?_, fun r hr => ?_⟩
    · rcases hgone r with hsame | hnone
      · rw [hsame]
        exact (hfirst r).imp_right (·.2)
      · exact .inr hnone
    · rw [List.mem_cons, not_or] at hr
      rw [hkept r hr.2]
      exact (hfirst r).resolve_right fun h => hr.1 h.1
    · by_cases hlater : r ∈ rs
      · exact (hnoted r hlater).imp_right (·.mono (List.subset_append_left ..))
      · obtain rfl := (List.mem_cons.1 hr).resolve_right hlater
        rw [hkept r hlater]
        rcases h1 with ⟨-, err, rfl⟩ | ⟨rfl, -⟩
        · exact .inr ⟨err, by simp⟩
        · exact .inl (Records.set_self ..)

/-- Deleting everything below the marker of an element. -/
theorem endures_deleteChildren (kind : ElementKind) (hid : Key.isToken id = true) (m : Records) :
    Endures m (deleteChildren kind id : Run (Faulty σ) Unit) fun _ m' new =>
      (∀ r, m' r = m r ∨ m' r = none) ∧ (∀ r, r.owner? ≠ some (kind, id) → m' r = m r) ∧
      ∀ r, r.Valid → r.owner? = some (kind, id) →
        m' r = none ∨ Noted r.text new ∨ Noted (Key.elementChildren kind id) new := by
  refine Endures.bind (endures_collectQuietly (KeyPattern.parse_children hid) rfl
    (by simp [KeyPattern.isExact, KeyPattern.children]) m) fun keys m1 new h1 => ?_
  obtain ⟨rfl, rs, rfl, hrs⟩ := h1
  have hvalid : ∀ r ∈ rs, r.Valid ∧ r.owner? = some (kind, id) := by
    intro r hr
    rcases hrs with hfound | ⟨rfl, -⟩
    · obtain ⟨hvalid, -, haccepts⟩ := (hfound r).1 hr
      exact ⟨hvalid, (KeyPattern.children_accepts hvalid kind id).1 haccepts⟩
    · cases hr
  refine (endures_deleteEach (fun r hr => (hvalid r hr).1) m1).mono fun _ m2 new' h2 => ?_
  obtain ⟨hgone, hkept, hnoted⟩ := h2
  refine ⟨hgone, fun r hr => hkept r fun hmem => hr (hvalid r hmem).2, fun r hr howner => ?_⟩
  by_cases hmem : r ∈ rs
  · exact (hnoted r hmem).imp_right fun h => .inl (h.mono (List.subset_append_left ..))
  · rcases hrs with hfound | ⟨-, hnote⟩
    · rw [hkept r hmem]
      refine .inl (by_contra fun hthere => hmem ((hfound r).2 ⟨hr, hthere, ?_⟩))
      exact (KeyPattern.children_accepts hr kind id).2 howner
    · exact .inr (.inr (Noted.mono hnote (List.subset_append_right ..)))

/-- Dropping a vertex noted that what finds it may not have been deleted: its entry in the listing
together with its label, an entry of a label, or everything below its marker. -/
def Untidied (v : String) (new : List Notice) : Prop :=
  (Noted (Key.enumeration .vertex v) new ∧ Noted (Key.label .vertex v) new) ∨
    (∃ l, Noted (Key.labelEntry v l) new) ∨ Noted (Key.elementChildren .vertex v) new

/-- Dropping a vertex leaves it whole, with nothing that finds it, unless it noted otherwise. -/
theorem endures_dropVertex (hid : Key.isToken id = true) (hm : m.Legible) :
    Endures m (dropVertex id : Run (Faulty σ) Unit) fun _ m' new =>
      m.Shed id m' ∧ (m'.Whole id ∨ Untidied id new) := by
  refine Endures.bind (Spares.quietly (.incidentEdges hid) (by simp) m hm) fun ids m1 new1 h1 => ?_
  refine Endures.bind (endures_deleteQuietly (r := .plain (.listing .vertex id)) hid m1)
    fun _ m2 new2 h2 => ?_
  have hshed2 : m1.Shed id m2 := .delete h1.2.legible rfl (h2.imp (·.1) (·.1))
  have hlisting2 : m2 (.plain (.listing .vertex id)) = none ∨ Noted (Key.enumeration .vertex id) new2 := by
    rcases h2 with ⟨-, err, rfl⟩ | ⟨rfl, -⟩
    · exact .inr ⟨err, List.mem_singleton_self _⟩
    · exact .inl (Records.set_self ..)
  -- the edges and the neighbours take nothing that is kept of a vertex
  refine Endures.bind (Spares.forM (fun i hi => .dropEdge (h1.1 i hi).1) m2 hshed2.legible)
    fun _ m3 new3 h3 => ?_
  refine Endures.bind (Spares.clearNeighbors hid .outgoing m3 h3.2.legible) fun _ m4 new4 h4 => ?_
  refine Endures.bind (Spares.clearNeighbors hid .incoming m4 h4.2.legible) fun _ m5 new5 h5 => ?_
  refine Endures.bind (endures_deleteChildren .vertex hid m5) fun _ m6 new6 h6 => ?_
  refine (endures_deleteQuietly (r := .plain (.element .vertex id)) hid m6).mono fun _ m7 new7 h7 => ?_
  have hshed6 : m5.Shed id m6 := by
    refine .of_gone h5.2.legible h6.1 fun r v hr hv => h6.2.1 r fun howner => hv ?_
    cases r with
    | plain key => cases key <;> simp_all [RecordKey.owner?, RecordKey.vertex?]
    | marker | index => cases hr
  have hshed7 : m6.Shed id m7 := .delete hshed6.legible rfl (h7.imp (·.1) (·.1))
  have hrest : m2.Shed id m7 := ((h3.2.shed id).trans (h4.2.shed id)).trans
    (((h5.2.shed id).trans hshed6).trans hshed7)
  refine ⟨((h1.2.shed id).trans hshed2).trans hrest, ?_⟩
  refine or_iff_not_imp_right.2 fun huntidied => ?_
  generalize hnew : new7 ++ new6 ++ new5 ++ new4 ++ new3 ++ new2 ++ new1 = new at huntidied
  have hfirst : new2 ⊆ new := fun n hn => by simp [← hnew, hn]
  have hchildren : new6 ⊆ new := fun n hn => by simp [← hnew, hn]
  have hscanned := fun h : Noted _ new6 => huntidied (.inr (.inr (h.mono hchildren)))
  have hentry : ∀ l, Key.isToken l = true → m7 (.plain (.labelEntry id l)) = none := fun l hl =>
    hshed7.eq_none rfl <| (h6.2.2 (.plain (.labelEntry id l)) ⟨hid, hl⟩ rfl).resolve_right fun h =>
      h.elim (fun h => huntidied (.inr (.inl ⟨l, h.mono hchildren⟩))) hscanned
  refine .of_none ?_ hentry
  by_cases hlabel : Noted (Key.label .vertex id) new6
  · exact .inl (hrest.eq_none rfl (hlisting2.resolve_right fun h =>
      huntidied (.inl ⟨h.mono hfirst, hlabel.mono hchildren⟩)))
  · exact .inr (hshed7.eq_none rfl ((h6.2.2 (.plain (.label .vertex id)) hid rfl).resolve_right
      fun h => h.elim hlabel hscanned))

end Dropping

/-! ## Histories of operations that stop -/

namespace RecordOp

/-- Which vertices may be torn after an operation: one whose creation ended in the failure of its
entry in the listing, and one that was dropped and left untidied. A vertex that is dropped tidily is
not torn any more. -/
def tears {τ : Type} [Backend τ] (op : RecordOp) (e : Engine τ) (torn : String → Prop) (v : String) :
    Prop :=
  match op with
  | .createVertex label => torn v ∨ ((Graph.createVertex label).run.run e).1 =
      .error (.storage (.injected .create (Key.enumeration .vertex v)))
  | .dropVertex id =>
    if v = id then ∃ new, ((Graph.dropVertex id).run e).2.log = new ++ e.log ∧ Untidied v new else torn v
  | _ => torn v

/-- Which vertices may be torn after operations, one after the other. -/
def tornAfter {τ : Type} [Backend τ] : List RecordOp → Engine τ → (String → Prop) → String → Prop
  | [], _, torn => torn
  | op :: ops, e, torn => tornAfter ops (op.run.run e).2 (op.tears e torn)

end RecordOp

section Histories

/-- Behind its rules an engine holds legible records of vertices whose ids were handed out, and all
of them are whole but those that may be torn. -/
structure Engine.Withstands (e : Engine (Faulty σ)) (torn : String → Prop) (m : Records) : Prop where
  holds : e.behind.Holds m
  legible : m.Legible
  born : ∀ r v, r.vertex? = some v → m r ≠ none → ∃ i < e.issued, e.ids i = v
  whole : ∀ v, ¬torn v → m.Whole v

namespace Engine.Withstands

variable {e e' : Engine (Faulty σ)} {torn : String → Prop}

/-- What spares the vertices. -/
theorem spared (h : e.Withstands torn m) (hholds : e'.behind.Holds m') (hspared : m.Spared m')
    (hissued : e.issued ≤ e'.issued) (hids : e'.ids = e.ids) : e'.Withstands torn m' where
  holds := hholds
  legible := hspared.legible
  born r v hr hthere := by
    rw [hspared.vertex r (by simp [hr])] at hthere
    obtain ⟨i, hi, hv⟩ := h.born r v hr hthere
    exact ⟨i, by omega, by rw [hids, hv]⟩
  whole v hv := (h.whole v hv).congr fun r hr => hspared.vertex r (by simp [hr])

/-- Nothing is kept yet of a vertex whose id is still to be handed out. -/
theorem fresh (h : e.Withstands torn m) (hids : GoodIds e.ids (e.issued + 1)) :
    ∀ r, r.vertex? = some (e.ids e.issued) → m r = none := by
  intro r hr
  by_contra hthere
  obtain ⟨i, hi, hsame⟩ := h.born r _ hr hthere
  have := hids.injective (by omega) (by omega) hsame
  omega

/-- An operation that spares the vertices and hands out no id. -/
theorem of_spares {α : Type} (h : e.Withstands torn m) {x : Run (Faulty σ) α} {post : α → Prop}
    (hx : Spares x post) : ∃ m', (x.run e).2.Withstands torn m' ∧ (x.run e).2.ids = e.ids ∧
      (x.run e).2.issued = e.issued := by
  obtain ⟨m', new, hholds, honward, -, hspared⟩ := hx m h.legible e h.holds
  exact ⟨m', h.spared hholds hspared honward.issued.ge honward.ids, honward.ids, honward.issued⟩

/-- The engine after an id was handed out. -/
theorem issue (h : e.Withstands torn m) :
    Engine.Withstands { e with issued := e.issued + 1 } torn m := by
  have hholds : (Engine.behind { e with issued := e.issued + 1 }).Holds m :=
    ⟨h.holds.stored, h.holds.only⟩
  exact h.spared hholds (.refl h.legible) (Nat.le_succ _) rfl

/-- Creating a vertex. -/
theorem createVertex (h : e.Withstands torn m) (hids : GoodIds e.ids (e.issued + 1)) (label : String) :
    ∃ m', ((createVertex label).run.run e).2.Withstands
        ((RecordOp.createVertex label).tears e torn) m' ∧
      ((createVertex label).run.run e).2.ids = e.ids ∧
      ((createVertex label).run.run e).2.issued ≤ e.issued + 1 := by
  rcases createVertex_cases label e with ⟨err, hrun⟩ | ⟨hlabel, hrun⟩
  · have hsame : ((Graph.createVertex label).run.run e).2 = e := congrArg Prod.snd hrun
    rw [hsame]
    exact ⟨m, ⟨h.holds, h.legible, h.born, fun v hv => h.whole v fun ht => hv (.inl ht)⟩, rfl,
      Nat.le_succ _⟩
  · obtain ⟨m', new, hholds, honward, honly, hwhole⟩ := endures_vertexRecords
      (hids.wellFormed e.issued (by omega)).isName.1 hlabel (h.fresh hids) _ h.issue.holds
    rw [← hrun] at hholds honward hwhole
    refine ⟨m', ⟨hholds, honly.legible h.legible, fun r v hr hthere => ?_, fun v hv => ?_⟩,
      honward.ids, honward.issued.le⟩
    · rw [honward.ids, honward.issued]
      by_cases hnew : v = e.ids e.issued
      · exact ⟨e.issued, Nat.lt_succ_self _, hnew.symm⟩
      · rw [honly r (by simpa [hr] using hnew)] at hthere
        obtain ⟨i, hi, hid⟩ := h.born r v hr hthere
        exact ⟨i, Nat.lt_succ_of_lt hi, hid⟩
    · by_cases hnew : v = e.ids e.issued
      · subst hnew
        exact hwhole.resolve_right fun hfailed => hv (.inr hfailed)
      · refine (h.whole v fun ht => hv (.inl ht)).congr fun r hr => honly r ?_
        simpa [hr] using hnew

/-- Creating an edge. -/
theorem createEdge (h : e.Withstands torn m) (hids : GoodIds e.ids (e.issued + 1))
    (label source target : String) :
    ∃ m', ((createEdge label source target).run.run e).2.Withstands torn m' ∧
      ((createEdge label source target).run.run e).2.ids = e.ids ∧
      ((createEdge label source target).run.run e).2.issued ≤ e.issued + 1 := by
  have hname : ∀ i < e.issued + 1, IsName (e.ids i) := fun i hi => (hids.wellFormed i hi).isName
  have hvertex : ∀ v, m (.plain (.element .vertex v)) ≠ none → IsName v := by
    intro v hv
    obtain ⟨i, hi, hid⟩ := h.born _ v rfl hv
    exact hid ▸ hname i (Nat.lt_succ_of_lt hi)
  rcases createEdge_cases h.holds label source target with
    ⟨err, e', _, hrun, he', honward⟩ | ⟨hlabel, hsource, htarget, e', _, he', honward, hrun⟩
  · rw [hrun]
    exact ⟨m, h.spared he' (.refl h.legible) honward.issued.ge honward.ids, honward.ids,
      honward.issued.le.trans (Nat.le_succ _)⟩
  · have hx : Edge.Named ⟨e.ids e.issued, label, source, target⟩ :=
      ⟨hname _ (Nat.lt_succ_self _), hlabel, hvertex _ hsource, hvertex _ htarget⟩
    have hstart := (h.spared he' (.refl h.legible) honward.issued.ge honward.ids).issue
    obtain ⟨m', hwithstands, hsame, hissued⟩ := hstart.of_spares (Spares.edgeRecords hx)
    rw [hrun]
    refine ⟨m', hwithstands, hsame.trans honward.ids, hissued.le.trans ?_⟩
    exact Nat.succ_le_succ honward.issued.le

/-- Dropping a vertex. -/
theorem dropVertex (h : e.Withstands torn m) (hid : Key.isToken id = true) :
    ∃ m', ((dropVertex id).run e).2.Withstands ((RecordOp.dropVertex id).tears e torn) m' ∧
      ((dropVertex id).run e).2.ids = e.ids ∧ ((dropVertex id).run e).2.issued = e.issued := by
  obtain ⟨m', new, hholds, honward, hshed, hwhole⟩ := endures_dropVertex hid h.legible e h.holds
  refine ⟨m', ⟨hholds, hshed.legible, fun r v hr hthere => ?_, fun v hv => ?_⟩, honward.ids,
    honward.issued⟩
  · rw [honward.ids, honward.issued]
    refine h.born r v hr fun hnone => hthere ?_
    by_cases hv : v = id
    · subst hv
      exact hshed.eq_none hr hnone
    · rw [hshed.other r v hr hv, hnone]
  · rw [RecordOp.tears] at hv
    by_cases hsame : v = id
    · subst hsame
      rw [if_pos rfl] at hv
      exact hwhole.resolve_right fun huntidied => hv ⟨new, honward.log, huntidied⟩
    · rw [if_neg hsame] at hv
      exact (h.whole v hv).congr fun r hr => hshed.other r v hr hsame

/-- Every operation on one element. -/
theorem step (h : e.Withstands torn m) {op : RecordOp} (hop : op.Named) (hall : op ≠ .dropAll)
    (hids : GoodIds e.ids (e.issued + 1)) :
    ∃ m', (op.run.run e).2.Withstands (op.tears e torn) m' ∧ (op.run.run e).2.ids = e.ids ∧
      (op.run.run e).2.issued ≤ e.issued + 1 := by
  cases op with
  | createVertex label => exact h.createVertex hids label
  | createEdge label source target => exact h.createEdge hids label source target
  | setProperty kind id key value =>
    obtain ⟨m', hstep, hsame, hissued⟩ := h.of_spares (Spares.setProperty kind hop key value)
    exact ⟨m', hstep, hsame, Nat.le_succ_of_le hissued.le⟩
  | dropEdge id =>
    obtain ⟨m', hstep, hsame, hissued⟩ := h.of_spares (Spares.dropEdge hop)
    rw [RecordOp.run]
    exact ⟨m', hstep, hsame, Nat.le_succ_of_le hissued.le⟩
  | dropVertex id =>
    obtain ⟨m', hstep, hsame, hissued⟩ := h.dropVertex hop
    rw [RecordOp.run]
    exact ⟨m', hstep, hsame, Nat.le_succ_of_le hissued.le⟩
  | dropAll => exact absurd rfl hall

/-- Operations one after the other. -/
theorem run (h : e.Withstands torn m) {ops : List RecordOp}
    (hops : ∀ op ∈ ops, op.Named ∧ op ≠ .dropAll) (hids : GoodIds e.ids (e.issued + ops.length)) :
    ∃ m', ((RecordOp.runAll ops).run e).2.Withstands (RecordOp.tornAfter ops e torn) m' ∧
      ((RecordOp.runAll ops).run e).2.ids = e.ids ∧
      ((RecordOp.runAll ops).run e).2.issued ≤ e.issued + ops.length := by
  induction ops generalizing e torn m with
  | nil => exact ⟨m, h, rfl, Nat.le_refl _⟩
  | cons op ops ih =>
    rw [List.length_cons] at hids ⊢
    obtain ⟨m1, h1, hsame1, hissued1⟩ := h.step (hops op (by simp)).1 (hops op (by simp)).2
      (hids.mono (by omega))
    obtain ⟨m2, h2, hsame2, hissued2⟩ := ih h1 (fun o ho => hops o (List.mem_cons_of_mem _ ho))
      (by rw [hsame1]; exact hids.mono (by omega))
    exact ⟨m2, h2, hsame2.trans hsame1, hissued2.trans (by omega)⟩

/-- An empty store behind any rules. -/
theorem empty {e : Engine σ} (hempty : ∀ key, e.contents key = none) (rules : List FaultRule) :
    (e.under rules).Withstands (fun _ => False) fun _ => none where
  holds := ⟨fun r _ => hempty r.text, fun key hkey => absurd (hempty key) hkey⟩
  legible r v h := by cases h
  born r v _ h := absurd rfl h
  whole v _ := .of_none (.inl rfl) fun _ _ => rfl

end Engine.Withstands

open Classical in
/-- Operations ran from an empty store while calls on it failed, and then a query for the vertices of
a label runs without failures. The default optimizer has it find the vertices that have an entry of
the label; without an optimizer it finds those that are listed and have the label recorded. Vertices
that are not torn come with both plans or with neither, in the same order. -/
theorem Engine.torn_history {e : Engine σ} (hempty : ∀ key, e.contents key = none)
    {ops : List RecordOp} (hops : ∀ op ∈ ops, op.Named ∧ op ≠ .dropAll)
    (hids : GoodIds e.ids (e.issued + ops.length)) (rules : List FaultRule) (l : String) :
    let after := ((RecordOp.runAll ops).run (e.under rules)).2.behind
    let torn := RecordOp.tornAfter ops (e.under rules) fun _ => False
    ∃ found listed, (∃ n, ∀ budget, n ≤ budget →
        (do (← (labelQuery l).openStream .default).items? budget : Attempt σ _).run.run after =
          (.ok (some (vertexItems found)), after) ∧
        (do (← (labelQuery l).openStream .none).items? budget : Attempt σ _).run.run after =
          (.ok (some (vertexItems listed)), after)) ∧
      (∀ v, Key.isToken v = true → Key.isToken l = true →
        (v ∈ found ↔ after.contents (Key.labelEntry v l) ≠ none)) ∧
      (∀ v, Key.isToken v = true → (v ∈ listed ↔
        after.contents (Key.enumeration .vertex v) ≠ none ∧
          (after.contents (Key.label .vertex v)).map Blob.string = some l)) ∧
      found.filter (fun v => ¬torn v) = listed.filter (fun v => ¬torn v) := by
  intro after torn
  obtain ⟨m, hafter, hsame, hissued⟩ := (Engine.Withstands.empty hempty rules).run hops hids
  have hlength : ∀ r v, r.vertex? = some v → m r ≠ none → v.toList.length = 32 := by
    intro r v hr hthere
    obtain ⟨i, hi, rfl⟩ := hafter.born r v hr hthere
    rw [hsame]
    exact (hids.wellFormed i (hi.trans_le hissued)).1
  obtain ⟨found, listed, hrun, hfound, hlisted, hlistedMem, hfoundMem⟩ := hafter.holds.labelQuery_run l
    (fun v => hlength _ v rfl) fun v => hlength _ v rfl
  refine ⟨found, listed, hrun, fun v hv hl => ?_, fun v hv => ?_, ?_⟩
  · have hstored : after.contents (Key.labelEntry v l) = m (.plain (.labelEntry v l)) :=
      hafter.holds.stored (.plain (.labelEntry v l)) ⟨hv, hl⟩
    rw [hfoundMem, if_pos hl, hstored, and_iff_right hv]
  · have hlisting : after.contents (Key.enumeration .vertex v) = m (.plain (.listing .vertex v)) :=
      hafter.holds.stored (.plain (.listing .vertex v)) hv
    have hlabel : after.contents (Key.label .vertex v) = m (.plain (.label .vertex v)) :=
      hafter.holds.stored (.plain (.label .vertex v)) hv
    rw [hlistedMem, hlisting, hlabel, and_iff_right hv]
  · refine eq_of_ascending (hfound.filter _) (hlisted.filter _) fun v => ?_
    rw [List.mem_filter, List.mem_filter]
    refine and_congr_left fun hnot => ?_
    have hwhole := hafter.whole v (of_decide_eq_true hnot)
    by_cases hl : Key.isToken l = true
    · rw [hfoundMem, if_pos hl, hlistedMem, hwhole l hl]
    · rw [hfoundMem, if_neg hl]

/-- Rules that fail the creation of every entry in the listing of vertices. -/
def failingListings : List FaultRule := [⟨.create, "nodes.*", 0, none, 0⟩]

/-- A vertex whose creation stopped at the listing is found by the default optimizer's plan, and missed
without an optimizer. -/
theorem torn_failingListings :
    let after := ((RecordOp.runAll [.createVertex "person"]).run
      ((Engine.ofStore Memory.empty).under failingListings)).2.behind
    ∃ found listed, (∃ n, ∀ budget, n ≤ budget →
        (do (← (labelQuery "person").openStream .default).items? budget :
          Attempt Memory _).run.run after = (.ok (some (vertexItems found)), after) ∧
        (do (← (labelQuery "person").openStream .none).items? budget :
          Attempt Memory _).run.run after = (.ok (some (vertexItems listed)), after)) ∧
      elementId 0 ∈ found ∧ elementId 0 ∉ listed := by
  intro after
  have hentry : after.contents (Key.labelEntry (elementId 0) "person") ≠ none := by decide +kernel
  have hlisting : after.contents (Key.enumeration .vertex (elementId 0)) = none := by decide +kernel
  have hops : ∀ op ∈ [RecordOp.createVertex "person"], op.Named ∧ op ≠ .dropAll := by
    simp [RecordOp.Named]
  obtain ⟨found, listed, hrun, hfound, hlisted, -⟩ := Engine.torn_history
    (e := Engine.ofStore Memory.empty) (fun _ => rfl) hops (by decide) failingListings "person"
  refine ⟨found, listed, hrun, (hfound _ (by decide) (by decide)).2 hentry, fun hin => ?_⟩
  exact ((hlisted _ (by decide)).1 hin).1 hlisting

end Histories

end PropertyGraph
