/-
Lists of ids that may be damaged. A record of a list may be gone, or hold bytes that are no list
of ids; either way the list counts as absent, and an operation that meets it only writes a
notice. `Leads` says what an operation comes to on a store with given records, whatever it
notes. Here is what reading a list comes to, taking an id out of it, and unlinking an edge at
one end (`leads_unlinkEnd`), on any records; and what `Damage` makes of them (`acts_damage`).
-/
import PropertyGraph.Proofs.Dropping

namespace PropertyGraph

open PropertyGraph.Graph

variable {σ α β : Type} [Backend σ] [LawfulBackend σ]

/-! ## What operations come to -/

/-- On a store that holds `m`, an operation ends with a value and with records that have a
property together. -/
def Leads (m : Records) (operation : Run σ α) (Q : α → Records → Prop) : Prop :=
  ∀ e : Engine σ, e.Holds m → ∃ m', (operation.run e).2.Holds m' ∧ Q (operation.run e).1 m'

/-- The same of an operation that may fail and does not. -/
def Completes (m : Records) (operation : Attempt σ α) (Q : α → Records → Prop) : Prop :=
  Leads m operation.run fun outcome m' => ∃ a, outcome = .ok a ∧ Q a m'

section Rules

variable {m m' : Records} {a : α} {Q : α → Records → Prop} {R : β → Records → Prop}

theorem Leads.pure (h : Q a m) : Leads m (pure a : Run σ α) Q := fun _ he => ⟨m, he, h⟩

theorem Leads.bind {x : Run σ α} {f : α → Run σ β} (hx : Leads m x Q)
    (hf : ∀ a m', Q a m' → Leads m' (f a) R) : Leads m (x >>= f) R := by
  intro e he
  obtain ⟨m', he', hq⟩ := hx e he
  exact hf _ m' hq _ he'

theorem Leads.mono {x : Run σ α} {Q' : α → Records → Prop} (hx : Leads m x Q)
    (h : ∀ a m', Q a m' → Q' a m') : Leads m x Q' := by
  intro e he
  obtain ⟨m', he', hq⟩ := hx e he
  exact ⟨m', he', h _ _ hq⟩

theorem Acts.leads {x : Run σ α} (h : Acts x m a m') :
    Leads m x fun b n => b = a ∧ n = m' := by
  intro e he
  obtain ⟨e', hrun, he', -⟩ := h e he
  rw [hrun]
  exact ⟨m', he', rfl, rfl⟩

/-- An operation whose effect is known, before another one. -/
theorem Acts.leads_bind {x : Run σ α} {f : α → Run σ β} (hx : Acts x m a m')
    (hf : Leads m' (f a) R) : Leads m (x >>= f) R := by
  refine hx.leads.bind fun b n hb => ?_
  rw [hb.1, hb.2]
  exact hf

theorem Completes.pure (h : Q a m) : Completes m (pure a : Attempt σ α) Q :=
  fun _ he => ⟨m, he, a, rfl, h⟩

theorem Completes.bind {x : Attempt σ α} {f : α → Attempt σ β} (hx : Completes m x Q)
    (hf : ∀ a m', Q a m' → Completes m' (f a) R) : Completes m (x >>= f) R := by
  intro e he
  obtain ⟨m', he', a, ha, hq⟩ := hx e he
  obtain ⟨m'', hend⟩ := hf a m' hq _ he'
  refine ⟨m'', ?_⟩
  rw [Attempt.bind_ok (Prod.ext ha rfl)]
  exact hend

theorem Completes.mono {x : Attempt σ α} {Q' : α → Records → Prop} (hx : Completes m x Q)
    (h : ∀ a m', Q a m' → Q' a m') : Completes m x Q' :=
  Leads.mono hx fun _ m' ⟨a, ho, hq⟩ => ⟨a, ho, h a m' hq⟩

theorem Does.completes {x : Attempt σ α} (h : Does x m a m') :
    Completes m x fun b n => b = a ∧ n = m' :=
  Leads.mono (Acts.leads h) fun _ _ hb => ⟨a, hb.1, rfl, hb.2⟩

/-- An operation that changes nothing. -/
theorem Completes.of_run {x : Attempt σ α}
    (h : ∀ e : Engine σ, e.Holds m → ∃ a, x.run.run e = (.ok a, e) ∧ Q a m) : Completes m x Q := by
  intro e he
  obtain ⟨a, hrun, hq⟩ := h e he
  rw [hrun]
  exact ⟨m, he, a, rfl, hq⟩

theorem Leads.quietly {key : String} {instead : α} {x : Attempt σ α} (h : Completes m x Q) :
    Leads m (Engine.quietly key instead x) Q := by
  refine Leads.bind h fun outcome m' ho => ?_
  obtain ⟨a, rfl, hq⟩ := ho
  exact .pure hq

end Rules

/-! ## Lists that may be damaged -/

section Lists

open Engine

variable {m : Records} {r : RecordKey}

/-- The list of ids under a record, if there is one that can be read. -/
def Records.ids? (m : Records) (r : RecordKey) : Option (List String) := (m r).bind Blob.ids?

/-- The records after an id was taken out of a list. One that cannot be read, or that does not
hold the id, stays as it is. -/
def Records.takeOut (m : Records) (r : RecordKey) (id : String) (all : Bool) : Records :=
  match m.ids? r with
  | none => m
  | some ids =>
    if remaining ids id all = ids then m else m.set r (some (idList (remaining ids id all)))

theorem Records.ids?_congr {m m' : Records} (h : m r = m' r) : m.ids? r = m'.ids? r := by
  rw [ids?, ids?, h]

theorem Records.takeOut_of_ne (m : Records) {r r' : RecordKey} (id : String) (all : Bool)
    (h : r' ≠ r) : m.takeOut r id all r' = m r' := by
  rw [takeOut]
  cases m.ids? r with
  | none => rfl
  | some ids =>
    dsimp only
    split
    · rfl
    · exact set_of_ne m _ h

theorem Records.ids?_takeOut (m : Records) (r : RecordKey) (id : String) (all : Bool) :
    (m.takeOut r id all).ids? r = (m.ids? r).map (remaining · id all) := by
  rw [takeOut]
  cases hids : m.ids? r with
  | none => exact hids
  | some ids =>
    dsimp only
    split
    · rename_i hsame
      rw [hids, Option.map_some, hsame]
    · simp [ids?, ids?_idList]

/-- Reading a list. -/
theorem completes_readIndex (hr : r.Valid) (m : Records) :
    Completes m (readIndex r.text : Attempt σ _) fun ids m' => ids = m.ids? r ∧ m' = m := by
  intro e he
  have hstored := he.stored r hr
  rw [readIndex, Attempt.bind_ok (Engine.get_run r.text e)]
  simp only [contents] at hstored
  cases hentry : (LawfulBackend.entries e.store).get? r.text with
  | none =>
    rw [hentry] at hstored
    refine ⟨m, he, none, rfl, ?_, rfl⟩
    rw [Records.ids?, ← hstored]
    rfl
  | some entry =>
    rw [hentry] at hstored
    have hids : m.ids? r = entry.value.ids? := by
      rw [Records.ids?, ← hstored]
      rfl
    dsimp only
    cases hread : entry.value.ids? with
    | some ids => exact ⟨m, he, some ids, rfl, by rw [hids, hread], rfl⟩
    | none =>
      exact ⟨m, ⟨he.stored, he.only⟩, none, rfl, by rw [hids, hread], rfl⟩

/-- Taking an id out of a list, which tells whether the list still holds it. -/
theorem completes_removeFromIndex (hr : r.Valid) (m : Records) (id : String) (all : Bool) :
    Completes m (removeFromIndex r.text id all : Attempt σ _) fun held m' =>
      held = ((m.takeOut r id all).ids? r).any (·.contains id) ∧ m' = m.takeOut r id all := by
  refine (completes_readIndex hr m).bind fun found m' hfound => ?_
  obtain ⟨rfl, rfl⟩ := hfound
  rw [Records.ids?_takeOut]
  cases hids : m'.ids? r with
  | none => exact .pure ⟨rfl, by rw [Records.takeOut, hids]⟩
  | some ids =>
    show Completes m' (do
      if (remaining ids id all).length != ids.length then
        let _ ← call (Backend.update r.text (idList (remaining ids id all)))
      return (remaining ids id all).contains id : Attempt σ Bool) _
    by_cases hsame : remaining ids id all = ids
    · have hlen : ((remaining ids id all).length != ids.length) = false := by simp [hsame]
      rw [hlen]
      exact .pure ⟨rfl, by rw [Records.takeOut, hids]; exact (if_pos hsame).symm⟩
    · have hlen : ((remaining ids id all).length != ids.length) = true := by
        simpa using fun h => hsame (remaining_of_length h)
      rw [hlen]
      have hupdate : Does (call (Backend.update r.text (idList (remaining ids id all))) >>=
          fun _ => pure ((remaining ids id all).contains id) : Attempt σ Bool) m' _ _ :=
        .update_bind hr fun _ => .pure _ _
      refine Leads.mono hupdate.completes fun outcome n h => ?_
      obtain ⟨a, rfl, rfl, rfl⟩ := h
      exact ⟨_, rfl, rfl, by rw [Records.takeOut, hids]; exact (if_neg hsame).symm⟩

end Lists

/-! ## Unlinking at a scope -/

section Scopes

/-- What is left of the records when an edge is unlinked at a scope: its marker and its entry in
the list of edges are gone, one entry of its other end is gone from the list of vertices, and
with the last entry the marker of that end. A list that cannot be read has no entries. -/
structure Records.Unlinked (m : Records) (s : Scope) (edge other : String) (m' : Records) :
    Prop where
  plain : ∀ key, m' (.plain key) = m (.plain key)
  marker : ∀ s' a t, s' ≠ s → m' (.marker s' a t) = m (.marker s' a t)
  list : ∀ s' a, s' ≠ s → m'.ids? (.index s' a) = m.ids? (.index s' a)
  edgeMarker : ∀ t, m' (.marker s .edges t) = if t = edge then none else m (.marker s .edges t)
  edgeList : m'.ids? (.index s .edges) = (m.ids? (.index s .edges)).map (remaining · edge true)
  vertexList : m'.ids? (.index s .vertices) =
    (m.ids? (.index s .vertices)).map (remaining · other false)
  vertexMarker : ∀ t, m' (.marker s .vertices t) =
    if t = other ∧ ¬(m'.ids? (.index s .vertices)).any (·.contains other) then none
    else m (.marker s .vertices t)

variable {s : Scope} (m : Records) (edge other : String)

theorem Records.ids?_set_of_ne {r r' : RecordKey} (value : Option Blob) (h : r' ≠ r) :
    (m.set r value).ids? r' = m.ids? r' := ids?_congr (set_of_ne m value h)

theorem Records.ids?_takeOut_of_ne {r r' : RecordKey} (id : String) (all : Bool) (h : r' ≠ r) :
    (m.takeOut r id all).ids? r' = m.ids? r' := ids?_congr (takeOut_of_ne m id all h)

/-- Unlinking in the order the records change. -/
theorem Records.unlinked :
    let cut := ((m.set (.marker s .edges edge) none).takeOut (.index s .edges) edge true).takeOut
      (.index s .vertices) other false
    m.Unlinked s edge other
      (if (cut.ids? (.index s .vertices)).any (·.contains other) then cut
      else cut.set (.marker s .vertices other) none) := by
  intro cut
  have hplain : ∀ key, cut (.plain key) = m (.plain key) := fun key => by
    simp [cut, takeOut_of_ne, set_of_ne]
  have hmarker : ∀ s' a t, cut (.marker s' a t) =
      if s' = s ∧ a = .edges ∧ t = edge then none else m (.marker s' a t) := by
    intro s' a t
    by_cases h : s' = s ∧ a = .edges ∧ t = edge
    · simp [cut, takeOut_of_ne, h]
    · rw [if_neg h]
      simp [cut, takeOut_of_ne, set, h]
  have hedges : cut.ids? (.index s .edges) =
      (m.ids? (.index s .edges)).map (remaining · edge true) := by
    simp [cut, ids?_takeOut_of_ne, ids?_takeOut, ids?_set_of_ne]
  have hvertices : cut.ids? (.index s .vertices) =
      (m.ids? (.index s .vertices)).map (remaining · other false) := by
    simp [cut, ids?_takeOut_of_ne, ids?_takeOut, ids?_set_of_ne]
  have hlist : ∀ s' a, s' ≠ s → cut.ids? (.index s' a) = m.ids? (.index s' a) := by
    intro s' a h
    simp [cut, ids?_takeOut_of_ne, ids?_set_of_ne, h]
  split
  · rename_i hstays
    refine ⟨hplain, fun s' a t h => ?_, hlist, fun t => ?_, hedges, hvertices, fun t => ?_⟩
    · simp [hmarker, h]
    · simp [hmarker]
    · rw [hmarker, if_neg (by simp), if_neg fun h => h.2 hstays]
  · rename_i hgone
    refine ⟨fun key => ?_, fun s' a t h => ?_, fun s' a h => ?_, fun t => ?_, ?_, ?_, fun t => ?_⟩
    · rw [set_of_ne _ _ (by simp), hplain]
    · rw [set_of_ne _ _ (by simp [h]), hmarker, if_neg (by simp [h])]
    · rw [ids?_set_of_ne _ _ (by simp), hlist s' a h]
    · rw [set_of_ne _ _ (by simp), hmarker]
      simp
    · rw [ids?_set_of_ne _ _ (by simp), hedges]
    · rw [ids?_set_of_ne _ _ (by simp), hvertices]
    · rw [ids?_set_of_ne _ _ (by simp)]
      by_cases ht : t = other
      · rw [if_pos ⟨ht, hgone⟩, ht, set_self]
      · rw [set_of_ne _ _ (by simp [ht]), hmarker, if_neg (by simp), if_neg (by simp [ht])]

theorem leads_unlinkEnd (hs : s.Valid) {edge other : String} (hedge : IsName edge)
    (hother : IsName other) (m : Records) :
    Leads m (unlinkEnd edge s.vertex s.direction (some other) s.label : Run σ _) fun _ m' =>
      m.Unlinked s edge other m' := by
  have hmarker : (RecordKey.marker s .edges edge).Valid := ⟨hs, hedge⟩
  have hneighbor : (RecordKey.marker s .vertices other).Valid := ⟨hs, hother⟩
  have hedges : (RecordKey.index s .edges).Valid := hs
  have hvertices : (RecordKey.index s .vertices).Valid := hs
  have hunlinked := m.unlinked (s := s) edge other
  refine (acts_deleteQuietly hmarker m).leads_bind ?_
  refine (Leads.quietly (completes_removeFromIndex hedges _ edge true)).bind ?_
  rintro - _ ⟨-, rfl⟩
  refine (Leads.quietly (completes_removeFromIndex hvertices _ other false)).bind ?_
  rintro held _ ⟨hheld, rfl⟩
  dsimp only at hunlinked
  rw [← hheld] at hunlinked
  cases held with
  | true => exact .pure hunlinked
  | false =>
    refine (acts_deleteQuietly hneighbor _).leads.mono fun _ _ h => ?_
    rw [h.2]
    exact hunlinked

end Scopes

/-! ## Damage -/

/-- A list of ids that comes to harm: it is deleted, or overwritten by what is no list of ids. -/
structure Damage where
  scope : Scope
  adjacency : Adjacency
  /-- What stands there afterwards, if anything. -/
  left : Option Blob
  valid : scope.Valid
  unreadable : left.bind Blob.ids? = none

namespace Damage

/-- A list that is gone cannot be read. -/
theorem unreadable_gone : (none : Option Blob).bind Blob.ids? = none := rfl

/-- The first vertex there is has lists, by its name. -/
theorem firstScope_valid : (⟨elementId 0, .outgoing, none⟩ : Scope).Valid :=
  ⟨by decide, by decide⟩

/-- The record of the list. -/
def record (d : Damage) : RecordKey := .index d.scope d.adjacency

omit [LawfulBackend σ] in
/-- Does the harm, by the calls that anyone with the store can make. -/
def run (d : Damage) : Run σ Unit := do
  let key := Key.index d.scope.vertex d.scope.direction d.adjacency d.scope.label
  let _ ← Engine.outcome (match d.left with
    | none => Engine.call (Backend.delete key)
    | some value => do let _ ← Engine.call (Backend.put key value))

theorem acts_run (d : Damage) (m : Records) :
    Acts (d.run : Run σ Unit) m () (m.set d.record d.left) := by
  have hr : d.record.Valid := d.valid
  rw [run]
  cases d.left with
  | none => exact .bind (does_delete hr m) (.pure () _)
  | some value =>
    have hput : Does (do let _ ← Engine.call (Backend.put d.record.text value) : Attempt σ Unit) m ()
        (m.set d.record (some value)) := .put_bind hr fun _ => .pure () _
    exact .bind hput (.pure () _)

end Damage

/-- Records that differ in lists of ids only, which cannot be read where they differ. -/
structure Records.Damaged (m m' : Records) : Prop where
  other : ∀ r : RecordKey, (∀ s a, r ≠ .index s a) → m' r = m r
  list : ∀ s a, m' (.index s a) = m (.index s a) ∨ m'.ids? (.index s a) = none

theorem Records.Damaged.refl (m : Records) : m.Damaged m := ⟨fun _ _ => rfl, fun _ _ => .inl rfl⟩

/-- Lists that come to harm one after the other. -/
theorem acts_damage (ds : List Damage) (m : Records) :
    ∃ m', Acts (ds.forM Damage.run : Run σ Unit) m () m' ∧ m.Damaged m' := by
  induction ds generalizing m with
  | nil => exact ⟨m, .pure () m, .refl m⟩
  | cons d ds ih =>
    obtain ⟨m', hacts, hdamaged⟩ := ih (m.set d.record d.left)
    refine ⟨m', Acts.bind (f := fun _ => ds.forM Damage.run) (d.acts_run m) hacts,
      fun r hr => ?_, fun s a => ?_⟩
    · exact (hdamaged.other r hr).trans (Records.set_of_ne m d.left (hr _ _))
    · by_cases hd : RecordKey.index s a = d.record
      · refine .inr ((hdamaged.list s a).elim (fun hsame => ?_) id)
        rw [Records.ids?, hsame, hd, Records.set_self]
        exact d.unreadable
      · rw [← Records.set_of_ne m d.left hd]
        exact hdamaged.list s a

omit [Backend σ] [LawfulBackend σ] in
/-- A list that cannot be read stays so. -/
theorem Records.Damaged.unreadable {m m' : Records} (h : m.Damaged m') {s : Scope} {a : Adjacency}
    (hnone : m.ids? (.index s a) = none) : m'.ids? (.index s a) = none := by
  rcases h.list s a with hsame | hnone'
  · rwa [Records.ids?_congr hsame]
  · exact hnone'

/-- Each list that came to harm cannot be read afterwards. -/
theorem Damage.unreadable_of_mem {ds : List Damage} {d : Damage} (hd : d ∈ ds) {m : Records}
    {e : Engine σ} (he : e.Holds m) :
    (((ds.forM Damage.run).run e).2.contents d.record.text).bind Blob.ids? = none := by
  induction ds generalizing m e with
  | nil => simp at hd
  | cons first ds ih =>
    obtain ⟨e1, hrun1, he1, -⟩ := first.acts_run m e he
    have hstep : ((first :: ds).forM Damage.run).run e = (ds.forM Damage.run).run e1 := by
      show ((first.run >>= fun _ => ds.forM Damage.run).run e) = _
      rw [Run.bind_run, hrun1]
    rw [hstep]
    rcases List.mem_cons.1 hd with rfl | hrest
    · obtain ⟨m', hacts, hdamaged⟩ := acts_damage (σ := σ) ds (m.set d.record d.left)
      obtain ⟨e2, hrun2, he2, -⟩ := hacts e1 he1
      rw [hrun2, he2.stored d.record d.valid]
      refine hdamaged.unreadable (s := d.scope) (a := d.adjacency) ?_
      show ((m.set d.record d.left) d.record).bind Blob.ids? = none
      rw [Records.set_self]
      exact d.unreadable
    · exact ih hrest he1

end PropertyGraph
