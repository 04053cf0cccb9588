/-
A query for the vertices of a label, over whatever records a store holds. As it stands it goes
through the listing of all vertices and keeps those of which the label is recorded; the default
optimizer has it go through the entries of the label. Both find their vertices in the order of the
ids, so they come to the same where the entries of the label and the listing agree
(`Engine.Holds.labelQuery_run`).
-/
import PropertyGraph.Proofs.Interruption
import PropertyGraph.Proofs.LabelScan

namespace PropertyGraph

open PropertyGraph.Graph

variable {σ : Type} [Backend σ] [LawfulBackend σ] {e : Engine σ} {m : Records} {ids : List String}

/-- The items that vertices come as. -/
def vertexItems (ids : List String) : List Item := ids.map fun id => .ok (.vertex id)

/-! ## Items of vertices -/

omit [LawfulBackend σ] in
/-- Behind a filter come the vertices that it lets pass. -/
theorem Stream.Brings.filter {f : Filter} {source : Stream} (hs : source.Brings e (vertexItems ids))
    {p : String → Prop} [DecidablePred p]
    (hf : ∀ id ∈ ids, (f.apply (.vertex id)).run.run e =
      (.ok (if p id then some (.vertex id) else none), e)) :
    (Stream.through (.filter f) source).Brings e (vertexItems (ids.filter p)) := by
  have hs' : source.Brings e ((ids.map .vertex).map .ok) := by rwa [List.map_map]
  have hbrings := hs'.filterMap (f := f)
    (p := fun t => if p ((t.element?.map (·.2)).getD "") then some t else none) fun t ht => by
      obtain ⟨id, hid, rfl⟩ := List.mem_map.1 ht
      exact hf id hid
  have hkept : (ids.map Traverser.vertex).filterMap
      (fun t => if p ((t.element?.map (·.2)).getD "") then some t else none) =
        (ids.filter p).map .vertex := by
    rw [List.filterMap_map, ← List.filterMap_eq_map, ← List.filterMap_eq_filter,
      List.filterMap_filterMap]
    refine List.filterMap_congr fun id _ => ?_
    by_cases hp : p id <;> simp [Traverser.element?, Option.guard, hp]
  rwa [hkept, List.map_map] at hbrings

namespace Finder

variable {f : Finder}

/-- A scan under way brings the vertices whose keys it has left to bring. -/
theorem brings_scanning (hf : f.Named) {k : KeyScan} (hk : k.Sound)
    (hids : ∀ id ∈ ids, Key.isToken id = true)
    (hkeys : k.brings (k.pending e.keys) = ids.map f.key) :
    (f.stream (some (.scan f.listing (.ofScan k))) (.root (some (.items [])) [])).Brings e
      (vertexItems ids) := by
  induction hwork : k.work e.keys using Nat.strongRecOn generalizing k ids with
  | _ n ih =>
  have hadv := KeyScan.advance_advances e.serves_fetch hk
  cases hadvance : k.advance e.fetch with
  | mk event k' =>
  have hrun := advance_scanning (f := f) hadvance (.root (some (.items [])) [])
  rw [hadvance] at hadv
  have hsound := hadv.sound e.pairwise_keys hk
  have hbrings := hadv.brings e.pairwise_keys hk
  have hless := hadv.work e.pairwise_keys hk
  cases event with
  | key key =>
    have hlist : k.brings (k.pending e.keys) = key :: k'.brings (k'.pending e.keys) := hbrings
    rw [hkeys] at hlist
    cases ids with
    | nil => cases hlist
    | cons id ids =>
      obtain ⟨rfl, hrest⟩ := List.cons.inj hlist
      simp only [hf.item?_key (hids id List.mem_cons_self)] at hrun
      exact .item hrun (ih _ (hwork ▸ hless (by simp)) hsound
        (fun i hi => hids i (List.mem_cons_of_mem _ hi)) hrest.symm rfl)
  | skip =>
    have hlist : k.brings (k.pending e.keys) = k'.brings (k'.pending e.keys) := hbrings
    exact .skip hrun (ih _ (hwork ▸ hless (by simp)) hsound hids (hlist.symm.trans hkeys) rfl)
  | done =>
    have hlist : k.brings (k.pending e.keys) = [] := hbrings
    obtain rfl : ids = [] := by simpa [hlist] using hkeys.symm
    exact .skip hrun (.skip rfl (.done rfl))
  | failed err => exact absurd hbrings id

/-- A finder brings the vertices that its records name, in the order of their ids if those have one
length. -/
theorem exists_brings (hf : f.Named) (he : e.Holds m)
    (hlength : ∀ id, m (f.record id) ≠ none → id.toList.length = 32) :
    ∃ ids, f.opened.Brings e (vertexItems ids) ∧ (ids.Pairwise fun a b => compare a b = .lt) ∧
      ∀ id, id ∈ ids ↔ Key.isToken id = true ∧ m (f.record id) ≠ none := by
  obtain ⟨rs, hkeys, hfound⟩ := he.exists_found f.pattern
  obtain ⟨ids, rfl⟩ : rs ∈ Set.range (List.map f.record) := by
    rw [Set.range_list_map]
    intro r hr
    obtain ⟨hvalid, -, haccepts⟩ := (hfound r).1 hr
    obtain ⟨id, rfl⟩ := (f.pattern_accepts hvalid).1 haccepts
    exact ⟨id, rfl⟩
  have hmem : ∀ id, id ∈ ids ↔ Key.isToken id = true ∧ m (f.record id) ≠ none := by
    intro id
    constructor
    · intro hid
      obtain ⟨hvalid, hthere, -⟩ := (hfound _).1 (List.mem_map_of_mem hid)
      exact ⟨isToken_of_valid hvalid, hthere⟩
    · intro h
      have hrecord := (hfound (f.record id)).2 ⟨hf.valid h.1, h.2, hf.accepts_key h.1⟩
      obtain ⟨id', hid', hsame⟩ := List.mem_map.1 hrecord
      rwa [← key_injective (f := f) (congrArg RecordKey.text hsame)]
  rw [List.map_map] at hkeys
  have hps : ∀ p ∈ [f.pattern], p.isEverything = false ∧ p.isExact = false := by
    simpa using ⟨f.isEverything_pattern, f.isExact_pattern⟩
  have hscan := brings_scanning hf (KeyScan.sound_start (by simp) hps) (fun id hid => ((hmem id).1 hid).1)
    ((KeyScan.brings_single f.isEverything_pattern e.keys).trans hkeys)
  refine ⟨ids, .skip rfl (.skip (advance_asked f e) (.skip (advance_begun hf _ e) hscan)), ?_, hmem⟩
  have hascending := e.pairwise_keys.filter f.pattern.accepts
  rw [hkeys, List.pairwise_map] at hascending
  refine hascending.imp_of_mem fun {a b} ha hb hlt => ?_
  have hsame : a.toList.length = b.toList.length :=
    (hlength a ((hmem a).1 ha).2).trans (hlength b ((hmem b).1 hb).2).symm
  exact (compare_key (f := f) hsame).1 hlt

end Finder

/-! ## The query -/

/-- The vertices of a label. -/
def labelQuery (l : String) : Chain := [⟨.vertices, []⟩, ⟨.has, [.str Key.labelToken, .str l]⟩]

namespace labelQuery

/-- The scan of all vertices, and the filter. -/
def scan : PlannedStep := ⟨"V", [], .graph, .vertex, .vertices .all⟩

def filter (l : String) : PlannedStep :=
  ⟨"has", [.str Key.labelToken, .str l], .vertex, .vertex, .has Key.labelToken (.str l)⟩

/-- The scan of the label in their place. -/
def labelScan (l : String) : PlannedStep :=
  ⟨"labelScan", [.str l], .graph, .vertex, .verticesWithLabel l⟩

theorem resolve_eq (l : String) : (labelQuery l).resolve = .ok [.root, scan, filter l] := rfl

theorem plan_none (l : String) :
    Optimizer.none.plan (labelQuery l) = .ok (⟨[.root, scan, filter l]⟩, []) := rfl

/-- The default optimizer changes the query if the label is a token. -/
theorem plan_default (l : String) : Optimizer.default.plan (labelQuery l) =
    if Key.isToken l then .ok (⟨[.root, labelScan l]⟩, [])
    else Optimizer.none.plan (labelQuery l) := by
  have hsweep : Rule.vertexLabelScan.1.sweep? 4 [.root, scan, filter l] =
      some (if Key.isToken l then [.root, labelScan l] else [.root, scan, filter l], []) := by
    by_cases hl : Key.isToken l = true
    · simp [PlanRule.sweep?, PlanRule.replaceFront, PlanRule.lastOutput?, Rule.vertexLabelScan,
        PlannedStep.root, scan, filter, labelScan, hl]
    · simp [PlanRule.sweep?, PlanRule.replaceFront, Rule.vertexLabelScan, PlannedStep.root, scan,
        filter, hl]
  rw [Optimizer.plan_of_resolve _ (resolve_eq l), Optimizer.improve_of_sweep hsweep]
  split
  · rfl
  · rfl

omit [Backend σ] [LawfulBackend σ] in
theorem openStream_none (l : String) (e : Engine σ) :
    ((labelQuery l).openStream .none).run.run e =
      (.ok (Finder.behind l true Finder.all.opened), e) :=
  Chain.openStream_run (plan_none l) e

omit [Backend σ] [LawfulBackend σ] in
theorem openStream_default {l : String} (hl : Key.isToken l = true) (e : Engine σ) :
    ((labelQuery l).openStream .default).run.run e = (.ok (Finder.labeled l).opened, e) :=
  Chain.openStream_run ((plan_default l).trans (if_pos hl)) e

end labelQuery

/-- What the query comes to, planned by the default optimizer and as it stands. -/
theorem Engine.Holds.labelQuery_run (he : e.Holds m) (l : String)
    (hlisted : ∀ id, m (.plain (.listing .vertex id)) ≠ none → id.toList.length = 32)
    (hentries : ∀ id, m (.plain (.labelEntry id l)) ≠ none → id.toList.length = 32) :
    ∃ found listed, (∃ n, ∀ budget, n ≤ budget →
        (do (← (labelQuery l).openStream .default).items? budget : Attempt σ _).run.run e =
          (.ok (some (vertexItems found)), e) ∧
        (do (← (labelQuery l).openStream .none).items? budget : Attempt σ _).run.run e =
          (.ok (some (vertexItems listed)), e)) ∧
      (found.Pairwise fun a b => compare a b = .lt) ∧
      (listed.Pairwise fun a b => compare a b = .lt) ∧
      (∀ v, v ∈ listed ↔ Key.isToken v = true ∧ m (.plain (.listing .vertex v)) ≠ none ∧
        (m (.plain (.label .vertex v))).map Blob.string = some l) ∧
      ∀ v, v ∈ found ↔ if Key.isToken l then Key.isToken v = true ∧ m (.plain (.labelEntry v l)) ≠ none
        else v ∈ listed := by
  obtain ⟨all, hall, hascending, hmem⟩ := Finder.exists_brings (f := .all) trivial he hlisted
  have hnone : (Finder.behind l true Finder.all.opened).Brings e _ :=
    hall.filter fun id hid => Finder.having_label_of_holds (l := l) he ((hmem id).1 hid).1
  obtain ⟨n, hn⟩ := hnone.runs.items?_run
  let listed := all.filter fun id => (m (.plain (.label .vertex id))).map Blob.string = some l
  have hlist : ∀ v, v ∈ listed ↔ Key.isToken v = true ∧ m (.plain (.listing .vertex v)) ≠ none ∧
      (m (.plain (.label .vertex v))).map Blob.string = some l := by
    intro v
    rw [List.mem_filter, hmem, decide_eq_true_eq, and_assoc]
    rfl
  have hitems : ∀ ids : List String, ((vertexItems ids).map (·, e)).map (·.1) = vertexItems ids := by
    intro ids
    rw [List.map_map]
    exact List.map_id _
  rw [hitems] at hn
  by_cases hl : Key.isToken l = true
  · obtain ⟨found, hfound, hfoundAscending, hfoundMem⟩ :=
      Finder.exists_brings (f := .labeled l) hl he hentries
    obtain ⟨n', hn'⟩ := hfound.runs.items?_run
    rw [hitems] at hn'
    refine ⟨found, listed, ⟨max n n', fun budget hbudget => ⟨?_, ?_⟩⟩, hfoundAscending,
      hascending.filter _, hlist, fun v => ?_⟩
    · rw [Attempt.bind_ok (labelQuery.openStream_default hl e)]
      exact hn' budget (by omega)
    · rw [Attempt.bind_ok (labelQuery.openStream_none l e)]
      exact hn budget (by omega)
    · rw [if_pos hl]
      exact hfoundMem v
  · have hsame : ((labelQuery l).openStream .default : Attempt σ Stream) =
        (labelQuery l).openStream .none :=
      Chain.openStream_of_plan_eq ((labelQuery.plan_default l).trans (if_neg hl))
    refine ⟨listed, listed, ⟨n, fun budget hbudget => ?_⟩, hascending.filter _, hascending.filter _,
      hlist, fun v => by rw [if_neg hl]⟩
    rw [hsame, Attempt.bind_ok (labelQuery.openStream_none l e)]
    exact ⟨hn budget hbudget, hn budget hbudget⟩

end PropertyGraph
