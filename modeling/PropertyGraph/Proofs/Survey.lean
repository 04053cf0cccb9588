/-
Scans that go through elements while these are touched. A scan under way has some ids left to
find, by the page at hand and the ranges ahead (`Survey.Left`). A piece of work finds the first of
them or none, and where elements that were found already are dropped meanwhile, the same are left,
since a range begins behind a key and not at it (`Survey.Left.filter`). So the vertices, the edges
and the vertices of a label come each once and in the order of their ids, whatever becomes of those
that came (`Survey.supplies`).
-/
import PropertyGraph.Proofs.AscendingIds
import PropertyGraph.Proofs.InHand
import PropertyGraph.Proofs.LabelScan
import PropertyGraph.Proofs.Supply

namespace PropertyGraph

open PropertyGraph.Graph

/-- The root hands the graph to the step behind it, which expands it. -/
theorem Stream.skips_expanding {σ : Type} [Backend σ] {step : Step} {x : Expansion} {e : Engine σ}
    (h : (Expansion.ofStep step .graph).run e = (x, e)) :
    Stream.Skips (.through (.expand (.step step) none) (.root none [.ok .graph])) e
      (.through (.expand (.step step) (some x)) (.root (some (.items [])) [])) e := by
  have hasked : (Stream.through (.expand (.step step) none)
      (.root (some (.items [.ok .graph])) [])).advance.run e =
        ((.skip, .through (.expand (.step step) (some x)) (.root (some (.items [])) [])), e) := by
    rw [Stream.advance_react rfl (show (Stream.root (some (.items [.ok .graph])) []).advance.run e =
      ((.item (.ok .graph), .root (some (.items [])) []), e) from rfl)]
    simp only [Stage.react, Run.bind_run, Expander.expand, h]
    rfl
  exact .step rfl (.step hasked (.refl _ e))

/-- A way to find elements by keys that list them: vertices by a finder, or all edges. -/
inductive Survey where
  | vertices (finder : Finder)
  | edges

namespace Survey

/-- The kind of the elements. -/
def kind : Survey → ElementKind
  | .vertices _ => .vertex
  | .edges => .edge

/-- The step that finds them. -/
def step : Survey → Step
  | .vertices f => f.step
  | .edges => .edges .all

def task : Survey → Task
  | .vertices f => f.task
  | .edges => .select .edge

def listing : Survey → Listing
  | .vertices f => f.listing
  | .edges => .elements .edge

def pattern : Survey → KeyPattern
  | .vertices f => f.pattern
  | .edges => .listing .edge

/-- The record that finds an element. -/
def record (v : Survey) (id : String) : RecordKey :=
  match v with
  | .vertices f => f.record id
  | .edges => .plain (.listing .edge id)

def key (v : Survey) (id : String) : String := (v.record id).text

/-- The label looked for is a token. -/
def Named : Survey → Prop
  | .vertices f => f.Named
  | .edges => True

/-- The elements to be found in a graph. -/
def ids (v : Survey) (g : Multigraph) : List String :=
  match v with
  | .vertices .all => g.ids .vertex
  | .vertices (.labeled l) => g.labeled l
  | .edges => g.ids .edge

/-- All elements of a kind. -/
def all : ElementKind → Survey
  | .vertex => .vertices .all
  | .edge => .edges

@[simp]
theorem kind_all (kind : ElementKind) : (all kind).kind = kind := by cases kind <;> rfl

@[simp]
theorem ids_all (kind : ElementKind) (g : Multigraph) : (all kind).ids g = g.ids kind := by
  cases kind <;> rfl

theorem named_all (kind : ElementKind) : (all kind).Named := by cases kind <;> trivial

/-! ## Keys that list elements -/

variable {v : Survey} {id : String} {g g' : Multigraph}

theorem Named.valid (hv : v.Named) (h : Key.isToken id = true) : (v.record id).Valid := by
  cases v with
  | vertices f => exact Finder.Named.valid hv h
  | edges => exact h

theorem pattern_accepts (v : Survey) {r : RecordKey} (hr : r.Valid) :
    v.pattern.accepts r.text = true ↔ ∃ id, r = v.record id := by
  cases v with
  | vertices f => exact f.pattern_accepts hr
  | edges => exact KeyPattern.listing_accepts hr .edge

theorem Named.accepts_key (hv : v.Named) (h : Key.isToken id = true) :
    v.pattern.accepts (v.key id) = true :=
  (v.pattern_accepts (hv.valid h)).2 ⟨id, rfl⟩

theorem Named.item?_key (hv : v.Named) (h : Key.isToken id = true) :
    v.listing.item? (v.key id) = some (.ofElement v.kind id) := by
  cases v with
  | vertices f => exact Finder.Named.item?_key hv h
  | edges =>
    have htokens : Key.tokens (Survey.edges.key id) = (Survey.edges.record id).tokens :=
      (hv.valid h).tokens_text
    simp [listing, Listing.item?, listedId, Key.lastToken, htokens, record, RecordKey.tokens,
      PlainKey.tokens, kind]

/-- In a key, the same stands around every id. -/
theorem exists_around (v : Survey) :
    ∃ before behind, ∀ id, (v.key id).toList = before ++ (id.toList ++ behind) := by
  cases v with
  | vertices f => exact f.exists_around
  | edges =>
    refine ⟨ElementKind.edge.listing.toList ++ ['.'], [], fun id => ?_⟩
    simp [key, record, RecordKey.text, RecordKey.tokens, PlainKey.tokens, Key.join, Key.joinChars]

theorem key_injective (v : Survey) : Function.Injective v.key := injective_of_around v.exists_around

/-- Keys are in the order of their ids. -/
theorem compare_key (v : Survey) {id' : String} (h : id.toList.length = id'.toList.length) :
    compare (v.key id) (v.key id') = .lt ↔ compare id id' = .lt :=
  compare_of_around v.exists_around h

theorem isEverything_pattern (v : Survey) : v.pattern.isEverything = false := by
  cases v with
  | vertices f => exact f.isEverything_pattern
  | edges => rfl

theorem isExact_pattern (v : Survey) : v.pattern.isExact = false := by
  cases v with
  | vertices f => exact f.isExact_pattern
  | edges => rfl

/-! ## Elements in order -/

/-- The elements to be found are in the order of their ids, which have one length. -/
structure Sorted (v : Survey) (g : Multigraph) : Prop where
  ascending : (v.ids g).Pairwise fun a b => compare a b = .lt
  length : ∀ id ∈ v.ids g, id.toList.length = 32

theorem Sorted.nodup (h : v.Sorted g) : (v.ids g).Nodup :=
  h.ascending.imp fun hlt heq => by simp [heq] at hlt

theorem Sorted.sublist (h : v.Sorted g) (hsub : (v.ids g').Sublist (v.ids g)) : v.Sorted g' where
  ascending := h.ascending.sublist hsub
  length id hid := h.length id (hsub.subset hid)

theorem labeled_sublist (g : Multigraph) (l : String) : (g.labeled l).Sublist (g.ids .vertex) :=
  List.filter_sublist.map _

/-- Ids that were handed out are in order, so every survey finds them so. -/
theorem sorted_of_ascending {ids : Nat → String} {s : Multigraph × Nat}
    (h : Multigraph.Ascending ids s) (hids : GoodIds ids s.2) (v : Survey) : v.Sorted s.1 := by
  have hsub : (v.ids s.1).Sublist (s.1.ids v.kind) := by
    cases v with
    | vertices f =>
      cases f with
      | all => exact .refl _
      | labeled l => exact labeled_sublist s.1 l
    | edges => exact .refl _
  exact ⟨(h.ascending v.kind).sublist hsub, fun id hid => h.length_id hids (hsub.subset hid)⟩

theorem isToken_of_mem (hg : g.Sound) (h : id ∈ v.ids g) : Key.isToken id = true := by
  cases v with
  | vertices f =>
    cases f with
    | all => exact hg.isToken_of_has (x := (.vertex, id)) h
    | labeled l => exact hg.isToken_labeled h
  | edges => exact hg.isToken_of_has (x := (.edge, id)) h

/-- When an element is touched, all others are found as before. -/
theorem exists_filter (h : g.Touched v.kind id g') : ∃ keep : String → Bool,
    (∀ i, i ≠ id → keep i = true) ∧ v.ids g' = (v.ids g).filter keep := by
  cases v with
  | vertices f =>
    obtain ⟨keep, hkeep, hvertices⟩ := h.vertices
    refine ⟨keep, hkeep, ?_⟩
    cases f with
    | all => simp only [ids, Multigraph.ids, hvertices, List.filter_map, Function.comp_def]
    | labeled l =>
      simp only [ids, Multigraph.labeled, hvertices, List.filter_map, List.filter_filter,
        Bool.and_comm, Function.comp_def]
  | edges =>
    obtain ⟨keep, hkeep, hedges⟩ := h.edges
    exact ⟨keep, hkeep, by simp only [ids, Multigraph.ids, hedges, List.filter_map, Function.comp_def]⟩

variable {σ : Type} [Backend σ] [LawfulBackend σ] {e : Engine σ}

/-- The keys that list elements, in a store that keeps a graph. -/
theorem keys_eq (hv : v.Named) (hsorted : v.Sorted g) (he : e.Keeps g) :
    e.keys.filter v.pattern.accepts = (v.ids g).map v.key := by
  obtain ⟨hsound, neighbors, -, hholds⟩ := he
  have hthere : ∀ id, (g.layout neighbors).record (v.record id) ≠ none ↔ id ∈ v.ids g := by
    intro id
    cases v with
    | vertices f =>
      cases f <;> simp [record, Finder.record, Layout.record, Multigraph.layout, ids,
        Multigraph.mem_labeled]
    | edges => simp [record, Layout.record, Multigraph.layout, ids]
  refine eq_of_ascending (e.pairwise_keys.filter _) ?_ fun key => ?_
  · rw [List.pairwise_map]
    refine hsorted.ascending.imp_of_mem fun {a b} ha hb hlt => ?_
    exact (v.compare_key ((hsorted.length a ha).trans (hsorted.length b hb).symm)).2 hlt
  · rw [List.mem_filter, List.mem_map]
    constructor
    · rintro ⟨hkey, haccepts⟩
      obtain ⟨r, hr, rfl⟩ := hholds.only key (Engine.mem_keys_iff.1 hkey)
      obtain ⟨id, rfl⟩ := (v.pattern_accepts hr).1 haccepts
      exact ⟨id, (hthere id).1 ((hholds.mem_keys_iff hr).1 hkey), rfl⟩
    · rintro ⟨id, hid, rfl⟩
      have htoken := isToken_of_mem hsound hid
      exact ⟨(hholds.mem_keys_iff (hv.valid htoken)).2 ((hthere id).2 hid), hv.accepts_key htoken⟩

/-! ## Scans under way -/

/-- Of all elements there are, a scan has some left to find: by the page at hand, which may be older
than the store, and by the ranges ahead. -/
structure Left (v : Survey) (all left : List String) (k : KeyScan) : Prop where
  patterns : k.patterns = [v.pattern]
  distinct : k.distinct = false
  sound : k.Sound
  left : k.page.filter v.pattern.accepts ++ k.ahead.flatMap (KeyScan.keysIn (all.map v.key)) =
    left.map v.key

variable {all left : List String} {k k' : KeyScan}

omit [LawfulBackend σ] in
/-- A fresh scan has all elements left. -/
theorem left_start (hv : v.Named) (hall : ∀ id ∈ all, Key.isToken id = true) :
    v.Left all all (.start [v.pattern]) := by
  have hps : ∀ p ∈ [v.pattern], p.isEverything = false ∧ p.isExact = false := by
    simpa using ⟨v.isEverything_pattern, v.isExact_pattern⟩
  refine ⟨rfl, by simp [KeyScan.start, KeyScan.ranges, v.isEverything_pattern],
    KeyScan.sound_start (by simp) hps, ?_⟩
  have hin : ∀ key ∈ all.map v.key, inRange v.pattern.stem none key = true := by
    intro key hkey
    obtain ⟨id, hid, rfl⟩ := List.mem_map.1 hkey
    simpa [inRange] using KeyPattern.startsWith_stem (hv.accepts_key (hall id hid))
  simp [KeyScan.start, KeyScan.ahead, KeyScan.ranges, v.isEverything_pattern,
    List.filter_eq_self.2 hin]

/-- What is left to find is what a scan brings. -/
theorem Left.brings (h : v.Left all left k) {keys : List String}
    (hkeys : keys.filter v.pattern.accepts = all.map v.key) :
    k.brings (k.pending keys) = left.map v.key := by
  rw [KeyScan.brings_eq_filter h.distinct, ← h.left, ← hkeys, ← KeyScan.filter_pending]
  simp [h.patterns]

/-- A piece of work keeps the pattern, so what it leaves is by the keys that are left. -/
theorem Left.next (h : v.Left all left k) (hkeys : e.keys.filter v.pattern.accepts = all.map v.key)
    {event : ScanEvent} (hadv : KeyScan.Advances e.keys k event k') {left' : List String}
    (hleft : k'.brings (k'.pending e.keys) = left'.map v.key) : v.Left all left' k' := by
  obtain ⟨hsame, hsameDistinct⟩ := hadv.keeps h.distinct
  have hpatterns := hsame.trans h.patterns
  have hdistinct := hsameDistinct.trans h.distinct
  refine ⟨hpatterns, hdistinct, hadv.sound e.pairwise_keys h.sound, ?_⟩
  rw [← hleft, KeyScan.brings_eq_filter hdistinct, ← hkeys, ← KeyScan.filter_pending]
  simp [hpatterns]

/-- Where elements go that are not left to find, the same are left. -/
theorem Left.filter (h : v.Left all left k) {keep : String → Bool}
    (hleft : ∀ id ∈ left, id ∈ all ∧ keep id = true) : v.Left (all.filter keep) left k := by
  let stays : String → Bool := (· ∈ (all.filter keep).map v.key)
  have hstays : ∀ id ∈ all, stays (v.key id) = keep id := by
    intro id hid
    have hiff : v.key id ∈ (all.filter keep).map v.key ↔ keep id = true := by
      rw [List.mem_map_of_injective v.key_injective, List.mem_filter, and_iff_right hid]
    simp [stays, hiff]
  have hall : (all.filter keep).map v.key = (all.map v.key).filter stays := by
    rw [List.filter_map]
    exact congrArg _ (List.filter_congr fun id hid => (hstays id hid).symm)
  have hin : KeyScan.keysIn ((all.filter keep).map v.key) =
      fun r => (KeyScan.keysIn (all.map v.key) r).filter stays := by
    funext r
    rw [hall, KeyScan.keysIn, List.filter_filter, List.filter_filter]
    exact List.filter_congr fun key _ => Bool.and_comm _ _
  have hkeys : (left.map v.key).filter stays = left.map v.key := by
    refine List.filter_eq_self.2 fun key hkey => ?_
    obtain ⟨id, hid, rfl⟩ := List.mem_map.1 hkey
    exact (hstays id (hleft id hid).1).trans (hleft id hid).2
  -- keys of the page at hand are among those left, so they stay whatever the store has become
  have hpage : (k.page.filter v.pattern.accepts).filter stays = k.page.filter v.pattern.accepts := by
    refine List.filter_eq_self.2 fun key hkey => List.filter_eq_self.1 hkeys key ?_
    rw [← h.left]
    exact List.mem_append_left _ hkey
  refine ⟨h.patterns, h.distinct, h.sound, ?_⟩
  calc k.page.filter v.pattern.accepts ++ k.ahead.flatMap (KeyScan.keysIn ((all.filter keep).map v.key))
      = (k.page.filter v.pattern.accepts ++
          k.ahead.flatMap (KeyScan.keysIn (all.map v.key))).filter stays := by
        rw [List.filter_append, hpage, List.filter_flatMap, hin]
    _ = left.map v.key := by rw [h.left, hkeys]

/-! ## Streams -/

/-- The elements of a survey, as a stream over the root. -/
def stream (v : Survey) (current : Option Expansion) (root : Stream) : Stream :=
  .through (.expand (.step v.step) current) root

/-- A stream that has not been worked on. -/
def opened (v : Survey) : Stream := v.stream none (.root none [.ok .graph])

/-- Steps behind the root and the step of a survey. -/
theorem ofSteps_step (v : Survey) (steps : List Step) :
    (Stream.given [.ok .graph]).ofSteps (.root :: v.step :: steps) = v.opened.ofSteps steps := by
  cases v with
  | vertices f => cases f <;> rfl
  | edges => rfl

/-- A stream whose scan is under way. -/
def scanning (v : Survey) (k : KeyScan) : Stream :=
  v.stream (some (.scan v.listing (.ofScan k))) (.root (some (.items [])) [])

/-- Beginning to look opens a scan. -/
theorem begin_run (hv : v.Named) (e : Engine σ) :
    v.task.begin.run.run e = (.ok (.scan v.listing (.ofScan (.start [v.pattern]))), e) := by
  cases v with
  | vertices f => exact f.begin_run hv e
  | edges =>
    have hopen := (Listing.open_run (.elements .edge) (KeyPattern.parse_listing .edge) e).1
    exact Attempt.bind_ok hopen _

/-- The first pieces of work open the scan. -/
theorem skips_opened (hv : v.Named) (e : Engine σ) :
    Stream.Skips v.opened e (v.scanning (.start [v.pattern])) e := by
  have hasked : (Expansion.ofStep v.step .graph).run e = (.task v.task, e) := by
    cases v with
    | vertices f => cases f <;> rfl
    | edges => rfl
  have hbegun : (v.stream (some (.task v.task)) (.root (some (.items [])) [])).advance.run e =
      ((.skip, v.scanning (.start [v.pattern])), e) := Stream.advance_task (begin_run hv e)
  exact (Stream.skips_expanding hasked).trans (.step hbegun (.refl _ e))

/-- In a store that keeps the graph, the first element left comes next, or the end. -/
theorem Left.comes (h : v.Left all left k) (hv : v.Named)
    (hkeys : e.keys.filter v.pattern.accepts = all.map v.key)
    (hleft : ∀ id ∈ left, Key.isToken id = true) :
    match left with
    | [] => ∃ s, (v.scanning k).Comes e .done s e
    | id :: rest => ∃ k', (v.scanning k).Comes e (.item (.ok (.ofElement v.kind id)))
        (v.scanning k') e ∧ v.Left all rest k' := by
  induction hwork : k.work e.keys using Nat.strongRecOn generalizing k with
  | _ n ih =>
  have hadv := KeyScan.advance_advances e.serves_fetch h.sound
  have hbrings := hadv.brings e.pairwise_keys h.sound
  rw [h.brings hkeys] at hbrings
  cases hadvance : k.advance e.fetch with
  | mk event k' =>
  have hrun := Stream.advance_scan hadvance (.step v.step) v.listing (.root (some (.items [])) [])
  rw [hadvance] at hadv hbrings
  cases event with
  | key key =>
    cases left with
    | nil => cases hbrings
    | cons id rest =>
      obtain ⟨rfl, hrest⟩ := List.cons.inj hbrings
      simp only [hv.item?_key (hleft id (by simp))] at hrun
      exact ⟨k', (Stream.Skips.refl _ e).comes hrun, h.next hkeys hadv hrest.symm⟩
  | skip =>
    have hskips : Stream.Skips (v.scanning k) e (v.scanning k') e := .step hrun (.refl _ e)
    have hlater := ih _ (hwork ▸ hadv.work e.pairwise_keys h.sound (by simp))
      (h.next hkeys hadv hbrings.symm) rfl
    cases left with
    | nil =>
      obtain ⟨s, hcomes⟩ := hlater
      exact ⟨s, hskips.comes_trans hcomes⟩
    | cons id rest =>
      obtain ⟨k'', hcomes, hrest⟩ := hlater
      exact ⟨k'', hskips.comes_trans hcomes, hrest⟩
  | done =>
    obtain rfl : left = [] := by simpa [KeyScan.Takes] using hbrings
    have hskips : Stream.Skips (v.scanning k) e (v.stream none (.root none [])) e :=
      .step hrun (.step rfl (.refl _ e))
    exact ⟨_, hskips.comes rfl⟩
  | failed err => exact hbrings.elim

/-- Whatever becomes of the elements that came, those left come in turn. -/
theorem Left.supplies (hv : v.Named) (hsorted : v.Sorted g) (h : v.Left (v.ids g) left k)
    (hleft : ∀ id ∈ left, id ∈ v.ids g) (hnodup : left.Nodup) :
    (v.scanning k).Supplies σ v.kind True left g := by
  have htokens : ∀ {e : Engine σ}, e.Keeps g → ∀ id ∈ left, Key.isToken id = true :=
    fun he id hid => isToken_of_mem he.sound (hleft id hid)
  induction left generalizing g k with
  | nil => exact fun _ e he => h.comes hv (keys_eq hv hsorted he) (htokens he)
  | cons id left ih =>
    intro e he
    obtain ⟨k', hcomes, hnext⟩ := h.comes hv (keys_eq hv hsorted he) (htokens he)
    refine ⟨_, hcomes, fun g' hg' => ?_⟩
    obtain ⟨hnew, hnodup⟩ := List.nodup_cons.1 hnodup
    obtain ⟨keep, hkeep, hids⟩ := exists_filter hg'
    have hstay : ∀ i ∈ left, i ∈ v.ids g ∧ keep i = true := fun i hi =>
      ⟨hleft i (List.mem_cons_of_mem _ hi), hkeep i fun hii => hnew (hii ▸ hi)⟩
    have hleft' : ∀ i ∈ left, i ∈ v.ids g' := fun i hi => hids ▸ List.mem_filter.2 (hstay i hi)
    have hsorted' : v.Sorted g' := hsorted.sublist (hids ▸ List.filter_sublist)
    refine ih hsorted' (hids ▸ hnext.filter hstay) hleft' hnodup ?_
    exact fun he' i hi => isToken_of_mem he'.sound (hleft' i hi)

/-- A survey supplies the elements there are to find. -/
theorem supplies (hv : v.Named) (hsorted : v.Sorted g) :
    v.opened.Supplies σ v.kind True (v.ids g) g := by
  refine .of_skips fun e he => ⟨_, skips_opened hv e, ?_⟩
  have hstart : v.Left (v.ids g) (v.ids g) (.start [v.pattern]) :=
    left_start hv fun id hid => isToken_of_mem he.sound hid
  exact hstart.supplies hv hsorted (fun _ hid => hid) hsorted.nodup

end Survey

end PropertyGraph
