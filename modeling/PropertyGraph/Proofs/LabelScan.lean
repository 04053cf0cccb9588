/-
The scan of a label in the place of a scan of all vertices. Before a filter by the label, both
find the same vertices in the same order (`Finder.follows`), whatever the steps behind them do to
the graph, so both queries have the same runs (`Finder.exists_runs`). Without the filter that is
so where no vertex goes while the query is under way. A default optimizer therefore changes
nothing about queries that drop nothing (`Engine.optimizer_history`).
-/
import PropertyGraph.Proofs.Simulation
import PropertyGraph.Proofs.VertexScan

namespace PropertyGraph

open PropertyGraph.Graph

/-! ## Sources that find vertices -/

/-- The root of a query under way: an expansion, over items of its own. -/
def Stream.root (current : Option Expansion) (items : List Item) : Stream :=
  .through (.expand (.step .root) current) (.given items)

/-- A piece of work of an expansion that scans keys. -/
theorem Stream.advance_scan {σ : Type} [Backend σ] [LawfulBackend σ] {e : Engine σ} {k k' : KeyScan}
    {event : ScanEvent} (h : k.advance e.fetch = (event, k')) (expander : Expander)
    (listing : Listing) (source : Stream) :
    (Stream.through (.expand expander (some (.scan listing (.ofScan k)))) source).advance.run e =
      (match event with
        | .key key =>
          match listing.item? key with
          | some t =>
            (.item (.ok t), .through (.expand expander (some (.scan listing (.ofScan k')))) source)
          | none => (.skip, .through (.expand expander (some (.scan listing (.ofScan k')))) source)
        | .failed err =>
          (.item (.error err), .through (.expand expander (some (.scan listing (.ofScan k')))) source)
        | .skip => (.skip, .through (.expand expander (some (.scan listing (.ofScan k')))) source)
        | .done => (.skip, .through (.expand expander none) source), e) := by
  have hscan : (Engine.advance (.ofScan k)).run e = ((event, .ofScan k'), e) := by
    rw [Engine.advance_run]
    simp only [KeyStream.ofScan, h]
  rw [Stream.advance_work rfl]
  simp only [Run.bind_run, Expansion.advance, hscan]
  cases event with
  | key key =>
    dsimp only
    cases listing.item? key <;> rfl
  | failed | skip | done => rfl

namespace Finder

/-- The vertices a finder finds, as a stream over the root. -/
def stream (f : Finder) (current : Option Expansion) (root : Stream) : Stream :=
  .through (.expand (.step f.step) current) root

/-- A stream that has not been worked on. -/
def opened (f : Finder) : Stream := f.stream none (.root none [.ok .graph])

/-- The stream behind a filter by a label, or the stream itself. -/
def behind (l : String) (checked : Bool) (s : Stream) : Stream :=
  if checked then .through (.filter (.having Key.labelToken (.str l))) s else s

/-- A stream that finds vertices, by what it has left to find and a bound for the pieces of work
left. -/
inductive At (f : Finder) (l : String) (stray : Multigraph → String → Prop) (keys : List String)
    (g : Multigraph) : List String → Nat → Stream → Prop
  | opened {ids : List String} {n : Nat} (h : Lists l g ids)
    (hn : (KeyScan.start [f.pattern]).work keys + 5 < n) : At f l stray keys g ids n f.opened
  | asked {ids : List String} {n : Nat} (h : Lists l g ids)
    (hn : (KeyScan.start [f.pattern]).work keys + 4 < n) :
    At f l stray keys g ids n (f.stream none (.root (some (.items [.ok .graph])) []))
  | begun {ids : List String} {n : Nat} (h : Lists l g ids)
    (hn : (KeyScan.start [f.pattern]).work keys + 3 < n) :
    At f l stray keys g ids n (f.stream (some (.task f.task)) (.root (some (.items [])) []))
  | scanning {ids : List String} {n : Nat} {k : KeyScan} (h : f.Scans l stray keys g ids k)
    (hn : k.work keys + 2 < n) :
    At f l stray keys g ids n
      (f.stream (some (.scan f.listing (.ofScan k))) (.root (some (.items [])) []))
  | scanned {n : Nat} (hn : 1 < n) :
    At f l stray keys g [] n (f.stream none (.root (some (.items [])) []))
  | ended {n : Nat} (hn : 0 < n) : At f l stray keys g [] n (f.stream none (.root none []))

/-- What a stream that finds vertices brings, from some ids left to find to others. -/
inductive Finds (l : String) (stray : Multigraph → String → Prop) (g : Multigraph) :
    List String → Event → List String → Prop
  | skip (ids : List String) : Finds l stray g ids .skip ids
  | found {id : String} (ids : List String) (h : id ∈ g.labeled l) :
    Finds l stray g (id :: ids) (.item (.ok (.vertex id))) ids
  | stray {id : String} (ids : List String) (hid : Key.isToken id = true) (hnot : id ∉ g.labeled l)
    (h : stray g id) : Finds l stray g ids (.item (.ok (.vertex id))) ids
  | done : Finds l stray g [] .done []

variable {σ : Type} [Backend σ] [LawfulBackend σ] {f : Finder} {l : String}
  {stray : Multigraph → String → Prop}
  {e : Engine σ} {g : Multigraph} {ids : List String} {n : Nat} {s : Stream}

/-- Beginning to look opens a scan. -/
theorem begin_run (hf : f.Named) (e : Engine σ) :
    f.task.begin.run.run e = (.ok (.scan f.listing (.ofScan (.start [f.pattern]))), e) := by
  have hopen : ∀ {pattern : String}, KeyPattern.parse pattern = .ok f.pattern →
      (Engine.call (Backend.keys [pattern]) : Attempt σ KeyStream).run.run e =
        (.ok (.ofScan (.start [f.pattern])), e) := fun hparse =>
    Engine.keys_run (KeyPattern.parseAll_singleton hparse) e
  cases f with
  | all => exact Attempt.bind_ok (hopen (KeyPattern.parse_listing .vertex)) _
  | labeled l => exact Attempt.bind_ok (hopen (KeyPattern.parse_labelEntries hf)) _

omit [LawfulBackend σ] in
/-- The graph leads on to the task that opens the scan. -/
theorem advance_asked (f : Finder) (e : Engine σ) :
    (f.stream none (.root (some (.items [.ok .graph])) [])).advance.run e =
      ((.skip, f.stream (some (.task f.task)) (.root (some (.items [])) [])), e) := by
  cases f <;> rfl

theorem advance_begun (hf : f.Named) (root : Stream) (e : Engine σ) :
    (f.stream (some (.task f.task)) root).advance.run e =
      ((.skip, f.stream (some (.scan f.listing (.ofScan (.start [f.pattern])))) root), e) := by
  exact Stream.advance_task (begin_run hf e)

/-- A piece of work of a scan under way. -/
theorem advance_scanning {k k' : KeyScan} {event : ScanEvent}
    (h : k.advance e.fetch = (event, k')) (root : Stream) :
    (f.stream (some (.scan f.listing (.ofScan k))) root).advance.run e =
      (match event with
        | .key key =>
          match f.listing.item? key with
          | some t => (.item (.ok t), f.stream (some (.scan f.listing (.ofScan k'))) root)
          | none => (.skip, f.stream (some (.scan f.listing (.ofScan k'))) root)
        | .failed err =>
          (.item (.error err), f.stream (some (.scan f.listing (.ofScan k'))) root)
        | .skip => (.skip, f.stream (some (.scan f.listing (.ofScan k'))) root)
        | .done => (.skip, f.stream none root), e) :=
  Stream.advance_scan h (.step f.step) f.listing root

/-- One piece of work on a stream that finds vertices. -/
theorem At.advance (h : f.At l stray e.keys g ids n s) (hf : f.Meets l)
    (hstray : f = .labeled l ∨ ∀ g id, stray g id) (hg : e.Keeps g) :
    ∃ event s' ids', s.advance.run e = ((event, s'), e) ∧ Finds l stray g ids event ids' ∧
      (event ≠ .done → ∃ n' < n, f.At l stray e.keys g ids' n' s') := by
  cases h with
  | opened h hn =>
    exact ⟨.skip, _, ids, rfl, .skip ids, fun _ => ⟨n - 1, by omega, .asked h (by omega)⟩⟩
  | asked h hn =>
    exact ⟨.skip, _, ids, advance_asked f e, .skip ids,
      fun _ => ⟨n - 1, by omega, .begun h (by omega)⟩⟩
  | begun h hn =>
    exact ⟨.skip, _, ids, advance_begun hf.named _ e, .skip ids,
      fun _ => ⟨n - 1, by omega, .scanning (scans_start hf hstray hg h) (by omega)⟩⟩
  | @scanning ids n k h hn =>
    obtain ⟨ids', hturns, hscans⟩ := h.advance hf hg
    have hwork := (KeyScan.advance_advances e.serves_fetch h.sound).work e.pairwise_keys h.sound
    cases hadvance : k.advance e.fetch with
    | mk event k' =>
      have hrun := advance_scanning (f := f) hadvance (.root (some (.items [])) [])
      rw [hadvance] at hturns hscans hwork
      dsimp only at hturns hscans hwork
      have hat : ∀ ids'', f.Scans l stray e.keys g ids'' k' → event ≠ .done →
          ∃ n' < n, f.At l stray e.keys g ids'' n'
            (f.stream (some (.scan f.listing (.ofScan k'))) (.root (some (.items [])) [])) := by
        intro ids'' hscans hne
        have := hwork hne
        exact ⟨n - 1, by omega, .scanning hscans (by omega)⟩
      cases hturns with
      | skip => exact ⟨.skip, _, _, hrun, .skip _, fun _ => hat _ hscans (by simp)⟩
      | @found id ids hid =>
        have hitem := hf.named.item?_key (hg.sound.isToken_labeled hid)
        simp only [hitem] at hrun
        exact ⟨_, _, _, hrun, .found _ hid, fun _ => hat _ hscans (by simp)⟩
      | @stray id _ hid hnot hstray =>
        have hitem := hf.named.item?_key hid
        simp only [hitem] at hrun
        exact ⟨_, _, _, hrun, .stray _ hid hnot hstray, fun _ => hat _ hscans (by simp)⟩
      | done => exact ⟨.skip, _, [], hrun, .skip [], fun _ => ⟨n - 1, by omega, .scanned (by omega)⟩⟩
  | scanned hn =>
    exact ⟨.skip, _, [], rfl, .skip [], fun _ => ⟨n - 1, by omega, .ended (by omega)⟩⟩
  | ended hn => exact ⟨.done, _, [], rfl, .done, fun h => absurd rfl h⟩

theorem Lists.drift (h : Lists l g ids) {g' : Multigraph} (hsub : ∀ v ∈ g'.vertices, v ∈ g.vertices) :
    Lists l g' (ids.filter (· ∈ g'.labeled l)) where
  mem id := by
    rw [List.mem_filter, decide_eq_true_eq, h.mem]
    refine and_iff_right_of_imp fun hid => ?_
    exact Multigraph.mem_labeled.2 (hsub _ (Multigraph.mem_labeled.1 hid))
  ascending := h.ascending.filter _
  length id hid := h.length id (List.mem_filter.1 hid).1

/-- When some vertices went, those that are still there are left to find. A stream over the
listing of all vertices has no more work then. -/
theorem At.drift (h : f.At l stray e.keys g ids n s) (hf : f.Meets l)
    (hstray : f = .labeled l ∨ ∀ g id, stray g id) (hg : e.Keeps g) {e' : Engine σ} {g' : Multigraph}
    (hg' : e'.Keeps g') (hsub : ∀ v ∈ g'.vertices, v ∈ g.vertices)
    (hstay : ∀ id, id ∈ ids ∨ stray g id → id ∈ g'.labeled l ∨ stray g' id) :
    ∃ n', (f = .all → n' = n) ∧
      f.At l stray e'.keys g' (ids.filter (· ∈ g'.labeled l)) n' s := by
  have hstart : Lists l g ids → f = .all →
      (KeyScan.start [f.pattern]).work e'.keys ≤ (KeyScan.start [f.pattern]).work e.keys := by
    rintro hlists rfl
    exact (scans_start hf hstray hg hlists).work_le hg hg' hsub
  have hbound : ∀ {a b : Nat} (i : Nat), (f = .all → a ≤ b) → b + i < n →
      ∃ n', (f = .all → n' = n) ∧ a + i < n' := by
    intro a b i hle hlt
    by_cases hall : f = .all
    · have := hle hall
      exact ⟨n, fun _ => rfl, by omega⟩
    · exact ⟨a + i + 1, fun h => absurd h hall, by omega⟩
  cases h with
  | opened h hn =>
    obtain ⟨n', hall, hn'⟩ := hbound 5 (hstart h) hn
    exact ⟨n', hall, .opened (h.drift hsub) hn'⟩
  | asked h hn =>
    obtain ⟨n', hall, hn'⟩ := hbound 4 (hstart h) hn
    exact ⟨n', hall, .asked (h.drift hsub) hn'⟩
  | begun h hn =>
    obtain ⟨n', hall, hn'⟩ := hbound 3 (hstart h) hn
    exact ⟨n', hall, .begun (h.drift hsub) hn'⟩
  | @scanning _ _ k h hn =>
    have hle : f = .all → k.work e'.keys ≤ k.work e.keys := by
      rintro rfl
      exact h.work_le hg hg' hsub
    obtain ⟨n', hall, hn'⟩ := hbound 2 hle hn
    exact ⟨n', hall, .scanning (h.drift hf hstray hg hg' hsub hstay) hn'⟩
  | scanned hn => exact ⟨n, fun _ => rfl, .scanned hn⟩
  | ended hn => exact ⟨n, fun _ => rfl, .ended hn⟩

/-! ## The filter by the label -/

omit [LawfulBackend σ] in
/-- A filter passes on what it holds of. -/
theorem having_run {key : String} {value : Json} {id : String} {found : Bool}
    (h : (Filter.holds .vertex id key value).run.run e = (.ok found, e)) :
    (Filter.apply (.having key value) (.vertex id)).run.run e =
      (.ok (if found then some (.vertex id) else none), e) := by
  refine (Attempt.bind_ok (x := requireElement "has" (.vertex id)) rfl _).trans
    ((Attempt.bind_ok h _).trans ?_)
  cases found <;> rfl

/-- A filter by the label lets a vertex pass of which this label is recorded. -/
theorem having_label_of_holds {m : Records} (he : e.Holds m) {id : String}
    (hid : Key.isToken id = true) :
    (Filter.apply (.having Key.labelToken (.str l)) (.vertex id)).run.run e =
      (.ok (if (m (.plain (.label .vertex id))).map Blob.string = some l then some (.vertex id)
        else none), e) := by
  have hlabel : (getLabel .vertex id).run.run e =
      (.ok ((m (.plain (.label .vertex id))).map Blob.string), e) :=
    (does_readText (r := .plain (.label .vertex id)) hid m).run_of_reads (reads_readText _) he
  have hholds : (Filter.holds .vertex id Key.labelToken (.str l)).run.run e =
      (.ok (decide ((m (.plain (.label .vertex id))).map Blob.string = some l)), e) := by
    rw [Filter.holds, if_pos (by simp)]
    refine (Attempt.bind_ok hlabel _).trans ?_
    cases (m (.plain (.label .vertex id))).map Blob.string with
    | none => rfl
    | some l' =>
      by_cases hl : l = l'
      · simp [hl]
        rfl
      · have hne : (Json.str l == Json.str l') = false := by simpa using hl
        simp only [hne, Option.some.injEq, eq_comm, hl, decide_false]
        rfl
  rw [having_run hholds]
  simp only [decide_eq_true_eq]

/-- A filter by the label lets the vertices of the label pass. -/
theorem having_label_run (hg : e.Keeps g) {id : String} (hid : Key.isToken id = true) :
    (Filter.apply (.having Key.labelToken (.str l)) (.vertex id)).run.run e =
      (.ok (if id ∈ g.labeled l then some (.vertex id) else none), e) := by
  obtain ⟨hsound, neighbors, -, hholds⟩ := hg
  have hiff : ((g.layout neighbors).record (.plain (.label .vertex id))).map Blob.string = some l ↔
      id ∈ g.labeled l := by
    have hrecord : ((g.layout neighbors).record (.plain (.label .vertex id))).map Blob.string =
        (g.vertex? id).map (·.label) := by
      show ((g.vertex? id).map fun v => Blob.text v.label).map Blob.string = _
      rw [Option.map_map]
      rfl
    rw [hrecord, Multigraph.mem_labeled]
    constructor
    · intro hv
      obtain ⟨⟨id', l'⟩, hfind, rfl⟩ := Option.map_eq_some_iff.1 hv
      obtain rfl : id' = id := by simpa using List.find?_some hfind
      exact List.mem_of_find?_eq_some hfind
    · intro hv
      rw [(Multigraph.vertex?_eq_some hsound).2 hv]
      rfl
  rw [having_label_of_holds hholds hid]
  simp only [hiff]

omit [LawfulBackend σ] in
/-- What the filter makes of what comes. -/
theorem behind_react {event : Event} {s' : Stream} {e' : Engine σ}
    (h : s.advance.run e = ((event, s'), e')) :
    (behind l true s).advance.run e =
      (((((Stage.filter (.having Key.labelToken (.str l))).react event).run e').1.1,
        (((Stage.filter (.having Key.labelToken (.str l))).react event).run e').1.2.over s'),
        (((Stage.filter (.having Key.labelToken (.str l))).react event).run e').2) :=
  Stream.advance_react rfl h

theorem behind_vertex (hg : e.Keeps g) {id : String} (hid : Key.isToken id = true) {s' : Stream}
    (h : s.advance.run e = ((.item (.ok (.vertex id)), s'), e)) :
    (behind l true s).advance.run e = (if id ∈ g.labeled l then
      (.item (.ok (.vertex id)), behind l true s') else (.skip, behind l true s'), e) := by
  rw [behind_react h]
  simp only [Stage.react, Run.bind_run, Engine.outcome, having_label_run hg hid]
  by_cases hlabeled : id ∈ g.labeled l
  · simp only [if_pos hlabeled]
    rfl
  · simp only [if_neg hlabeled]
    rfl

/-- No strays. -/
def noStray : Multigraph → String → Prop := fun _ _ => False

/-- One piece of work on a stream that finds vertices, behind the filter or where no strays are. -/
theorem At.behind_advance (h : f.At l stray e.keys g ids n s) (hf : f.Meets l)
    (hstray : f = .labeled l ∨ ∀ g id, stray g id) (checked : Bool)
    (hchecked : checked = false → stray = noStray) (hg : e.Keeps g) :
    ∃ event t ids', (behind l checked s).advance.run e = ((event, t), e) ∧
      Finds l noStray g ids event ids' ∧ (event ≠ .done →
        ∃ n' < n, ∃ s', t = behind l checked s' ∧ f.At l stray e.keys g ids' n' s') := by
  obtain ⟨event, s', ids', hrun, hfinds, hnext⟩ := h.advance hf hstray hg
  cases checked with
  | false =>
    obtain rfl := hchecked rfl
    refine ⟨event, s', ids', hrun, hfinds, fun hne => ?_⟩
    obtain ⟨n', hn', hat⟩ := hnext hne
    exact ⟨n', hn', s', rfl, hat⟩
  | true =>
    have hreact := behind_react (l := l) hrun
    cases hfinds with
    | skip =>
      obtain ⟨n', hn', hat⟩ := hnext (by simp)
      exact ⟨.skip, _, _, hreact, .skip _, fun _ => ⟨n', hn', s', rfl, hat⟩⟩
    | @found id _ hid =>
      obtain ⟨n', hn', hat⟩ := hnext (by simp)
      have hpass := behind_vertex (l := l) hg (hg.sound.isToken_labeled hid) hrun
      rw [if_pos hid] at hpass
      exact ⟨_, _, _, hpass, .found _ hid, fun _ => ⟨n', hn', s', rfl, hat⟩⟩
    | @stray id _ hid hnot =>
      obtain ⟨n', hn', hat⟩ := hnext (by simp)
      have hskip := behind_vertex (l := l) hg hid hrun
      rw [if_neg hnot] at hskip
      exact ⟨_, _, _, hskip, .skip _, fun _ => ⟨n', hn', s', rfl, hat⟩⟩
    | done => exact ⟨.done, _, [], hreact, .done, fun h => absurd rfl h⟩

/-- In a store that stays as it is, the next of the vertices left comes, or the end. -/
theorem At.comes (h : f.At l stray e.keys g ids n s) (hf : f.Meets l)
    (hstray : f = .labeled l ∨ ∀ g id, stray g id) (checked : Bool)
    (hchecked : checked = false → stray = noStray) (hg : e.Keeps g) :
    ∃ event t ids', event ≠ .skip ∧ (behind l checked s).Comes e event t e ∧
      Finds l noStray g ids event ids' ∧ (event ≠ .done →
        ∃ n' s', t = behind l checked s' ∧ f.At l stray e.keys g ids' n' s') := by
  induction n using Nat.strongRecOn generalizing ids s with
  | ind n ih =>
    obtain ⟨event, t, ids', hrun, hfinds, hnext⟩ := h.behind_advance hf hstray checked hchecked hg
    by_cases hskip : event = .skip
    · subst hskip
      obtain ⟨n', hn', s', rfl, hat⟩ := hnext (by simp)
      cases hfinds
      obtain ⟨event, t, ids', hne, hcomes, hfinds, hnext⟩ := ih n' hn' hat
      refine ⟨event, t, ids', hne, ?_, hfinds, hnext⟩
      cases event with
      | skip => exact absurd rfl hne
      | item | done =>
        obtain ⟨s₁, e₁, hskips, hlast⟩ := hcomes
        exact ⟨s₁, e₁, .step hrun hskips, hlast⟩
    · refine ⟨event, t, ids', hskip, (Stream.Skips.refl _ e).comes hrun, hfinds, fun hne => ?_⟩
      obtain ⟨n', -, s', rfl, hat⟩ := hnext hne
      exact ⟨n', s', rfl, hat⟩

omit [Backend σ] [LawfulBackend σ] in
theorem Finds.known {event : Event} {ids' : List String} (h : Finds l stray g ids event ids')
    (hg : g.Sound) : event.Known .vertex := by
  cases h with
  | skip | done => trivial
  | found _ hid =>
    intro t ht
    cases ht
    exact hg.isToken_labeled hid
  | stray _ hid =>
    intro t ht
    cases ht
    exact hid

variable {d : Drift}

/-- However vertices go between its pieces of work, a stream over the listing of all vertices
comes to its end. -/
theorem At.settles (hd : ∀ g g', d.rel g g' → ∀ v ∈ g'.vertices, v ∈ g.vertices)
    (hl : Key.isToken l = true) (h : Finder.all.At l (fun _ _ => True) e.keys g ids n s)
    (hg : e.Keeps g) :
    (behind l true s).Settles d .vertex e := by
  have hf : Finder.all.Meets l := ⟨hl, .inl rfl⟩
  induction n using Nat.strongRecOn generalizing e g ids s with
  | ind n ih =>
    have hstep : ∀ e₁, e.Drifts d e₁ → ∃ event t,
        (behind l true s).advance.run e₁ = ((event, t), e₁) ∧ event.Known .vertex ∧
          (event ≠ .done → t.Settles d .vertex e₁) := by
      intro e₁ h₁
      obtain ⟨g₁, hg₁, hrel⟩ := h₁ g hg
      obtain ⟨n₁, hn₁, hat⟩ := h.drift hf (by simp) hg hg₁ (hd g g₁ hrel) (by simp)
      obtain ⟨event, t, ids', hrun, hfinds, hnext⟩ := hat.behind_advance hf (by simp) true (by simp) hg₁
      refine ⟨event, t, hrun, hfinds.known hg₁.sound, fun hne => ?_⟩
      obtain ⟨n', hn', s', rfl, hat'⟩ := hnext hne
      exact ih n' (hn₁ rfl ▸ hn') hat' hg₁
    refine .step (fun e₁ g₁ h₁ _ => ?_) (fun e₁ g₁ h₁ _ => ?_) ?_
    · obtain ⟨event, t, hrun, -, -⟩ := hstep e₁ h₁
      rw [hrun]
      exact .refl d e₁
    · obtain ⟨event, t, hrun, hknown, -⟩ := hstep e₁ h₁
      rw [hrun]
      exact hknown
    · intro e₁ g₁ event t e₂ h₁ _ hs hne
      obtain ⟨event', t', hrun, -, hrest⟩ := hstep e₁ h₁
      rw [hrun] at hs
      cases hs
      exact hrest hne

/-- Two streams find the same vertices of a label: one over the listing of all vertices behind
the filter, one over the entries of the label. -/
inductive Same (l : String) (checked : Bool) : Stream → Stream → Engine σ → Prop
  | intro {g : Multigraph} {ids : List String} {m n : Nat} {s t : Stream} {e : Engine σ}
    (hg : e.Keeps g) (hs : Finder.all.At l (fun _ _ => True) e.keys g ids m s)
    (ht : (Finder.labeled l).At l (fun _ _ => checked = true) e.keys g ids n t) :
    Same l checked (behind l true s) (behind l checked t) e

omit [Backend σ] [LawfulBackend σ] in
theorem At.found {keys : List String} (h : f.At l stray keys g ids n s) :
    ∀ id ∈ ids, id ∈ g.labeled l := by
  cases h with
  | opened h | asked h | begun h => exact fun id => (h.mem id).1
  | scanning h => exact h.found
  | scanned | ended => simp

/-- While vertices go, or stay if there is no filter, one follows the other. -/
theorem follows {checked : Bool} (hl : Key.isToken l = true)
    (hd : ∀ g g', d.rel g g' → ∀ v ∈ g'.vertices, v ∈ g.vertices)
    (hsame : checked = false → ∀ g g', d.rel g g' → ∀ v ∈ g.vertices, v ∈ g'.vertices) :
    Stream.Follows d .vertex (Same (σ := σ) l checked) where
  drift := by
    rintro _ _ e e' ⟨hg, hs, ht⟩ he
    rename_i g ids m n s t
    obtain ⟨g', hg', hrel⟩ := he g hg
    have hstay : ∀ id, id ∈ ids ∨ checked = true → id ∈ g'.labeled l ∨ checked = true := by
      intro id hid
      by_cases hchecked : checked = false
      · have hlabeled := Multigraph.mem_labeled.1 (ht.found id (hid.resolve_right (by simp [hchecked])))
        exact .inl (Multigraph.mem_labeled.2 (hsame hchecked g g' hrel _ hlabeled))
      · exact .inr (by simpa using hchecked)
    obtain ⟨_, -, hs'⟩ := hs.drift ⟨hl, .inl rfl⟩ (by simp) hg hg' (hd g g' hrel) (by simp)
    obtain ⟨_, -, ht'⟩ := ht.drift ⟨hl, .inr rfl⟩ (.inl rfl) hg hg' (hd g g' hrel) hstay
    exact ⟨hg', hs', ht'⟩
  step := by
    rintro _ _ e _ event s' e' ⟨hg, hs, ht⟩ - hrun
    rename_i g ids m n s t
    obtain ⟨event', s'', ids', hrun', hfinds, hnext⟩ :=
      hs.behind_advance ⟨hl, .inl rfl⟩ (by simp) true (by simp) hg
    rw [hrun'] at hrun
    cases hrun
    refine ⟨.refl d e, hfinds.known hg.sound, ?_⟩
    by_cases hskip : event = .skip
    · -- the other stream need not go on
      subst hskip
      cases hfinds
      obtain ⟨_, -, s₁, rfl, hat⟩ := hnext (by simp)
      exact ⟨_, .refl _ e, fun _ => ⟨hg, hat, ht⟩⟩
    · have hnone : checked = false → (fun _ _ => checked = true) = noStray := by
        rintro rfl
        funext _ _
        simp [noStray]
      obtain ⟨event', t', ids'', hne, hcomes, hfinds', hnext'⟩ :=
        ht.comes ⟨hl, .inr rfl⟩ (.inl rfl) checked hnone hg
      have hboth : event = event' ∧ ids' = ids'' := by
        cases hfinds <;> cases hfinds' <;> simp_all [noStray]
      obtain ⟨rfl, rfl⟩ := hboth
      refine ⟨t', hcomes, fun hdone => ?_⟩
      obtain ⟨_, -, s₁, rfl, hat⟩ := hnext hdone
      obtain ⟨_, t₁, rfl, hat'⟩ := hnext' hdone
      exact ⟨hg, hat, hat'⟩

/-- The vertices of a label have an order. -/
theorem exists_lists (hl : Key.isToken l = true) (hg : e.Keeps g)
    (hlength : ∀ v ∈ g.vertices, v.id.toList.length = 32) : ∃ ids, Lists l g ids := by
  have hf : Finder.all.Meets l := ⟨hl, .inl rfl⟩
  have hkey : ∀ {key}, key ∈ e.keys.filter (· ∈ Finder.all.keys l g) →
      ∃ id ∈ g.labeled l, key = Finder.all.key id ∧ listedId key = id := by
    intro key hkey
    obtain ⟨id, hid, rfl⟩ := List.mem_map.1 (of_decide_eq_true (List.mem_filter.1 hkey).2)
    have hitem := hf.named.item?_key (hg.sound.isToken_labeled hid)
    exact ⟨id, hid, rfl, Traverser.vertex.inj (Option.some.inj hitem)⟩
  have hlabeled : ∀ {id}, id ∈ g.labeled l → id.toList.length = 32 := fun hid =>
    hlength _ (Multigraph.mem_labeled.1 hid)
  refine ⟨(e.keys.filter (· ∈ Finder.all.keys l g)).map listedId, ?_, ?_, ?_⟩
  · intro id
    rw [List.mem_map]
    constructor
    · rintro ⟨key, hmem, rfl⟩
      obtain ⟨id, hid, -, hlisted⟩ := hkey hmem
      rwa [hlisted]
    · intro hid
      have hthere : Finder.all.key id ∈ Finder.all.keys l g := List.mem_map_of_mem hid
      have hmem : Finder.all.key id ∈ e.keys.filter (· ∈ Finder.all.keys l g) :=
        List.mem_filter.2 ⟨mem_keys_of_labeled hf hg hthere, by simpa using hthere⟩
      obtain ⟨id', hid', hsame, hlisted⟩ := hkey hmem
      obtain rfl := key_injective hsame
      exact ⟨_, hmem, hlisted⟩
  · rw [List.pairwise_map]
    refine (e.pairwise_keys.filter _).imp_of_mem fun {a b} ha hb hlt => ?_
    obtain ⟨id, hid, rfl, hlisted⟩ := hkey ha
    obtain ⟨id', hid', rfl, hlisted'⟩ := hkey hb
    rw [hlisted, hlisted']
    exact (compare_key ((hlabeled hid).trans (hlabeled hid').symm)).1 hlt
  · intro id hid
    obtain ⟨key, hmem, rfl⟩ := List.mem_map.1 hid
    obtain ⟨id, hid, -, hlisted⟩ := hkey hmem
    rw [hlisted]
    exact hlabeled hid

/-- Behind both sources, stages that walk have the same run. -/
theorem exists_runs (checked : Bool) (hl : Key.isToken l = true)
    (hd : ∀ g g', d.rel g g' → ∀ v ∈ g'.vertices, v ∈ g.vertices)
    (hsame : checked = false → ∀ g g', d.rel g g' → ∀ v ∈ g.vertices, v ∈ g'.vertices)
    (hg : e.Keeps g) (hlength : ∀ v ∈ g.vertices, v.id.toList.length = 32) {steps : List Step}
    {b : ResultType} (hpath : d.Path .vertex steps b) :
    ∃ trace e', ((behind l true Finder.all.opened).ofSteps steps).Runs e trace e' ∧
      ((behind l checked (Finder.labeled l).opened).ofSteps steps).Runs e trace e' := by
  obtain ⟨ids, hids⟩ := exists_lists hl hg hlength
  have hall : Finder.all.At l (fun _ _ => True) e.keys g ids _ Finder.all.opened :=
    .opened hids (Nat.lt_succ_self _)
  have hlabeled : (Finder.labeled l).At l (fun _ _ => checked = true) e.keys g ids _
      (Finder.labeled l).opened := .opened hids (Nat.lt_succ_self _)
  obtain ⟨trace, e', hrun⟩ := ((hall.settles hd hl hg).ofSteps hpath).runs hg
  refine ⟨trace, e', hrun, ?_⟩
  exact hrun.follow (follows hl hd hsame)
    ((Stream.Over.source (.intro hg hall hlabeled)).ofSteps hpath) hg

end Finder

/-! ## Plans -/

namespace Chain

/-- The default optimizer lets a chain start with the vertices of a label, where it would start
with all vertices and keep those with the label; the steps behind stay as they are. -/
structure Rewrites (chain : Chain) (l : String) (rest : List PlannedStep) : Prop where
  isToken : Key.isToken l = true
  none : ∃ first second, first.step = .vertices .all ∧ second.step = .has Key.labelToken (.str l) ∧
    Optimizer.none.plan chain = .ok (⟨.root :: first :: second :: rest⟩, [])
  default : ∃ first, first.step = .verticesWithLabel l ∧
    Optimizer.default.plan chain = .ok (⟨.root :: first :: rest⟩, [])
  rest : ∃ before behind, chain = before ++ behind ∧ resolveFrom .vertex behind = .ok rest

/-- Of a chain that resolves to such steps, the steps behind stand for calls. -/
theorem resolveFrom_tail {chain : Chain} {first second : PlannedStep} {rest : List PlannedStep}
    {ids : Selection} {key : String} {value : Json}
    (h : resolveFrom .graph chain = .ok (first :: second :: rest)) (hfirst : first.step = .vertices ids)
    (hsecond : second.step = .has key value) :
    ∃ before behind, chain = before ++ behind ∧ resolveFrom .vertex behind = .ok rest := by
  match chain with
  | [] => cases h
  | [call] =>
    obtain ⟨rule, -, h⟩ := bind_eq_ok.1 h
    obtain ⟨step, -, h⟩ := bind_eq_ok.1 h
    obtain ⟨others, hothers, h⟩ := bind_eq_ok.1 h
    cases hothers
    cases h
  | call :: call' :: behind =>
    obtain ⟨rule, hrule, h⟩ := bind_eq_ok.1 h
    obtain ⟨step, hstep, h⟩ := bind_eq_ok.1 h
    obtain ⟨_, hothers, h⟩ := bind_eq_ok.1 h
    cases h
    obtain ⟨rule', hrule', h⟩ := bind_eq_ok.1 hothers
    obtain ⟨step', hstep', h⟩ := bind_eq_ok.1 h
    obtain ⟨_, hothers', h⟩ := bind_eq_ok.1 h
    cases h
    refine ⟨[call, call'], behind, rfl, ?_⟩
    dsimp only at hfirst hsecond
    subst hfirst hsecond
    rw [Step.op_vertices hstep] at hrule
    cases hrule
    rw [Step.op_has hstep'] at hrule'
    cases hrule'
    exact hothers'

/-- The default optimizer rewrites a chain so, or plans it as it is. -/
theorem exists_rewrites {chain : Chain}
    (h : Optimizer.default.plan chain ≠ Optimizer.none.plan chain) :
    ∃ l rest, chain.Rewrites l rest := by
  cases hresolve : chain.resolve with
  | error err =>
    refine absurd ?_ h
    rw [Optimizer.plan, Optimizer.plan, hresolve]
    rfl
  | ok steps =>
    have hdefault := Optimizer.default.plan_of_resolve hresolve
    have hnone := Optimizer.none.plan_of_resolve hresolve
    obtain ⟨first, rest, rfl, hwalks⟩ := walks_of_resolve hresolve
    rcases @Optimizer.improve_default first rest hwalks with
      hsame | ⟨second, others, l, rfl, hfirst, hsecond, hl, himprove⟩
    · rw [hsame] at hdefault
      exact absurd (hdefault.trans hnone.symm) h
    · rw [himprove] at hdefault
      obtain ⟨_, -, h⟩ := bind_eq_ok.1 hresolve
      obtain ⟨found, hfound, h⟩ := bind_eq_ok.1 h
      cases h
      exact ⟨l, others, hl, ⟨first, second, hfirst, hsecond, hnone⟩, ⟨_, rfl, hdefault⟩,
        resolveFrom_tail hfound hfirst hsecond⟩

variable {σ : Type} {chain : Chain} {l : String} {rest : List PlannedStep}

/-- The streams of the two plans. -/
theorem Rewrites.openStream_none (h : chain.Rewrites l rest) (e : Engine σ) :
    (chain.openStream .none).run.run e =
      (.ok ((Finder.behind l true Finder.all.opened).ofSteps (rest.map (·.step))), e) := by
  obtain ⟨⟨_, _, _, _, _⟩, ⟨_, _, _, _, _⟩, rfl, rfl, hplan⟩ := h.none
  exact openStream_run hplan e

theorem Rewrites.openStream_default (h : chain.Rewrites l rest) (e : Engine σ) :
    (chain.openStream .default).run.run e =
      (.ok ((Finder.labeled l).opened.ofSteps (rest.map (·.step))), e) := by
  obtain ⟨⟨_, _, _, _, _⟩, rfl, hplan⟩ := h.default
  exact openStream_run hplan e

theorem openStream_of_plan_eq {o o' : Optimizer} (h : o.plan chain = o'.plan chain) :
    (chain.openStream o : Attempt σ Stream) = chain.openStream o' := by
  rw [openStream, openStream, plan, plan, h]

end Chain

/-! ## After a history -/

section History

variable {σ : Type} [Backend σ] [LawfulBackend σ] {e e' : Engine σ}

omit [LawfulBackend σ] in
/-- Streams with the same run are the same to whoever draws on them for long enough. -/
theorem Stream.Runs.fold?_eq {s t : Stream} {trace : List (Item × Engine σ)}
    (hs : s.Runs e trace e') (ht : t.Runs e trace e') :
    ∃ n, ∀ budget, n ≤ budget → ∀ {β : Type} (f : β → Item → Except Error β) (b : β),
      (s.fold? f budget b).run.run e = (t.fold? f budget b).run.run e := by
  obtain ⟨m, hm⟩ := hs.fold?_run
  obtain ⟨n, hn⟩ := ht.fold?_run
  refine ⟨max m n, fun budget hbudget β f b => ?_⟩
  rw [hm budget (by omega) f b, hn budget (by omega) f b]

/-- The vertices stay as they are. -/
def Drift.sameVertices : Drift where
  rel g g' := g'.vertices = g.vertices
  refl _ := rfl
  trans h h' := h'.trans h

theorem Drift.sameVertices_sub (g g' : Multigraph) (h : Drift.sameVertices.rel g g') :
    ∀ v ∈ g'.vertices, v ∈ g.vertices := by
  intro v hv
  rwa [← show g'.vertices = g.vertices from h]

theorem Drift.sameVertices_sup (g g' : Multigraph) (h : Drift.sameVertices.rel g g') :
    ∀ v ∈ g.vertices, v ∈ g'.vertices := by
  intro v hv
  rwa [show g'.vertices = g.vertices from h]

/-- Behind a change of the plan, steps that keep to a drift have the same run: where vertices may
go, with the filter, and where they stay, also without it. -/
theorem Chain.Rewrites.exists_runs {chain : Chain} {l : String} {rest : List PlannedStep}
    (h : chain.Rewrites l rest) {d : Drift} (checked : Bool)
    (hd : ∀ g g', d.rel g g' → ∀ v ∈ g'.vertices, v ∈ g.vertices)
    (hsame : checked = false → ∀ g g', d.rel g g' → ∀ v ∈ g.vertices, v ∈ g'.vertices)
    (hallows : ∀ s ∈ rest, d.Allows s.input s.step) {g : Multigraph} (hg : e.Keeps g)
    (hlength : ∀ v ∈ g.vertices, v.id.toList.length = 32) :
    ∃ trace e', ((Finder.behind l true Finder.all.opened).ofSteps (rest.map (·.step))).Runs e trace e' ∧
      ((Finder.behind l checked (Finder.labeled l).opened).ofSteps (rest.map (·.step))).Runs e trace e' := by
  obtain ⟨_, _, -, hresolve⟩ := h.rest
  obtain ⟨b, hpath⟩ := Chain.path_of_resolveFrom hresolve (by simp) hallows
  exact Finder.exists_runs checked h.isToken hd hsame hg hlength hpath

/-- The ids of vertices have one length, as all ids that are handed out. -/
theorem Tracks.length_id {ids : Nat → String} {s : Multigraph × Nat} (h : Tracks ids s e)
    (hids : GoodIds ids s.2) : ∀ v ∈ s.1.vertices, v.id.toList.length = 32 := by
  intro v hv
  obtain ⟨i, hi, hid⟩ := h.born .vertex v.id (List.mem_map_of_mem hv)
  rw [← hid]
  exact (hids.wellFormed i hi).1

/-- Whatever operations ran from an empty store, a query without a drop comes to the same whether
the default optimizer plans it or none: the same items and errors in the same order, and the same
state of the engine, wherever whoever draws on it stops. A query that the optimizer changes comes
to its end. -/
theorem Engine.optimizer_history (hempty : ∀ key, e.contents key = none) {ops : List RecordOp}
    (hops : ∀ op ∈ ops, op.Named)
    (hids : GoodIds e.ids (Multigraph.history e.ids ops (.empty, e.issued)).2) {chain : Chain}
    (hchain : ∀ call ∈ chain, call.operation ≠ .drop) :
    let e' := ((RecordOp.runAll ops).run e).2
    ∃ n, ∀ budget, n ≤ budget →
      (∀ {β : Type} (f : β → Item → Except Error β) (b : β),
        (do (← chain.openStream .default).fold? f budget b : Attempt σ _).run.run e' =
          (do (← chain.openStream .none).fold? f budget b : Attempt σ _).run.run e') ∧
      (Optimizer.default.plan chain ≠ Optimizer.none.plan chain → ∃ items e'',
        (do (← chain.openStream .default).items? budget : Attempt σ _).run.run e' =
          (.ok (some items), e'')) := by
  obtain ⟨htracks, -⟩ := (Tracks.empty hempty).run hops hids
  intro e'
  by_cases hplan : Optimizer.default.plan chain = Optimizer.none.plan chain
  · refine ⟨0, fun budget _ => ⟨fun f b => ?_, fun h => absurd hplan h⟩⟩
    rw [Chain.openStream_of_plan_eq hplan]
  · obtain ⟨l, rest, hrewrites⟩ := Chain.exists_rewrites hplan
    have hallows : ∀ s ∈ rest, Drift.sameVertices.Allows s.input s.step := by
      intro s hs
      obtain ⟨before, behind, rfl, hresolve⟩ := hrewrites.rest
      obtain ⟨call, hcall, hstep⟩ := Chain.exists_call hresolve hs
      have hnot : s.step ≠ .drop := fun hdrop =>
        hchain call (List.mem_append_right _ hcall) (Step.op_drop (hdrop ▸ hstep))
      exact ⟨fun _ _ _ _ _ _ => rfl, fun hdrop => absurd hdrop hnot,
        fun hdrop => absurd hdrop hnot⟩
    obtain ⟨trace, e'', hnone, hdefault⟩ := hrewrites.exists_runs false Drift.sameVertices_sub
      (fun _ => Drift.sameVertices_sup) hallows htracks.keeps (htracks.length_id hids)
    obtain ⟨m, hm⟩ := hdefault.fold?_eq hnone
    obtain ⟨n, hn⟩ := hdefault.items?_run
    refine ⟨max m n, fun budget hbudget => ⟨fun f b => ?_, fun _ => ⟨trace.map (·.1), e'', ?_⟩⟩⟩
    · rw [Attempt.bind_ok (hrewrites.openStream_default e'),
        Attempt.bind_ok (hrewrites.openStream_none e')]
      exact hm budget (by omega) f b
    · rw [Attempt.bind_ok (hrewrites.openStream_default e')]
      exact hn budget (by omega)

end History

/-- A query that the default optimizer changes, over vertices that it marks on the way. -/
def markingChain : Chain :=
  [⟨.vertices, []⟩, ⟨.has, [.str "label", .str "person"]⟩, ⟨.property, [.str "seen", .bool true]⟩,
    ⟨.outEdges, [.str "knows"]⟩]

theorem optimizer_markingChain :
    ∃ n, ∀ budget, n ≤ budget →
      (∀ {β : Type} (f : β → Item → Except Error β) (b : β),
        (do (← markingChain.openStream .default).fold? f budget b : Attempt Memory _).run.run
            ((RecordOp.runAll linkingOps).run (Engine.ofStore Memory.empty)).2 =
          (do (← markingChain.openStream .none).fold? f budget b : Attempt Memory _).run.run
            ((RecordOp.runAll linkingOps).run (Engine.ofStore Memory.empty)).2) ∧
      ∃ items e'', (do (← markingChain.openStream .default).items? budget : Attempt Memory _).run.run
        ((RecordOp.runAll linkingOps).run (Engine.ofStore Memory.empty)).2 = (.ok (some items), e'') := by
  obtain ⟨n, hn⟩ := @Engine.optimizer_history Memory _ _ (Engine.ofStore Memory.empty) (fun _ => rfl)
    linkingOps (by decide) (by decide) markingChain (by decide)
  have hchanged : Optimizer.default.plan markingChain ≠ Optimizer.none.plan markingChain := by decide
  exact ⟨n, fun budget hbudget => ⟨(hn budget hbudget).1, (hn budget hbudget).2 hchanged⟩⟩

end PropertyGraph
