/-
Queries that write what they read, and their end. A scan keeps no snapshot: it fetches its pages from
the store as it is, while the steps behind it set properties in the range it walks and drop what it
lists. What it has still to bring only gets less, all the same: no property is a key that a scan
brings (`Key.not_listed_property`), and a drop brings no key at all (`Prunes`). So a scan ends,
however many keys it passes over on the way (`halts_scan`), and a stage ends over a source that does
(`Halts.expand` and its companions). Only the first step of a plan scans or creates, so every query
has an end, whatever the store holds (`Chain.items?_ends`).
-/
import PropertyGraph.Proofs.ChangingScan
import PropertyGraph.Proofs.EagerLists
import PropertyGraph.Proofs.KeyPatterns
import PropertyGraph.Proofs.Pruning
import PropertyGraph.Proofs.StepTypes

namespace PropertyGraph

open PropertyGraph.Graph

/-! ## Keys that scans bring -/

namespace Key

/-- A key that a scan brings to a query: the entry that lists an element, or one by which a label
finds a vertex. -/
def Listed (key : String) : Prop := ∃ listing p, Listing.Of listing p ∧ p.accepts key = true

theorem tokens_of_isToken {t : String} (h : isToken t = true) : tokens t = [t] := by
  have hjoin : join [t] = t := by simp [join, joinChars]
  have htokens : tokens (join [t]) = [t] :=
    tokens_join_of_ne_nil (by simp) (by simpa using dot_not_mem_of_isToken h)
  rwa [hjoin] at htokens

/-- No property is one, whatever its element is called. -/
theorem not_listed_property (kind : ElementKind) (id name : String) :
    ¬ Listed (property kind id name) := by
  rintro ⟨listing, p, hof, haccepts⟩
  have htokens : tokens (property kind id name) =
      kind.root :: (tokens id ++ "property" :: tokens name) := by
    rw [property, tokens_join_flatMap (by simp)]
    simp [tokens_of_isToken (isToken_root kind), tokens_of_isToken (t := "property") (by decide)]
  rw [KeyPattern.accepts, htokens] at haccepts
  cases hof with
  | elements kind' =>
    simp only [KeyPattern.listing, KeyPattern.matchTokens, Slot.accepts, Bool.and_eq_true,
      beq_iff_eq] at haccepts
    exact ElementKind.root_ne_listing haccepts.1.symm
  | labeled hl =>
    -- An id is one token at least, so that the word stands third, or there are too many tokens.
    obtain ⟨t, ts, hid⟩ := List.exists_cons_of_ne_nil (tokens_ne_nil id)
    obtain ⟨u, us, hname⟩ := List.exists_cons_of_ne_nil (tokens_ne_nil name)
    rw [hid, hname] at haccepts
    rcases ts with _ | ⟨a, _ | ⟨b, _ | ⟨c, ts⟩⟩⟩ <;>
      simp [KeyPattern.labelEntries, KeyPattern.matchTokens, Slot.accepts, labelToken] at haccepts

end Key

section Engines

variable {σ α : Type} [Backend σ] [LawfulBackend σ] {W : String → Prop}

/-- None of these keys comes between two states. -/
def Engine.NoneComes (W : String → Prop) (e e' : Engine σ) : Prop :=
  ∀ key, W key → e.contents key = none → e'.contents key = none

namespace Engine.NoneComes

variable {e e' e'' : Engine σ}

theorem of_store (h : e'.store = e.store) : e.NoneComes W e' := by
  intro key _ hnone
  rwa [contents, h]

theorem refl (e : Engine σ) : e.NoneComes W e := .of_store rfl

theorem trans (h : e.NoneComes W e') (h' : e'.NoneComes W e'') : e.NoneComes W e'' :=
  fun key hkey hnone => h' key hkey (h key hkey hnone)

theorem of_reads {x : Attempt σ α} (hx : Reads x) (e : Engine σ) : e.NoneComes W (x.run.run e).2 :=
  .of_store (hx.store e)

theorem of_prunes {x : Run σ α} (hx : Prunes x) (e : Engine σ) : e.NoneComes W (x.run e).2 :=
  fun key _ => hx e key

end Engine.NoneComes

/-- Setting a property leaves all other keys alone. -/
theorem contents_setProperty {kind : ElementKind} {id name key : String}
    (hkey : key ≠ Key.property kind id name) (value : Json) (e : Engine σ) :
    ((setProperty kind id name value).run.run e).2.contents key = e.contents key := by
  rw [setProperty]
  cases hcheck : Validation.propertyKey name with
  | error err => rfl
  | ok _ =>
    rw [Attempt.ofExcept_ok_bind rfl,
      Attempt.bind_ok (Engine.update_run (Key.property kind id name) (.text value.text) e)]
    exact (Engine.contents_write e _ _ key).trans (if_neg hkey)

/-- A filter brings none of the keys, if no property that it sets is one. -/
theorem Filter.noneComes_apply {f : Filter}
    (hf : ∀ name value, f = .setting name value → ∀ key, W key → Key.Listed key) (t : Traverser)
    (e : Engine σ) : e.NoneComes W ((f.apply t).run.run e).2 := by
  by_cases hsets : ∃ name value, f = .setting name value
  case neg => exact .of_reads (reads_apply (fun name value hf => hsets ⟨name, value, hf⟩) t) e
  case pos =>
    obtain ⟨name, value, rfl⟩ := hsets
    have hW := hf name value rfl
    intro key hkey hnone
    rw [apply, Attempt.bind_run]
    obtain ⟨log, hlog⟩ := (reads_requireElement "property" t).state e
    rw [hlog]
    cases ((requireElement "property" t).run.run e).1 with
    | error err => exact hnone
    | ok element =>
      have hne : key ≠ Key.property element.1 element.2 name := by
        rintro rfl
        exact Key.not_listed_property _ _ _ (hW _ hkey)
      have hset := contents_setProperty hne value { e with log := log }
      dsimp only
      rw [Attempt.bind_run]
      cases ((setProperty element.1 element.2 name value).run.run { e with log := log }).1 <;>
        exact hset.trans hnone

/-- A sink brings no key. -/
theorem Sink.prunes_absorb (s : Sink) (t : Traverser) : Prunes (s.absorb t : Attempt σ Sink).run := by
  have hmismatch : ∀ (s : Sink) (step expected : String) (other : Traverser),
      Prunes (do
        let _ ← (do throw (← (mismatch step expected other : Run σ Error)) : Attempt σ Unit)
        return s : Attempt σ Sink).run :=
    fun _ _ _ _ => .of_reads (.bind (.bind (.breach _) fun err => .throw err) fun _ => .pure _)
  cases s with
  | count total => exact .pure _
  | drop =>
    cases t with
    | vertex id => exact .andThen (.lift (prunes_dropVertex id)) fun _ => .pure _
    | edge id => exact .andThen (.lift (prunes_dropEdge id)) fun _ => .pure _
    | graph | value => exact hmismatch .drop _ _ _
  | dropGraph =>
    cases t with
    | graph => exact .andThen prunes_dropAll fun _ => .pure _
    | vertex | edge | value => exact hmismatch .dropGraph _ _ _

/-! ## Coming to an end -/

/-- Piece by piece, the end comes, and none of these keys does. Where an item has come, the store may be
changed before the next piece of work, as long as none of these keys comes either. -/
inductive Halts (W : String → Prop) {S : Type} (advance : S → Run σ (Event × S)) :
    S → Engine σ → Prop
  | done {s s' : S} {e e' : Engine σ} (h : (advance s).run e = ((.done, s'), e'))
    (hnone : e.NoneComes W e') : Halts W advance s e
  | skip {s s' : S} {e e' : Engine σ} (h : (advance s).run e = ((.skip, s'), e'))
    (hnone : e.NoneComes W e') (rest : Halts W advance s' e') : Halts W advance s e
  | item {s s' : S} {e e' : Engine σ} {i : Item} (h : (advance s).run e = ((.item i, s'), e'))
    (hnone : e.NoneComes W e') (rest : ∀ e'', e'.NoneComes W e'' → Halts W advance s' e'') :
    Halts W advance s e

/-- A stream that comes to its end has a run. -/
theorem Halts.runs {s : Stream} {e : Engine σ} (h : Halts W Stream.advance s e) :
    ∃ trace e', s.Runs e trace e' := by
  induction h with
  | done h => exact ⟨[], _, .done h⟩
  | skip h _ _ ih =>
    obtain ⟨trace, e', hrest⟩ := ih
    exact ⟨trace, e', .skip h hrest⟩
  | item h _ _ ih =>
    obtain ⟨trace, e', hrest⟩ := ih _ (.refl _)
    exact ⟨_, e', .item h hrest⟩

theorem halts_given (l : List Item) (e : Engine σ) : Halts W Stream.advance (.given l) e := by
  induction l generalizing e with
  | nil => exact .done rfl (.refl e)
  | cons i l ih => exact .item rfl (.refl e) fun e' _ => ih e'

/-! ## Scans -/

/-- Where fewer keys of its pattern are stored, a scan has no more to bring. -/
theorem KeyScan.length_brings_le {k : KeyScan} {p : KeyPattern} (hpatterns : k.patterns = [p])
    (hdistinct : k.distinct = false) {keys keys' : List String}
    (hkeys' : keys'.Pairwise fun a b => compare a b = .lt)
    (hsub : ∀ key ∈ keys', p.accepts key = true → key ∈ keys) :
    (k.brings (k.pending keys')).length ≤ (k.brings (k.pending keys)).length := by
  have hbrings : ∀ keys, k.brings (k.pending keys) =
      k.page.filter p.accepts ++ k.ahead.flatMap fun r => (keysIn keys r).filter p.accepts := by
    intro keys
    rw [brings_eq_filter hdistinct, hpatterns, pending, List.filter_append, List.filter_flatMap]
    simp
  rw [hbrings, hbrings, List.length_append, List.length_append, List.length_flatMap,
    List.length_flatMap]
  refine Nat.add_le_add_left (List.sum_le_sum fun r _ => ?_) _
  refine length_le_of_ascending ((hkeys'.filter _).filter _) fun key hkey => ?_
  obtain ⟨hin, haccepts⟩ := List.mem_filter.1 hkey
  obtain ⟨hmem, hrange⟩ := List.mem_filter.1 hin
  exact List.mem_filter.2 ⟨List.mem_filter.2 ⟨hsub key hmem haccepts, hrange⟩, haccepts⟩

/-- A scan that goes on, over a store where nothing came that it brings, has no more to bring. -/
theorem Listing.Scanned.length_brings_le {listing : Listing} {k : KeyScan} (hk : listing.Scanned k)
    (hW : ∀ key, Key.Listed key → W key) {e e' : Engine σ} (he : e.NoneComes W e') :
    (k.brings (k.pending e'.keys)).length ≤ (k.brings (k.pending e.keys)).length := by
  obtain ⟨⟨p, hof, hpatterns⟩, hdistinct, -⟩ := hk
  refine KeyScan.length_brings_le hpatterns hdistinct e'.pairwise_keys fun key hkey haccepts => ?_
  rw [Engine.mem_keys_iff] at hkey ⊢
  exact fun hnone => hkey (he key (hW key ⟨listing, p, hof, haccepts⟩) hnone)

/-- A scan comes to its end. An item is one key less to bring, whatever has happened to the store
then; between two items the store stays as it is, and less of it is left to look at. -/
theorem halts_scan (hW : ∀ key, Key.Listed key → W key) {listing : Listing} {stream : KeyStream}
    (hscan : listing.Scanned stream.scan) (e : Engine σ) :
    Halts W Expansion.advance (.scan listing stream) e := by
  have hadv := KeyScan.advance_advances e.serves_fetch hscan.sound
  have hstep := Engine.advance_run stream e
  generalize (stream.scan.advance e.fetch).1 = event at hadv hstep
  generalize (stream.scan.advance e.fetch).2 = k at hadv hstep
  have hnext := hscan.advances e.pairwise_keys hadv
  have hbrings := hadv.brings e.pairwise_keys hscan.sound
  cases event with
  | key key =>
    have hrest : ∀ e', e.NoneComes W e' →
        Halts W Expansion.advance (.scan listing { stream with scan := k }) e' := by
      intro e' he'
      have hfewer : (k.brings (k.pending e'.keys)).length <
          (stream.scan.brings (stream.scan.pending e.keys)).length := by
        have hlist : stream.scan.brings (stream.scan.pending e.keys) =
            key :: k.brings (k.pending e.keys) := hbrings
        rw [hlist, List.length_cons]
        exact Nat.lt_succ_of_le (hnext.length_brings_le hW he')
      exact halts_scan hW hnext e'
    cases hitem : listing.item? key with
    | some t =>
      exact .item (by simp only [Expansion.advance, Run.bind_run, hstep, hitem]; rfl) (.refl e) hrest
    | none =>
      exact .skip (by simp only [Expansion.advance, Run.bind_run, hstep, hitem]; rfl) (.refl e)
        (hrest e (.refl e))
  | skip =>
    have hsame : stream.scan.brings (stream.scan.pending e.keys) = k.brings (k.pending e.keys) :=
      hbrings
    have hless := hadv.work e.pairwise_keys hscan.sound (by simp)
    exact .skip (by simp only [Expansion.advance, Run.bind_run, hstep]; rfl) (.refl e)
      (halts_scan hW hnext e)
  | done => exact .done (by simp only [Expansion.advance, Run.bind_run, hstep]; rfl) (.refl e)
  | failed err => exact absurd hbrings id
termination_by ((stream.scan.brings (stream.scan.pending e.keys)).length, stream.scan.work e.keys)
decreasing_by
  · exact Prod.Lex.left _ _ hfewer
  · rw [hsame]
    exact Prod.Lex.right _ hless

/-! ## Readings at once -/

/-- A scan that is read at once, with fuel for its work, is read to its end: more fuel changes
nothing. -/
theorem Engine.foldStream_of_le {β : Type} {f : β → Except Error String → Attempt σ β}
    (hf : ∀ b item, Reads (f b item)) {fuel fuel' : Nat} (hle : fuel ≤ fuel') {s : KeyScan}
    (hs : s.Sound) {e : Engine σ} (hfuel : s.work e.keys < fuel) (b : β) :
    (foldStream f fuel' b (.ofScan s)).run.run e = (foldStream f fuel b (.ofScan s)).run.run e := by
  induction fuel generalizing fuel' s e b with
  | zero => omega
  | succ fuel ih =>
    obtain ⟨fuel', rfl⟩ : ∃ k, fuel' = k + 1 := ⟨fuel' - 1, by omega⟩
    have hadv := KeyScan.advance_advances e.serves_fetch hs
    have hstep := advance_run (.ofScan s) e
    dsimp only [KeyStream.ofScan] at hstep
    generalize (s.advance e.fetch).1 = event at hadv hstep
    generalize (s.advance e.fetch).2 = s' at hadv hstep
    have hsound := hadv.sound e.pairwise_keys hs
    have hless := hadv.work e.pairwise_keys hs
    have htaken : ∀ item, s'.work e.keys < fuel →
        (f b item >>= fun b => foldStream f fuel' b (.ofScan s')).run.run e =
          (f b item >>= fun b => foldStream f fuel b (.ofScan s')).run.run e := by
      intro item hwork
      obtain ⟨log, hlog⟩ := (hf b item).state e
      rw [Attempt.bind_run, Attempt.bind_run, hlog]
      cases ((f b item).run.run e).1 with
      | ok b' => exact ih (by omega) hsound (e := { e with log := log }) hwork b'
      | error err => rfl
    rw [foldStream, foldStream, Attempt.lift_bind, Attempt.lift_bind]
    simp only [KeyStream.ofScan, hstep]
    cases event with
    | key key => exact htaken _ (by have := hless (by simp); omega)
    | failed err => exact htaken _ (by have := hless (by simp); omega)
    | skip => exact ih (by omega) hsound (by have := hless (by simp); omega) b
    | done => rfl

/-- The effort that the engine makes for such a reading is fuel enough. -/
theorem Engine.foldKeys_of_le {β : Type} {f : β → Except Error String → Attempt σ β}
    (hf : ∀ b item, Reads (f b item)) {patterns : List String} {ps : List KeyPattern}
    (hread : KeyPattern.parseAll patterns = .ok ps) (hne : ps ≠ [])
    (hps : ∀ p ∈ ps, p.isEverything = false ∧ p.isExact = false) (b : β) (e : Engine σ) {fuel : Nat}
    (hfuel : (KeyStream.ofScan (.start ps)).effort (Backend.size e.store) ≤ fuel) :
    (do foldStream f fuel b (← call (Backend.keys patterns)) : Attempt σ β).run.run e =
      (foldKeys f b patterns).run.run e := by
  rw [foldKeys, Attempt.bind_ok (keys_run hread e), Attempt.bind_ok (keys_run hread e),
    Attempt.get_bind]
  refine foldStream_of_le hf hfuel (KeyScan.sound_start hne hps) ?_ b
  rw [size_eq_length]
  exact KeyScan.work_start_lt ps e.keys

/-! ## Expansions -/

theorem halts_items (l : List Item) (e : Engine σ) : Halts W Expansion.advance (.items l) e := by
  induction l generalizing e with
  | nil => exact .done rfl (.refl e)
  | cons i l ih => exact .item rfl (.refl e) fun e' _ => ih e'

theorem halts_probe (kind : ElementKind) (ids : List String) (e : Engine σ) :
    Halts W Expansion.advance (.probe kind ids) e := by
  induction ids generalizing e with
  | nil => exact .done rfl (.refl e)
  | cons id ids ih =>
    have hnone : e.NoneComes W ((elementExists kind id).run.run e).2 :=
      .of_reads (reads_elementExists kind id) e
    generalize hrun : (elementExists kind id).run.run e = r at hnone
    obtain ⟨outcome, e'⟩ := r
    rcases outcome with err | _ | _
    · exact .item (by simp only [Expansion.advance, Run.bind_run, Engine.outcome, hrun]; rfl) hnone
        fun e'' _ => ih e''
    · exact .skip (by simp only [Expansion.advance, Run.bind_run, Engine.outcome, hrun]; rfl) hnone
        (ih e')
    · exact .item (by simp only [Expansion.advance, Run.bind_run, Engine.outcome, hrun]; rfl) hnone
        fun e'' _ => ih e''

/-- A task comes to its end if what it begins does. -/
theorem halts_task {t : Task} {e : Engine σ} (hnone : e.NoneComes W (t.begin.run.run e).2)
    (h : ∀ x, (t.begin.run.run e).1 = .ok x → Halts W Expansion.advance x (t.begin.run.run e).2) :
    Halts W Expansion.advance (.task t) e := by
  generalize hrun : t.begin.run.run e = r at hnone h
  obtain ⟨outcome, e'⟩ := r
  cases outcome with
  | ok x =>
    exact .skip (Expansion.advance_task hrun) hnone (h x rfl)
  | error err =>
    exact .item (Expansion.advance_failed hrun) hnone fun e'' _ => halts_items [] e''

theorem halts_listing (hW : ∀ key, Key.Listed key → W key) {t : Task} {listing : Listing}
    {pattern : String} {p : KeyPattern} (hof : listing.Of p) (hread : KeyPattern.parse pattern = .ok p)
    (ht : t.begin = (do return .scan listing (← Engine.call (Backend.keys [pattern])) :
      Attempt σ Expansion)) (e : Engine σ) : Halts W Expansion.advance (.task t) e := by
  obtain ⟨hopen, hscanned⟩ := Listing.open_run hof hread e
  have hbegin : t.begin.run.run e = (.ok (.scan listing (.ofScan (.start [p]))), e) := by
    rw [ht]
    exact Attempt.bind_ok hopen _
  refine halts_task (.of_store (by rw [hbegin])) fun x hx => ?_
  rw [hbegin] at hx ⊢
  cases hx
  exact halts_scan hW hscanned e

/-- A task that finds its items at once. -/
theorem halts_found {t : Task} (hnone : ∀ e : Engine σ, e.NoneComes W (t.begin.run.run e).2)
    (hgives : Gives (t.begin : Attempt σ _) fun x => ∃ l, x = .items l) (e : Engine σ) :
    Halts W Expansion.advance (.task t) e := by
  refine halts_task (hnone e) fun x hx => ?_
  obtain ⟨l, rfl⟩ := hgives e x hx
  exact halts_items l _

/-- What a task needs so that it comes to its end: a scan, that none of the keys it brings comes, and
a task that creates something, that this is not asked. -/
def Task.Heeds (W : String → Prop) : Task → Prop
  | .select _ => ∀ key, Key.Listed key → W key
  | .selectLabel l => Key.isToken l = true ∧ ∀ key, Key.Listed key → W key
  | .addVertex _ | .addEdge .. => ∀ key, ¬ W key
  | .selectOne .. | .adjacent .. | .bothEdges .. | .edgeVertex .. | .properties .. => True

theorem Task.Heeds.halts {t : Task} (h : t.Heeds W) (e : Engine σ) :
    Halts W Expansion.advance (.task t) e := by
  have hfound : ∀ {t : Task}, Reads (t.begin : Attempt σ _) →
      Gives (t.begin : Attempt σ _) (fun x => ∃ l, x = .items l) →
      Halts W Expansion.advance (.task t) e := fun hreads hgives =>
    halts_found (.of_reads hreads) hgives e
  cases t with
  | select kind => exact halts_listing h (.elements kind) (KeyPattern.parse_listing kind) rfl e
  | selectLabel l => exact halts_listing h.2 (.labeled h.1) (KeyPattern.parse_labelEntries h.1) rfl e
  | selectOne kind id =>
    refine hfound (.bind (reads_elementExists kind id) fun found => ?_) (.bind fun found => ?_)
    · cases found <;> exact .pure _
    · cases found <;> exact .pure ⟨_, rfl⟩
  | addVertex label =>
    exact halts_found (fun _ key hkey => absurd hkey (h key)) (.bind fun _ => .pure ⟨_, rfl⟩) e
  | addEdge label source target =>
    exact halts_found (fun _ key hkey => absurd hkey (h key)) (.bind fun _ => .pure ⟨_, rfl⟩) e
  | adjacent vertex direction adjacency labels =>
    exact hfound (.bind (reads_neighbors _ _ _ _ _) fun _ => .pure _) (.bind fun _ => .pure ⟨_, rfl⟩)
  | bothEdges vertex labels =>
    exact hfound (.bind (reads_neighbors _ _ _ _ _) fun _ =>
      .bind (reads_neighbors _ _ _ _ _) fun _ => .pure _)
      (.bind fun _ => .bind fun _ => .pure ⟨_, rfl⟩)
  | edgeVertex edge ends =>
    exact hfound (.bind (reads_edgeEndpoints _) fun _ => .pure _) (.bind fun _ => .pure ⟨_, rfl⟩)
  | properties t keys =>
    exact hfound (.bind (reads_requireElement _ _) fun _ =>
      .bind (reads_readProperties _ _ _) fun _ => .pure _)
      (.bind fun _ => .bind fun _ => .pure ⟨_, rfl⟩)

/-! ## Stages -/

section Stages

variable {source : Stream} {expander : Expander} {e : Engine σ}

/-- The expansion under way comes first. -/
theorem Halts.current {x : Expansion} (hx : Halts W Expansion.advance x e)
    (hsource : ∀ e', e.NoneComes W e' →
      Halts W Stream.advance (.through (.expand expander none) source) e') :
    Halts W Stream.advance (.through (.expand expander (some x)) source) e := by
  induction hx with
  | done h hnone =>
    exact .skip (by rw [Stream.advance_work rfl, Run.bind_run, h]; rfl) hnone (hsource _ hnone)
  | skip h hnone _ ih =>
    exact .skip (by rw [Stream.advance_work rfl, Run.bind_run, h]; rfl) hnone
      (ih fun e' he' => hsource e' (hnone.trans he'))
  | item h hnone _ ih =>
    exact .item (by rw [Stream.advance_work rfl, Run.bind_run, h]; rfl) hnone fun e' he' =>
      ih e' he' fun e'' he'' => hsource e'' ((hnone.trans he').trans he'')

/-- Each item is expanded, and all expansions come to their end. -/
theorem Halts.expand (hs : Halts W Stream.advance source e)
    (hx : ∀ t (e : Engine σ), ∃ x, e.Finds (expander.expand t) x ∧
      ∀ e' : Engine σ, Halts W Expansion.advance x e') :
    Halts W Stream.advance (.through (.expand expander none) source) e := by
  induction hs with
  | done h hnone => exact .done (by rw [Stream.advance_react rfl h]; rfl) hnone
  | skip h hnone _ ih => exact .skip (Stream.advance_skipped rfl h) hnone ih
  | @item s s' e e' i h hnone _ ih =>
    cases i with
    | error err => exact .item (by rw [Stream.advance_react rfl h]; rfl) hnone ih
    | ok t =>
      obtain ⟨x, hfinds, hhalts⟩ := hx t e'
      obtain ⟨log, hexpand⟩ := hfinds e'.log
      have hadvance : (Stream.through (.expand expander none) s).advance.run e =
          ((.skip, .through (.expand expander (some x)) s'), { e' with log := log }) := by
        rw [Stream.advance_react rfl h]
        simp only [Stage.react, Run.bind_run]
        rw [hexpand]
        rfl
      exact .skip hadvance hnone ((hhalts _).current ih)

/-- A filter that brings none of the keys. -/
theorem Halts.filter (hs : Halts W Stream.advance source e) {f : Filter}
    (hf : ∀ t (e : Engine σ), e.NoneComes W ((f.apply t).run.run e).2) :
    Halts W Stream.advance (.through (.filter f) source) e := by
  induction hs with
  | done h hnone => exact .done (by rw [Stream.advance_react rfl h]; rfl) hnone
  | skip h hnone _ ih => exact .skip (Stream.advance_skipped rfl h) hnone ih
  | @item s s' e e' i h hnone _ ih =>
    cases i with
    | error err => exact .item (by rw [Stream.advance_react rfl h]; rfl) hnone ih
    | ok t =>
      have happlied := hf t e'
      generalize hrun : (f.apply t).run.run e' = r at happlied
      obtain ⟨found, e''⟩ := r
      have hadvance : (Stream.through (.filter f) s).advance.run e =
          ((.ofOutcome found, .through (.filter f) s'), e'') := by
        rw [Stream.advance_react rfl h, Stage.react_filter hrun]
        rfl
      have hlater : ∀ e₁, e''.NoneComes W e₁ →
          Halts W Stream.advance (.through (.filter f) s') e₁ := fun e₁ he₁ =>
        ih e₁ (happlied.trans he₁)
      rcases found with err | _ | t'
      · exact .item hadvance (hnone.trans happlied) hlater
      · exact .skip hadvance (hnone.trans happlied) (hlater e'' (.refl e''))
      · exact .item hadvance (hnone.trans happlied) hlater

/-- A limit asks for no more than its source has. -/
theorem Halts.limit (hs : Halts W Stream.advance source e) (n : Nat) :
    Halts W Stream.advance (.through (.limit n) source) e := by
  induction hs generalizing n with
  | @done s s' e e' h hnone =>
    cases n with
    | zero => exact .done rfl (.refl e)
    | succ n => exact .done (by rw [Stream.advance_react rfl h]; rfl) hnone
  | @skip s s' e e' h hnone _ ih =>
    cases n with
    | zero => exact .done rfl (.refl e)
    | succ n => exact .skip (Stream.advance_skipped rfl h) hnone (ih (n + 1))
  | @item s s' e e' i h hnone _ ih =>
    cases n with
    | zero => exact .done rfl (.refl e)
    | succ n =>
      exact .item (by rw [Stream.advance_react rfl h]; rfl) hnone fun e'' he'' => ih e'' he'' n

/-- A sink takes in all items, or ends with an error. -/
theorem Halts.sink (hs : Halts W Stream.advance source e) (sink : Sink) :
    Halts W Stream.advance (.through (.sink sink) source) e := by
  induction hs generalizing sink with
  | done h hnone =>
    exact .skip (by rw [Stream.advance_react rfl h]; rfl) hnone (halts_given sink.finish _)
  | skip h hnone _ ih => exact .skip (Stream.advance_skipped rfl h) hnone (ih sink)
  | @item s s' e e' i h hnone _ ih =>
    cases i with
    | error err =>
      exact .item (by rw [Stream.advance_react rfl h]; rfl) hnone fun e'' _ => halts_given [] e''
    | ok t =>
      have habsorbed : e'.NoneComes W ((sink.absorb t).run.run e').2 :=
        .of_prunes (sink.prunes_absorb t) e'
      generalize hrun : (sink.absorb t).run.run e' = r at habsorbed
      obtain ⟨outcome, e''⟩ := r
      have hwork : ((Stage.sink sink).work? : Option (Run σ _)) = none := rfl
      have hreact := Stream.advance_react hwork h
      simp only [Stage.react, Run.bind_run, Engine.outcome, hrun] at hreact
      cases outcome with
      | ok sink' => exact .skip hreact (hnone.trans habsorbed) (ih e'' habsorbed sink')
      | error err => exact .item hreact (hnone.trans habsorbed) fun e₁ _ => halts_given [] e₁

end Stages

/-! ## Steps -/

/-- What a step needs so that its stage comes to its end: a scan and a step that creates something, what
their tasks need, and one that sets a property, that no property is one of the keys. -/
def Step.Heeds (W : String → Prop) : Step → Prop
  | .vertices _ | .edges _ => ∀ key, Key.Listed key → W key
  | .verticesWithLabel l => Key.isToken l = true ∧ ∀ key, Key.Listed key → W key
  | .addVertex _ | .addEdge .. => ∀ key, ¬ W key
  | .property .. => ∀ key, W key → Key.Listed key
  | .root | .adjacent .. | .bothEdges _ | .edgeVertex _ | .has .. | .id | .label | .properties _
  | .valueMap _ | .limit _ | .count | .drop | .dropGraph => True

section Steps

variable {source : Stream} {e : Engine σ}

omit [Backend σ] [LawfulBackend σ] in
theorem finds_failed (e : Engine σ) (name expected : String) (t : Traverser) :
    ∃ l, e.Finds (do return Expansion.failed (← mismatch name expected t) : Run σ Expansion)
      (.items l) :=
  ⟨_, (Engine.Finds.breach e _).bind (.pure e _)⟩

theorem halts_fromGraph {x : Expansion} (hx : ∀ e : Engine σ, Halts W Expansion.advance x e)
    (name : String) (t : Traverser) (e : Engine σ) :
    ∃ x', e.Finds (Expansion.fromGraph name t x) x' ∧
      ∀ e' : Engine σ, Halts W Expansion.advance x' e' := by
  cases t with
  | graph => exact ⟨x, .pure e x, hx⟩
  | vertex | edge | value =>
    obtain ⟨l, hfailed⟩ := finds_failed e name "graph" _
    exact ⟨_, hfailed, halts_items l⟩

theorem halts_selecting (kind : ElementKind) (hW : ∀ key, Key.Listed key → W key) (ids : Selection)
    (e : Engine σ) : Halts W Expansion.advance (Expansion.selecting kind ids) e := by
  cases ids with
  | all => exact Task.Heeds.halts (t := .select kind) hW e
  | one id => exact Task.Heeds.halts (t := .selectOne kind id) trivial e
  | many ids => exact halts_probe kind ids e

/-- Behind a source that comes to its end, so does the stage of a step. -/
theorem Step.Heeds.halts {step : Step} (h : step.Heeds W) (hs : Halts W Stream.advance source e) :
    Halts W Stream.advance (.through step.stage source) e := by
  cases step with
  | root => exact hs.expand fun t e => ⟨_, .pure e _, halts_items _⟩
  | vertices ids =>
    exact hs.expand fun t e => halts_fromGraph (halts_selecting .vertex h ids) "V" t e
  | edges ids => exact hs.expand fun t e => halts_fromGraph (halts_selecting .edge h ids) "E" t e
  | verticesWithLabel l =>
    exact hs.expand fun t e => halts_fromGraph (Task.Heeds.halts (t := .selectLabel l) h) "V" t e
  | addVertex l =>
    exact hs.expand fun t e => halts_fromGraph (Task.Heeds.halts (t := .addVertex l) h) "addV" t e
  | addEdge l source target =>
    exact hs.expand fun t e =>
      halts_fromGraph (Task.Heeds.halts (t := .addEdge l source target) h) "addE" t e
  | adjacent direction adjacency labels =>
    refine hs.expand fun t e => ?_
    cases t with
    | vertex id =>
      exact ⟨_, .pure e _, Task.Heeds.halts (t := .adjacent id direction adjacency labels) trivial⟩
    | graph | edge | value =>
      obtain ⟨l, hfailed⟩ := finds_failed e (Expansion.adjacentName direction adjacency) "vertex" _
      exact ⟨_, hfailed, halts_items l⟩
  | bothEdges labels =>
    refine hs.expand fun t e => ?_
    cases t with
    | vertex id => exact ⟨_, .pure e _, Task.Heeds.halts (t := .bothEdges id labels) trivial⟩
    | graph | edge | value =>
      obtain ⟨l, hfailed⟩ := finds_failed e "bothE" "vertex" _
      exact ⟨_, hfailed, halts_items l⟩
  | edgeVertex ends =>
    refine hs.expand fun t e => ?_
    cases t with
    | edge id => exact ⟨_, .pure e _, Task.Heeds.halts (t := .edgeVertex id ends) trivial⟩
    | graph | vertex | value =>
      obtain ⟨l, hfailed⟩ := finds_failed e "outV/inV/bothV/otherV" "edge" _
      exact ⟨_, hfailed, halts_items l⟩
  | properties keys =>
    exact hs.expand fun t e =>
      ⟨_, .pure e _, Task.Heeds.halts (t := .properties t keys) trivial⟩
  | property key value =>
    exact hs.filter (Filter.noneComes_apply fun _ _ _ => h)
  | has | id | label | valueMap =>
    exact hs.filter (Filter.noneComes_apply fun _ _ hf => by cases hf)
  | limit n => exact hs.limit n
  | count | drop | dropGraph => exact hs.sink _

theorem Halts.ofSteps {steps : List Step} (hs : Halts W Stream.advance source e)
    (hsteps : ∀ step ∈ steps, step.Heeds W) : Halts W Stream.advance (source.ofSteps steps) e := by
  induction steps generalizing source with
  | nil => exact hs
  | cons step steps ih =>
    exact ih ((hsteps step List.mem_cons_self).halts hs) fun s hmem =>
      hsteps s (List.mem_cons_of_mem _ hmem)

end Steps

/-! ## Plans -/

/-- Where nothing is created, the keys that do not come are those that scans bring. -/
theorem Step.Checked.heeds {step : Step} (h : step.Checked) (hnew : step.created = []) :
    step.Heeds Key.Listed := by
  cases step with
  | vertices | edges | property => exact fun _ hkey => hkey
  | verticesWithLabel l => exact ⟨h, fun _ hkey => hkey⟩
  | addVertex | addEdge => cases hnew
  | _ => trivial

/-- Where nothing is scanned, no key is asked about. -/
theorem Step.Walks.heeds {step : Step} (h : step.Walks) : step.Heeds fun _ => False := by
  cases step with
  | vertices | edges | verticesWithLabel | addVertex | addEdge => exact h.elim
  | property => exact fun _ hkey => hkey.elim
  | _ => trivial

/-- Only the first step of a plan scans or creates, and it does not do both. -/
theorem Plan.Sound.exists_heeds {plan : Plan} (h : plan.Sound) :
    ∃ W, ∀ step ∈ plan.steps.map (·.step), step.Heeds W := by
  obtain ⟨first, rest, hsteps, hwalks⟩ := h.start
  have htyped := h.typed
  rw [hsteps] at htyped ⊢
  by_cases hnew : first.step.created = []
  case pos =>
    refine ⟨Key.Listed, ?_⟩
    rw [List.map_cons, List.map_cons, List.forall_mem_cons, List.forall_mem_cons,
      List.forall_mem_map]
    exact ⟨trivial, (htyped first (by simp)).valid.checked.heeds hnew,
      fun s hs => (hwalks s hs).checked.heeds (hwalks s hs).created_eq⟩
  case neg =>
    refine ⟨fun _ => False, ?_⟩
    rw [List.map_cons, List.map_cons, List.forall_mem_cons, List.forall_mem_cons,
      List.forall_mem_map]
    refine ⟨trivial, ?_, fun s hs => (hwalks s hs).heeds⟩
    generalize first.step = step at hnew
    cases step with
    | addVertex | addEdge => exact fun _ => id
    | _ => exact absurd rfl hnew

/-- Whatever a store holds, and whatever a query writes into it or drops out of it on the way: with
enough budget its stream comes to its end, under the default optimizer and under none. What is
read at once in a piece of work comes to its end as well (`Engine.foldKeys_of_le`). -/
theorem Chain.items?_ends (c : Config) {chain : Chain} {plan : Plan} {notices : List Notice}
    (hplan : c.optimizer.plan chain = .ok (plan, notices)) (e : Engine σ) :
    ∃ n items e', ∀ budget, n ≤ budget →
      (do (← chain.openStream c.optimizer).items? budget : Attempt σ _).run.run e =
        (.ok (some items), e') := by
  obtain ⟨hsound, rfl⟩ := c.sound_of_plan hplan
  obtain ⟨W, hsteps⟩ := hsound.exists_heeds
  obtain ⟨first, rest, hroot, -⟩ := hsound.start
  obtain ⟨steps⟩ := plan
  obtain rfl : steps = .root :: first :: rest := hroot
  obtain ⟨trace, e', hruns⟩ := ((halts_given (W := W) [.ok .graph] e).ofSteps hsteps).runs
  obtain ⟨n, hn⟩ := hruns.items?_run
  refine ⟨n, trace.map (·.1), e', fun budget hbudget => ?_⟩
  rw [Attempt.bind_ok (Chain.openStream_run hplan e)]
  exact hn budget hbudget

end Engines

/-- A query that marks each person it finds, beside the keys it goes through, and drops them. -/
def drainingChain : Chain :=
  [⟨.vertices, []⟩, ⟨.has, [.str "label", .str "person"]⟩, ⟨.property, [.str "seen", .bool true]⟩,
    ⟨.drop, []⟩]

theorem items?_ends_drainingChain :
    ∃ plan, Optimizer.default.plan drainingChain = .ok (plan, []) ∧
      ∃ n items e', ∀ budget, n ≤ budget →
        (do (← drainingChain.openStream .default).items? budget : Attempt Memory _).run.run
            ((RecordOp.runAll linkingOps).run (Engine.ofStore Memory.empty)).2 =
          (.ok (some items), e') := by
  obtain ⟨plan, hplan⟩ : ∃ plan, Optimizer.default.plan drainingChain = .ok (plan, []) := ⟨_, rfl⟩
  exact ⟨plan, hplan, Chain.items?_ends {} hplan _⟩

end PropertyGraph
