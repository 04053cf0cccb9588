/-
Two ways to find the vertices of a label: among the listing of all vertices, and by the entries
of the label. A scan under way has some ids left to find (`Finder.Scans`). Each piece of work
takes the first of them or none (`Finder.Scans.advance`), and where vertices go meanwhile, those
that stay are left (`Finder.Scans.drift`). Ids as they are handed out have one length, so both
ways find them in the same order.
-/
import PropertyGraph.Proofs.Walking

namespace PropertyGraph

open PropertyGraph.Graph

/-! ## Texts in order -/

/-- Lists in strict order are the same if they have the same members. -/
theorem eq_of_ascending {l l' : List String} (h : l.Pairwise fun a b => compare a b = .lt)
    (h' : l'.Pairwise fun a b => compare a b = .lt) (hmem : ∀ a, a ∈ l ↔ a ∈ l') : l = l' := by
  have : Std.Irrefl fun a b : String => compare a b = .lt := ⟨fun a ha => by simp at ha⟩
  have : Std.Antisymm fun a b : String => compare a b = .lt :=
    ⟨fun a b hab hba => by simpa using Std.TransCmp.lt_trans hab hba⟩
  exact List.Pairwise.eq_of_mem_iff h h' hmem

/-- What stands around lists of one length does not change their order. -/
theorem around_lt_iff {a b : List Char} (h : a.length = b.length) (before behind : List Char) :
    before ++ (a ++ behind) < before ++ (b ++ behind) ↔ a < b := by
  induction before with
  | cons c before ih => simpa [List.cons_lt_cons_iff] using ih
  | nil =>
    induction a generalizing b with
    | nil =>
      obtain rfl : b = [] := List.length_eq_zero_iff.1 h.symm
      simp
    | cons c a ih =>
      cases b with
      | nil => cases h
      | cons c' b =>
        have := @ih b (by simpa using h)
        simp only [List.nil_append] at this
        simp [List.cons_lt_cons_iff, this]

section Around

variable {key : String → String}
  (hkey : ∃ before behind, ∀ id, (key id).toList = before ++ (id.toList ++ behind))

include hkey

/-- Where the same stands around every id, a key tells the id. -/
theorem injective_of_around : Function.Injective key := by
  obtain ⟨before, behind, hkey⟩ := hkey
  intro id id' h
  have hlist := congrArg String.toList h
  rw [hkey, hkey] at hlist
  exact String.toList_inj.1 (List.append_cancel_right (List.append_cancel_left hlist))

/-- Such keys are in the order of their ids, if these have one length. -/
theorem compare_of_around {id id' : String} (h : id.toList.length = id'.toList.length) :
    compare (key id) (key id') = .lt ↔ compare id id' = .lt := by
  obtain ⟨before, behind, hkey⟩ := hkey
  rw [compare_eq_lt_iff, compare_eq_lt_iff, hkey, hkey]
  exact around_lt_iff h before behind

end Around

/-! ## Finders -/

/-- A way to find vertices: among all that are listed, or by the entries of a label. -/
inductive Finder where
  | all
  | labeled (label : String)

namespace Finder

/-- The step that finds them. -/
def step : Finder → Step
  | .all => .vertices .all
  | .labeled l => .verticesWithLabel l

def task : Finder → Task
  | .all => .select .vertex
  | .labeled l => .selectLabel l

def listing : Finder → Listing
  | .all => .elements .vertex
  | .labeled _ => .labeled

def pattern : Finder → KeyPattern
  | .all => .listing .vertex
  | .labeled l => .labelEntries l

/-- The record that finds a vertex. -/
def record (f : Finder) (id : String) : RecordKey :=
  match f with
  | .all => .plain (.listing .vertex id)
  | .labeled l => .plain (.labelEntry id l)

def key (f : Finder) (id : String) : String := (f.record id).text

/-- The label looked for is a token. -/
def Named : Finder → Prop
  | .all => True
  | .labeled l => Key.isToken l = true

variable {f : Finder} {id : String}

theorem Named.valid (hf : f.Named) (h : Key.isToken id = true) : (f.record id).Valid := by
  cases f with
  | all => exact h
  | labeled l => exact ⟨h, hf⟩

theorem isToken_of_valid (h : (f.record id).Valid) : Key.isToken id = true := by
  cases f with
  | all => exact h
  | labeled l => exact h.1

theorem pattern_accepts (f : Finder) {r : RecordKey} (hr : r.Valid) :
    f.pattern.accepts r.text = true ↔ ∃ id, r = f.record id := by
  cases f with
  | all => exact KeyPattern.listing_accepts hr .vertex
  | labeled l => exact KeyPattern.labelEntries_accepts hr l

theorem Named.accepts_key (hf : f.Named) (h : Key.isToken id = true) :
    f.pattern.accepts (f.key id) = true :=
  (f.pattern_accepts (hf.valid h)).2 ⟨id, rfl⟩

theorem Named.item?_key (hf : f.Named) (h : Key.isToken id = true) :
    f.listing.item? (f.key id) = some (.vertex id) := by
  have htokens : Key.tokens (f.key id) = (f.record id).tokens := (hf.valid h).tokens_text
  cases f with
  | all => simp [listing, Listing.item?, listedId, Key.lastToken, htokens, record, RecordKey.tokens,
      PlainKey.tokens, Traverser.ofElement]
  | labeled l => simp [listing, Listing.item?, labeledId?, Key.token?, htokens, record,
      RecordKey.tokens, PlainKey.tokens]

/-- In a key, the same stands around every id. -/
theorem exists_around (f : Finder) :
    ∃ before behind, ∀ id, (f.key id).toList = before ++ (id.toList ++ behind) := by
  cases f with
  | all =>
    refine ⟨ElementKind.vertex.listing.toList ++ ['.'], [], fun id => ?_⟩
    simp [key, record, RecordKey.text, RecordKey.tokens, PlainKey.tokens, Key.join, Key.joinChars]
  | labeled l =>
    refine ⟨"node.".toList, '.' :: (Key.labelToken.toList ++ '.' :: l.toList), fun id => ?_⟩
    simp [key, record, RecordKey.text, RecordKey.tokens, PlainKey.tokens, Key.join, Key.joinChars]

theorem key_injective {id' : String} (h : f.key id = f.key id') : id = id' :=
  injective_of_around f.exists_around h

/-- Keys are in the order of their ids. -/
theorem compare_key {id' : String} (h : id.toList.length = id'.toList.length) :
    compare (f.key id) (f.key id') = .lt ↔ compare id id' = .lt :=
  compare_of_around f.exists_around h

end Finder

/-! ## The vertices of a label -/

/-- The ids of the vertices of a label. -/
def Multigraph.labeled (g : Multigraph) (l : String) : List String :=
  (g.vertices.filter (·.label == l)).map (·.id)

variable {g : Multigraph} {l id : String}

theorem Multigraph.mem_labeled : id ∈ g.labeled l ↔ ⟨id, l⟩ ∈ g.vertices := by
  simp only [labeled, List.mem_map, List.mem_filter, beq_iff_eq]
  constructor
  · rintro ⟨⟨id', l'⟩, ⟨hv, rfl⟩, rfl⟩
    exact hv
  · intro hv
    exact ⟨_, ⟨hv, rfl⟩, rfl⟩

theorem Multigraph.Sound.isToken_labeled (hg : g.Sound) (h : id ∈ g.labeled l) :
    Key.isToken id = true :=
  (hg.vertices _ (Multigraph.mem_labeled.1 h)).1.1

namespace Finder

/-- A finder for the vertices of a label, and maybe of others. -/
def Meets (f : Finder) (l : String) : Prop := Key.isToken l = true ∧ (f = .all ∨ f = .labeled l)

theorem Meets.named {f : Finder} (h : f.Meets l) : f.Named := by
  obtain ⟨hl, rfl | rfl⟩ := h
  · trivial
  · exact hl

/-- The keys that find the vertices of a label. -/
def keys (f : Finder) (l : String) (g : Multigraph) : List String := (g.labeled l).map f.key

variable {σ : Type} [Backend σ] [LawfulBackend σ] {f : Finder} {e : Engine σ}

/-- In a store that keeps a graph, the key of every vertex of the label is there. -/
theorem mem_keys_of_labeled (hf : f.Meets l) (hg : e.Keeps g) {key : String}
    (h : key ∈ f.keys l g) : key ∈ e.keys := by
  obtain ⟨id, hid, rfl⟩ := List.mem_map.1 h
  obtain ⟨hsound, neighbors, -, hholds⟩ := hg
  refine (hholds.mem_keys_iff (hf.named.valid (hsound.isToken_labeled hid))).2 ?_
  rw [Multigraph.mem_labeled] at hid
  obtain ⟨-, rfl | rfl⟩ := hf
  · have hlisted : id ∈ g.ids .vertex := List.mem_map_of_mem hid
    simp [record, Layout.record, Multigraph.layout, hlisted]
  · simp [record, Layout.record, Multigraph.layout, hid]

/-- The entries of a label are those of its vertices. -/
theorem mem_keys_of_accepts (hg : e.Keeps g) {key : String}
    (h : key ∈ e.keys) (haccepts : (Finder.labeled l).pattern.accepts key = true) :
    key ∈ (Finder.labeled l).keys l g := by
  obtain ⟨-, neighbors, -, hholds⟩ := hg
  obtain ⟨r, hr, rfl⟩ := hholds.only key (Engine.mem_keys_iff.1 h)
  obtain ⟨id, rfl⟩ := ((Finder.labeled l).pattern_accepts hr).1 haccepts
  have hrecord := (hholds.mem_keys_iff hr).1 h
  refine List.mem_map.2 ⟨id, Multigraph.mem_labeled.2 ?_, rfl⟩
  by_contra hnot
  simp [record, Layout.record, Multigraph.layout, hnot] at hrecord

/-- The keys of the vertices that are still there when some went, in a store before and after. -/
theorem filter_keys_eq (hf : f.Meets l) (hg : e.Keeps g) {e' : Engine σ}
    {g' : Multigraph} (hg' : e'.Keeps g') (hsub : ∀ v ∈ g'.vertices, v ∈ g.vertices) :
    e'.keys.filter (· ∈ f.keys l g') = e.keys.filter (· ∈ f.keys l g') := by
  refine eq_of_ascending (e'.pairwise_keys.filter _) (e.pairwise_keys.filter _) fun key => ?_
  have hmem : key ∈ f.keys l g' → key ∈ f.keys l g := by
    intro h
    obtain ⟨id, hid, rfl⟩ := List.mem_map.1 h
    exact List.mem_map_of_mem (Multigraph.mem_labeled.2 (hsub _ (Multigraph.mem_labeled.1 hid)))
  simp only [List.mem_filter, decide_eq_true_eq]
  constructor
  · rintro ⟨-, h⟩
    exact ⟨mem_keys_of_labeled hf hg (hmem h), h⟩
  · rintro ⟨-, h⟩
    exact ⟨mem_keys_of_labeled hf hg' h, h⟩

end Finder

/-! ## Scans under way -/

theorem KeyScan.filter_pending (k : KeyScan) (keys : List String) (p : String → Bool) :
    (k.pending keys).filter p =
      k.page.filter p ++ k.ahead.flatMap fun r => keysIn (keys.filter p) r := by
  simp only [pending, keysIn, List.filter_append, List.filter_flatMap, List.filter_filter,
    Bool.and_comm]

namespace Finder

/-- A scan has these vertices of a label left to find, in a store with these keys. Whatever else
it may still find is a `stray`. -/
structure Scans (f : Finder) (l : String) (stray : Multigraph → String → Prop) (keys : List String)
    (g : Multigraph) (ids : List String) (k : KeyScan) : Prop where
  patterns : k.patterns = [f.pattern]
  distinct : k.distinct = false
  sound : k.Sound
  stems : ∀ r ∈ k.ahead, r.1 = f.pattern.stem
  page : ∀ key ∈ k.page, ∃ r : RecordKey, r.Valid ∧ key = r.text
  found : ∀ id ∈ ids, id ∈ g.labeled l
  left : (k.pending keys).filter (· ∈ f.keys l g) = ids.map f.key
  only : ∀ key ∈ k.pending keys, f.pattern.accepts key = true →
    ∃ id, key = f.key id ∧ (id ∈ g.labeled l ∨ stray g id)

/-- What a piece of work of a scan comes to: from some ids to others. -/
inductive Turns (f : Finder) (l : String) (stray : Multigraph → String → Prop) (g : Multigraph) :
    List String → ScanEvent → List String → Prop
  | skip (ids : List String) : Turns f l stray g ids .skip ids
  | found {id : String} (ids : List String) (h : id ∈ g.labeled l) :
    Turns f l stray g (id :: ids) (.key (f.key id)) ids
  | stray {id : String} (ids : List String) (hid : Key.isToken id = true) (hnot : id ∉ g.labeled l)
    (h : stray g id) : Turns f l stray g ids (.key (f.key id)) ids
  | done : Turns f l stray g [] .done []

variable {σ : Type} [Backend σ] [LawfulBackend σ] {f : Finder} {stray : Multigraph → String → Prop} {e : Engine σ}
  {ids : List String} {k : KeyScan}

/-- The keys a scan has left to look at are keys of records. -/
theorem Scans.exists_record (h : f.Scans l stray e.keys g ids k) (hg : e.Keeps g) {key : String}
    (hkey : key ∈ k.pending e.keys) : ∃ r : RecordKey, r.Valid ∧ key = r.text := by
  rcases List.mem_append.1 hkey with hkey | hkey
  · exact h.page key hkey
  · obtain ⟨r, -, hkey⟩ := List.mem_flatMap.1 hkey
    obtain ⟨-, neighbors, -, hholds⟩ := hg
    exact hholds.only key (Engine.mem_keys_iff.1 (List.mem_filter.1 hkey).1)

/-- A piece of work on a scan that keeps its patterns and ranges, and looks at no key. -/
theorem Scans.of_pending (h : f.Scans l stray e.keys g ids k) {k' : KeyScan} (ids' : List String)
    (hg : e.Keeps g) (patterns : k'.patterns = k.patterns) (distinct : k'.distinct = k.distinct)
    (sound : k'.Sound) (stems : ∀ r ∈ k'.ahead, r.1 = f.pattern.stem)
    (found : ∀ id ∈ ids', id ∈ g.labeled l)
    (sub : ∀ key ∈ k'.pending e.keys, key ∈ k.pending e.keys)
    (left : (k'.pending e.keys).filter (· ∈ f.keys l g) = ids'.map f.key) :
    f.Scans l stray e.keys g ids' k' where
  patterns := patterns.trans h.patterns
  distinct := distinct.trans h.distinct
  sound := sound
  stems := stems
  page key hkey := h.exists_record hg (sub key (List.mem_append_left _ hkey))
  found := found
  left := left
  only key hkey := h.only key (sub key hkey)

/-- A piece of work on a scan leaves the ids it should. -/
theorem Scans.advance (h : f.Scans l stray e.keys g ids k) (hf : f.Meets l) (hg : e.Keeps g) :
    ∃ ids', f.Turns l stray g ids (k.advance e.fetch).1 ids' ∧
      f.Scans l stray e.keys g ids' (k.advance e.fetch).2 := by
  have hadv := KeyScan.advance_advances e.serves_fetch h.sound
  generalize (k.advance e.fetch).1 = event at hadv ⊢
  generalize (k.advance e.fetch).2 = k' at hadv ⊢
  have hpending := hadv.pending e.pairwise_keys h.sound
  have hsound := hadv.sound e.pairwise_keys h.sound
  have hpatterns := hadv.keeps h.distinct
  have hstems : ∀ r ∈ k'.ahead, r.1 = f.pattern.stem := by
    cases hadv with
    | key key rest hpage hwants =>
      rw [KeyScan.ahead_remember]
      exact h.stems
    | pass | done => exact h.stems
    | fetch r stems hpage hahead =>
      intro x hx
      rw [KeyScan.ahead_turn, List.mem_append] at hx
      rcases hx with hx | hx
      · simp only [KeyScan.following] at hx
        split at hx
        · obtain ⟨last, -, rfl⟩ := List.mem_map.1 hx
          exact h.stems r (by simp [hahead])
        · cases hx
      · exact h.stems x (by simp [hahead, hx])
  have hnext := fun ids' => h.of_pending ids' hg hpatterns.1 hpatterns.2 hsound hstems
  cases event with
  | skip =>
    refine ⟨ids, .skip ids, hnext ids h.found ?_ ?_⟩
    · intro key hkey
      rcases hpending with hpending | ⟨_, -, hpending⟩
      · rwa [hpending]
      · rw [hpending]
        exact List.mem_cons_of_mem _ hkey
    · rw [← h.left]
      rcases hpending with hpending | ⟨key, hwants, hpending⟩
      · rw [hpending]
      · -- a key that is not wanted is the key of no vertex
        rw [hpending, List.filter_cons_of_neg]
        intro hkey
        obtain ⟨id, hid, rfl⟩ := List.mem_map.1 (of_decide_eq_true hkey)
        have haccepts := hf.named.accepts_key (hg.sound.isToken_labeled hid)
        simp [KeyScan.wants, h.patterns, h.distinct, haccepts] at hwants
  | key key =>
    obtain ⟨hwants, hpending⟩ := hpending
    have hmem : key ∈ k.pending e.keys := by simp [hpending]
    obtain ⟨r, hr, rfl⟩ := h.exists_record hg hmem
    have haccepts : f.pattern.accepts r.text = true := by
      simpa [KeyScan.wants, h.patterns, h.distinct] using hwants
    obtain ⟨id, rfl⟩ := (f.pattern_accepts hr).1 haccepts
    have hid := isToken_of_valid hr
    have hsub : ∀ key ∈ k'.pending e.keys, key ∈ k.pending e.keys := by
      intro key hkey
      rw [hpending]
      exact List.mem_cons_of_mem _ hkey
    have hleft := h.left
    rw [hpending, List.filter_cons] at hleft
    by_cases hlabeled : id ∈ g.labeled l
    · have hkey : (f.record id).text ∈ f.keys l g := List.mem_map.2 ⟨id, hlabeled, rfl⟩
      rw [if_pos (by simpa using hkey)] at hleft
      cases ids with
      | nil => cases hleft
      | cons id' rest =>
        obtain ⟨hkey, hrest⟩ := List.cons.inj hleft
        obtain rfl := key_injective hkey
        exact ⟨rest, .found rest hlabeled,
          hnext rest (fun i hi => h.found i (List.mem_cons_of_mem _ hi)) hsub hrest⟩
    · have hnot : (f.record id).text ∉ f.keys l g := by
        intro hkey
        obtain ⟨id', hid', hkey⟩ := List.mem_map.1 hkey
        exact hlabeled (key_injective hkey ▸ hid')
      rw [if_neg (by simpa using hnot)] at hleft
      refine ⟨ids, .stray ids hid hlabeled ?_, hnext ids h.found hsub hleft⟩
      obtain ⟨id', hkey, hid'⟩ := h.only _ hmem haccepts
      obtain rfl := key_injective hkey
      exact hid'.resolve_left hlabeled
  | done =>
    have hleft := h.left
    rw [hpending.1] at hleft
    obtain rfl : ids = [] := by simpa using hleft.symm
    refine ⟨[], .done, hnext [] (by simp) ?_ ?_⟩
    · simp [hpending.2]
    · simp [hpending.2]
  | failed err => exact hpending.elim

/-- Of a store, a scan finds the vertices of the label and no strays, or any. -/
theorem only_of_mem_keys (hstray : f = .labeled l ∨ ∀ g id, stray g id) (hg : e.Keeps g)
    {key : String} (hkey : key ∈ e.keys) (haccepts : f.pattern.accepts key = true) :
    ∃ id, key = f.key id ∧ (id ∈ g.labeled l ∨ stray g id) := by
  rcases hstray with rfl | hstray
  · obtain ⟨id, hid, rfl⟩ := List.mem_map.1 (mem_keys_of_accepts hg hkey haccepts)
    exact ⟨id, rfl, .inl hid⟩
  · obtain ⟨-, _, -, hholds⟩ := hg
    obtain ⟨r, hr, rfl⟩ := hholds.only key (Engine.mem_keys_iff.1 hkey)
    obtain ⟨id, rfl⟩ := (f.pattern_accepts hr).1 haccepts
    exact ⟨id, rfl, .inr (hstray g id)⟩

/-- When some vertices went, those that are still there are left. -/
theorem Scans.drift (h : f.Scans l stray e.keys g ids k) (hf : f.Meets l)
    (hstray : f = .labeled l ∨ ∀ g id, stray g id) (hg : e.Keeps g) {e' : Engine σ}
    {g' : Multigraph} (hg' : e'.Keeps g') (hsub : ∀ v ∈ g'.vertices, v ∈ g.vertices)
    (hstay : ∀ id, id ∈ ids ∨ stray g id → id ∈ g'.labeled l ∨ stray g' id) :
    f.Scans l stray e'.keys g' (ids.filter (· ∈ g'.labeled l)) k where
  patterns := h.patterns
  distinct := h.distinct
  sound := h.sound
  stems := h.stems
  page := h.page
  found id hid := by simpa using (List.mem_filter.1 hid).2
  left := by
    have hmem : ∀ key, key ∈ f.keys l g' → key ∈ f.keys l g := by
      intro key hkey
      obtain ⟨id, hid, rfl⟩ := List.mem_map.1 hkey
      exact List.mem_map_of_mem (Multigraph.mem_labeled.2 (hsub _ (Multigraph.mem_labeled.1 hid)))
    have hpending : (k.pending e'.keys).filter (· ∈ f.keys l g') =
        ((k.pending e.keys).filter (· ∈ f.keys l g)).filter (· ∈ f.keys l g') := by
      rw [KeyScan.filter_pending, filter_keys_eq hf hg hg' hsub, ← KeyScan.filter_pending,
        List.filter_filter]
      refine List.filter_congr fun key _ => ?_
      by_cases hkey : key ∈ f.keys l g'
      · simp [hkey, hmem key hkey]
      · simp [hkey]
    rw [hpending, h.left, List.filter_map]
    refine congrArg (List.map f.key) (List.filter_congr fun id hid => ?_)
    have hiff : f.key id ∈ f.keys l g' ↔ id ∈ g'.labeled l := by
      constructor
      · intro hkey
        obtain ⟨id', hid', hkey⟩ := List.mem_map.1 hkey
        rwa [← key_injective hkey]
      · exact fun hid => List.mem_map.2 ⟨id, hid, rfl⟩
    simp only [Function.comp_apply, hiff]
  only key hkey haccepts := by
    rcases List.mem_append.1 hkey with hkey | hkey
    · -- a key of the page at hand is the key of one of the vertices left, or of a stray
      have hpending : key ∈ k.pending e.keys := List.mem_append_left _ hkey
      obtain ⟨id, rfl, hid⟩ := h.only key hpending haccepts
      refine ⟨id, rfl, hstay id ?_⟩
      rcases hid with hid | hid
      · have hleft : f.key id ∈ (k.pending e.keys).filter (· ∈ f.keys l g) :=
          List.mem_filter.2 ⟨hpending, decide_eq_true (List.mem_map.2 ⟨id, hid, rfl⟩)⟩
        rw [h.left] at hleft
        obtain ⟨id', hid', hkey⟩ := List.mem_map.1 hleft
        left
        rwa [← key_injective hkey]
      · exact .inr hid
    · obtain ⟨r, -, hkey⟩ := List.mem_flatMap.1 hkey
      exact only_of_mem_keys hstray hg' (List.mem_filter.1 hkey).1 haccepts

/-- All vertices of a label, in the order of their ids. -/
structure Lists (l : String) (g : Multigraph) (ids : List String) : Prop where
  mem : ∀ id, id ∈ ids ↔ id ∈ g.labeled l
  ascending : ids.Pairwise fun a b => compare a b = .lt
  length : ∀ id ∈ ids, id.toList.length = 32

omit [LawfulBackend σ] in
theorem isEverything_pattern (f : Finder) : f.pattern.isEverything = false := by cases f <;> rfl

theorem isExact_pattern (f : Finder) : f.pattern.isExact = false := by cases f <;> rfl

/-- A fresh scan has all vertices of the label left to find. -/
theorem scans_start (hf : f.Meets l) (hstray : f = .labeled l ∨ ∀ g id, stray g id) (hg : e.Keeps g)
    (hids : Lists l g ids) : f.Scans l stray e.keys g ids (.start [f.pattern]) := by
  have hps : ∀ p ∈ [f.pattern], p.isEverything = false ∧ p.isExact = false := by
    simpa using ⟨f.isEverything_pattern, f.isExact_pattern⟩
  have hpending : (KeyScan.start [f.pattern]).pending e.keys =
      e.keys.filter (Key.startsWith · f.pattern.stem) := by
    rw [KeyScan.pending_start (by simp) fun p hp => (hps p hp).1]
    simp
  refine ⟨rfl, by simp [KeyScan.start, KeyScan.ranges, f.isEverything_pattern],
    KeyScan.sound_start (by simp) hps, ?_, by simp [KeyScan.start], fun id => (hids.mem id).1, ?_, ?_⟩
  · simp [KeyScan.ahead, KeyScan.start, KeyScan.ranges, f.isEverything_pattern]
  · rw [hpending]
    refine eq_of_ascending ((e.pairwise_keys.filter _).filter _) ?_ fun key => ?_
    · rw [List.pairwise_map]
      refine hids.ascending.imp_of_mem fun {a b} ha hb hlt => ?_
      exact (compare_key ((hids.length a ha).trans (hids.length b hb).symm)).2 hlt
    · simp only [List.mem_filter, decide_eq_true_eq]
      constructor
      · rintro ⟨-, hkey⟩
        obtain ⟨id, hid, rfl⟩ := List.mem_map.1 hkey
        exact List.mem_map_of_mem ((hids.mem id).2 hid)
      · intro hkey
        obtain ⟨id, hid, rfl⟩ := List.mem_map.1 hkey
        have hlabeled := (hids.mem id).1 hid
        have hthere : f.key id ∈ f.keys l g := List.mem_map_of_mem hlabeled
        have haccepts := hf.named.accepts_key (hg.sound.isToken_labeled hlabeled)
        exact ⟨⟨mem_keys_of_labeled hf hg hthere, KeyPattern.startsWith_stem haccepts⟩, hthere⟩
  · intro key hkey haccepts
    rw [hpending] at hkey
    exact only_of_mem_keys hstray hg (List.mem_filter.1 hkey).1 haccepts

/-- A key that begins as the listing of vertices does lists a vertex. -/
theorem exists_listing {key : String} (h : Key.startsWith key Finder.all.pattern.stem = true)
    {r : RecordKey} (hr : r.Valid) (hkey : key = r.text) : ∃ id, r = .plain (.listing .vertex id) := by
  obtain ⟨rest, hrest⟩ := Key.startsWith_iff.1 h
  have hstem : Finder.all.pattern.stem.toList = ElementKind.vertex.listing.toList ++ '.' :: [] := by
    decide
  have htokens : ∃ others, r.tokens = ElementKind.vertex.listing :: others := by
    rw [hstem, List.append_assoc, List.cons_append, List.nil_append] at hrest
    rw [← hr.tokens_text, ← hkey, Key.tokens, hrest,
      Key.cut_append_dot (Key.dot_not_mem_listing .vertex)]
    simp
  obtain ⟨others, htokens⟩ := htokens
  cases r with
  | plain key =>
    cases key <;> simp_all [RecordKey.tokens, PlainKey.tokens]
  | marker s a t => simp [RecordKey.tokens, Scope.tokens, Key.family] at htokens
  | index s a => simp [RecordKey.tokens, Scope.tokens, Key.family] at htokens

/-- The listing of vertices gets no longer when vertices go, so neither does the work of a scan
of it. -/
theorem Scans.work_le (h : Finder.all.Scans l stray e.keys g ids k) (hg : e.Keeps g)
    {e' : Engine σ} {g' : Multigraph} (hg' : e'.Keeps g')
    (hsub : ∀ v ∈ g'.vertices, v ∈ g.vertices) : k.work e'.keys ≤ k.work e.keys := by
  have hlisted : ∀ key ∈ e'.keys, Key.startsWith key Finder.all.pattern.stem = true →
      key ∈ e.keys := by
    intro key hkey hstem
    obtain ⟨-, _, -, hholds⟩ := hg
    obtain ⟨-, _, -, hholds'⟩ := hg'
    obtain ⟨r, hr, rfl⟩ := hholds'.only key (Engine.mem_keys_iff.1 hkey)
    obtain ⟨id, rfl⟩ := exists_listing hstem hr rfl
    have hthere := (hholds'.mem_keys_iff hr).1 hkey
    have hid : id ∈ g'.ids .vertex := by
      by_contra hnot
      simp [Layout.record, Multigraph.layout, hnot] at hthere
    obtain ⟨v, hv, rfl⟩ := List.mem_map.1 hid
    refine (hholds.mem_keys_iff hr).2 ?_
    have hid : v.id ∈ g.ids .vertex := List.mem_map_of_mem (hsub v hv)
    simp [Layout.record, Multigraph.layout, hid]
  have hrange : ∀ r ∈ k.ahead, KeyScan.rangeWork e'.keys r ≤ KeyScan.rangeWork e.keys r := by
    intro r hr
    have hsubset : KeyScan.keysIn e'.keys r ⊆ KeyScan.keysIn e.keys r := by
      intro key hkey
      obtain ⟨hkey, hin⟩ := List.mem_filter.1 hkey
      refine List.mem_filter.2 ⟨hlisted key hkey ?_, hin⟩
      rw [← h.stems r hr]
      exact (Bool.and_eq_true_iff.1 hin).1
    have hnodup : (KeyScan.keysIn e'.keys r).Nodup :=
      (e'.pairwise_keys.filter _).imp fun hlt heq => by simp [heq] at hlt
    have hlength := (List.subperm_of_subset hnodup hsubset).length_le
    unfold KeyScan.rangeWork
    omega
  exact Nat.add_le_add_left (List.sum_le_sum hrange) _

end Finder

end PropertyGraph
