/-
The properties of an element as one map. A scan of its records, reads of single keys and a filter
take three ways to them, and all tell what the graph has. Whatever is asked for, the fields that are
read tabulate the map, or some value of it nests deeper than a text may and the reading fails
(`Engine.Keeps.readProperties_tells`), as one value or a row for each of them
(`Engine.Keeps.yields_told`). Where all values read back, a filter lets an element pass where the map
has an equal value (`Engine.Keeps.yields_has`), and a property that is set is the only thing that
changes (`Engine.Keeps.setProperty_apart`).
-/
import PropertyGraph.Proofs.FromElement
import PropertyGraph.Proofs.JsonText
import PropertyGraph.Proofs.KeyFamilies

namespace PropertyGraph

open PropertyGraph.Graph

namespace Json

/-- What is read back of a value that was written. -/
def readBack (j : Json) : Except Error Json :=
  if j.depth ≤ maxDepth then .ok j else .error .serialization

theorem readJson_text {entry : Entry} {j : Json} (hj : j.readable = true)
    (hentry : entry.value = .text j.text) : readJson entry = j.readBack := by
  rw [readJson, hentry, Blob.json?, parse?_text_eq hj, readBack]
  by_cases hdepth : j.depth ≤ maxDepth <;> simp only [hdepth, if_true, if_false]

/-- The fields of some names as they are read back, or the first failure. -/
def gather (find : String → Option Json) (names : List String) :
    Except Error (List (String × Json)) :=
  names.foldlM (fun found name => (find name).elim (.ok found) fun value =>
    value.readBack.map (insertField name · found)) []

/-- Everything that is found nests at most as deep as a text may, or the reading fails. -/
theorem gather_eq (find : String → Option Json) (names : List String) :
    (∀ name ∈ names, ∀ value ∈ find name, value.depth ≤ maxDepth) ∧
        gather find names = .ok (collect find names) ∨
      (∃ name ∈ names, ∃ value ∈ find name, maxDepth < value.depth) ∧
        gather find names = .error .serialization := by
  rw [gather, collect]
  generalize ([] : List (String × Json)) = found
  induction names generalizing found with
  | nil => exact .inl ⟨by simp, rfl⟩
  | cons name names ih =>
    rw [List.foldlM_cons, List.foldl_cons]
    cases hfind : find name with
    | none => simpa [hfind, bind, Except.bind] using ih found
    | some value =>
      by_cases hdepth : value.depth ≤ maxDepth
      · have hread : value.readBack = .ok value := if_pos hdepth
        have hnot : ¬maxDepth < value.depth := Nat.not_lt.2 hdepth
        simpa [hfind, hread, hdepth, hnot, Except.map, bind, Except.bind] using
          ih (insertField name value found)
      · have hread : value.readBack = .error .serialization := if_neg hdepth
        refine .inr ⟨⟨name, by simp, value, hfind, Nat.lt_of_not_le hdepth⟩, ?_⟩
        rw [Option.elim_some, hread]
        rfl

end Json

namespace Multigraph

/-- Every property of an element is a value that is spelled by its text, however deep it nests. -/
def ReadableAt (g : Multigraph) (kind : ElementKind) (id : String) : Prop :=
  ∀ key value, g.property kind id key = some value → value.readable = true

/-- So are the properties of all elements. -/
def Readable (g : Multigraph) : Prop := ∀ kind id, g.ReadableAt kind id

/-- Every property reads back from its text. -/
def Storable (g : Multigraph) : Prop :=
  ∀ kind id key value, g.property kind id key = some value → value.Storable

theorem Storable.readable {g : Multigraph} (h : g.Storable) : g.Readable :=
  fun kind id key value hvalue => (h kind id key value hvalue).1

/-- What is found of an element under a name, where `id` and `label` count as properties. -/
def named? (g : Multigraph) (kind : ElementKind) (id key : String) : Option Json :=
  if key = Key.idToken then some (.str id)
  else if key = Key.labelToken then (g.label? kind id).map .str
  else g.property kind id key

/-- The map a reader asks for: what is found under the names it gives, or all properties if it
gives none. -/
def asked (g : Multigraph) (kind : ElementKind) (id : String) (names : List String) (key : String) :
    Option Json :=
  if names = [] then g.property kind id key
  else if key ∈ names then g.named? kind id key else none

/-- What is told of the properties that are asked for: all of them, or a failure if one of them
nests deeper than a text may. -/
def Tells (g : Multigraph) (kind : ElementKind) (id : String) (names : List String) :
    Except Error (List (String × Json)) → Prop
  | .ok fields => (∀ key value, g.asked kind id names key = some value →
      value.depth ≤ Json.maxDepth) ∧ Json.Tabulates fields (g.asked kind id names)
  | .error err => err = .serialization ∧
      ∃ key value, g.asked kind id names key = some value ∧ Json.maxDepth < value.depth

/-- What is gathered under all names that something is found under is what is told. -/
theorem tells_gather {g : Multigraph} {kind : ElementKind} {id : String} {names found : List String}
    {find : String → Option Json}
    (hfind : ∀ key, g.asked kind id names key = if key ∈ found then find key else none) :
    g.Tells kind id names (Json.gather find found) := by
  rcases Json.gather_eq find found with ⟨hall, heq⟩ | ⟨⟨key, hkey, value, hvalue, hdepth⟩, heq⟩
  · rw [heq]
    refine ⟨fun key value hasked => ?_, (Json.tabulates_collect _ _).congr fun key => (hfind key).symm⟩
    rw [hfind] at hasked
    split at hasked
    · rename_i hkey
      exact hall key hkey value hasked
    · cases hasked
  · rw [heq]
    refine ⟨rfl, key, value, ?_, hdepth⟩
    rw [hfind, if_pos hkey]
    exact hvalue

/-- Only one outcome is told. -/
theorem Tells.unique {g : Multigraph} {kind : ElementKind} {id : String} {names : List String}
    {outcome outcome' : Except Error (List (String × Json))} (h : g.Tells kind id names outcome)
    (h' : g.Tells kind id names outcome') : outcome = outcome' := by
  rcases outcome with err | fields <;> rcases outcome' with err' | fields'
  · rw [h.1, h'.1]
  · obtain ⟨-, key, value, hasked, hdepth⟩ := h
    exact absurd (h'.1 key value hasked) (Nat.not_le.2 hdepth)
  · obtain ⟨-, key, value, hasked, hdepth⟩ := h'
    exact absurd (h.1 key value hasked) (Nat.not_le.2 hdepth)
  · rw [h.2.unique h'.2]

theorem asked_distinct (g : Multigraph) (kind : ElementKind) (id : String) (names : List String) :
    g.asked kind id (Arguments.distinct names) = g.asked kind id names := by
  have hnil : Arguments.distinct names = [] ↔ names = [] := by
    simp only [List.eq_nil_iff_forall_not_mem, Arguments.mem_distinct]
  funext key
  simp only [asked, hnil, Arguments.mem_distinct]

theorem tells_distinct (g : Multigraph) (kind : ElementKind) (id : String) (names : List String) :
    g.Tells kind id (Arguments.distinct names) = g.Tells kind id names := by
  funext outcome
  cases outcome <;> simp only [Tells, asked_distinct]

end Multigraph

section Reading

variable {σ : Type} [Backend σ] [LawfulBackend σ] {e : Engine σ} {g : Multigraph} {kind : ElementKind}
  {id key : String}

/-! ## Reading -/

/-- A property is read back. -/
theorem Engine.Keeps.getProperty_readBack (h : e.Keeps g) (hg : g.ReadableAt kind id)
    (hid : Key.isToken id = true) (hkey : Key.isToken key = true) :
    (getProperty kind id key).run.run e =
      ((g.property kind id key).elim (.ok none) (·.readBack.map some), e) := by
  obtain ⟨entry, hget, hstored⟩ := h.get_property_run kind hid hkey
  rw [getProperty, Attempt.bind_ok hget]
  cases hproperty : g.property kind id key with
  | none =>
    rw [hproperty] at hstored
    rw [Option.map_eq_none_iff.1 hstored]
    rfl
  | some value =>
    rw [hproperty] at hstored
    obtain ⟨entry, rfl, htext⟩ := Option.map_eq_some_iff.1 hstored
    dsimp only
    rw [Json.readJson_text (hg _ _ hproperty) htext, Option.elim_some]
    cases value.readBack <;> rfl

/-- A property that reads back is read. -/
theorem Engine.Keeps.readProperty_run (h : e.Keeps g) (hg : g.Storable) (hid : Key.isToken id = true)
    (hkey : Key.isToken key = true) :
    (getProperty kind id key).run.run e = (.ok (g.property kind id key), e) := by
  rw [h.getProperty_readBack (hg.readable kind id) hid hkey]
  cases hproperty : g.property kind id key with
  | none => rfl
  | some value =>
    rw [Option.elim_some, Json.readBack, if_pos (hg _ _ _ _ hproperty).2]
    rfl

variable (kind) in
theorem Engine.Keeps.readNamed_run (h : e.Keeps g) (hg : g.ReadableAt kind id)
    (hid : Key.isToken id = true) (hkey : Key.isToken key = true) :
    (readNamed kind id key).run.run e =
      ((g.named? kind id key).elim (.ok none) (·.readBack.map some), e) := by
  have hstring : ∀ s, (Json.str s).readBack = .ok (.str s) := fun s => if_pos (Nat.zero_le _)
  simp only [readNamed, Multigraph.named?, beq_iff_eq]
  split
  · rw [Option.elim_some, hstring]
    rfl
  split
  · refine (Attempt.bind_ok (h.getLabel_run hid) _).trans ?_
    cases g.label? kind id with
    | none => rfl
    | some label =>
      rw [Option.map_some, Option.elim_some, hstring]
      rfl
  · exact h.getProperty_readBack hg hid hkey

theorem Engine.Keeps.selectedProperties_run (h : e.Keeps g) (hg : g.ReadableAt kind id)
    (hid : Key.isToken id = true) {names : List String} (hnames : ∀ n ∈ names, Key.isToken n = true) :
    (selectedProperties kind id names).run.run e = (Json.gather (g.named? kind id) names, e) := by
  rw [selectedProperties, Json.gather]
  generalize ([] : List (String × Json)) = found
  induction names generalizing found with
  | nil => rfl
  | cons name names ih =>
    rw [List.foldlM_cons, List.foldlM_cons]
    have hread := h.readNamed_run kind hg hid (hnames name List.mem_cons_self)
    have hlater := ih fun n hn => hnames n (List.mem_cons_of_mem _ hn)
    cases hnamed : g.named? kind id name with
    | none =>
      rw [hnamed] at hread
      exact (Attempt.bind_ok (Attempt.bind_ok hread _) _).trans (hlater _)
    | some value =>
      rw [hnamed, Option.elim_some] at hread
      rw [Option.elim_some]
      cases hback : value.readBack with
      | error err =>
        rw [hback] at hread
        exact Attempt.bind_error (Attempt.bind_error hread _) _
      | ok value =>
        rw [hback] at hread
        exact (Attempt.bind_ok (Attempt.bind_ok hread _) _).trans (hlater _)

/-- The records of the properties of an element, in the order of their keys. -/
theorem Engine.Keeps.exists_propertyKeys (h : e.Keeps g) (kind : ElementKind) (id : String) :
    ∃ names : List String,
      e.keys.filter (KeyPattern.properties kind id).accepts = names.map (Key.property kind id) ∧
        ∀ key, key ∈ names ↔ g.property kind id key ≠ none := by
  obtain ⟨hsound, neighbors, -, hholds⟩ := h
  obtain ⟨rs, hkeys, hfound⟩ := hholds.exists_found (KeyPattern.properties kind id)
  obtain ⟨names, rfl⟩ : rs ∈ Set.range (List.map fun key => RecordKey.plain (.property kind id key)) := by
    rw [Set.range_list_map]
    intro r hr
    obtain ⟨hvalid, -, haccepts⟩ := (hfound r).1 hr
    obtain ⟨key, rfl⟩ := (KeyPattern.properties_accepts hvalid kind id).1 haccepts
    exact ⟨key, rfl⟩
  rw [List.map_map] at hkeys
  refine ⟨names, hkeys, fun key => ?_⟩
  have hrecord : (g.layout neighbors).record (.plain (.property kind id key)) ≠ none ↔
      g.property kind id key ≠ none := by
    simp [Layout.record, Multigraph.layout]
  have hmem : key ∈ names ↔ RecordKey.plain (.property kind id key) ∈
      names.map fun key => RecordKey.plain (.property kind id key) := by
    simp
  rw [hmem, hfound, hrecord]
  refine ⟨fun hmem => hmem.2.1, fun hthere => ?_⟩
  have hvalid : (RecordKey.plain (.property kind id key)).Valid := hsound.properties kind id key hthere
  exact ⟨hvalid, hthere, (KeyPattern.properties_accepts hvalid kind id).2 ⟨key, rfl⟩⟩

variable (kind) in
/-- All properties of an element, as they are read back in the order of their keys. -/
theorem Engine.Keeps.properties_gather (h : e.Keeps g) (hg : g.ReadableAt kind id)
    (hid : Key.isToken id = true) :
    ∃ names, (∀ key, key ∈ names ↔ g.property kind id key ≠ none) ∧
      (properties kind id).run.run e = (Json.gather (g.property kind id) names, e) := by
  obtain ⟨names, hkeys, hnames⟩ := h.exists_propertyKeys kind id
  have hvalid : ∀ name ∈ names, (RecordKey.plain (.property kind id name)).Valid := fun name hname =>
    h.sound.properties kind id name ((hnames name).1 hname)
  have hlast : ∀ name ∈ names, Key.lastToken (Key.property kind id name) = name := fun name hname =>
    RecordKey.Valid.lastToken_key (r := .plain (.property kind id name)) (hvalid name hname)
  have hreadAll : KeyPattern.parseAll [Key.propertyPattern kind id] =
      .ok [KeyPattern.properties kind id] :=
    KeyPattern.parseAll_singleton (KeyPattern.parse_properties hid)
  have hps : ∀ p ∈ [KeyPattern.properties kind id], p.isEverything = false ∧ p.isExact = false := by
    simpa using ⟨rfl, rfl⟩
  have hbrings : (KeyScan.start [KeyPattern.properties kind id]).brings
      ((KeyScan.start [KeyPattern.properties kind id]).pending e.keys) =
        names.map (Key.property kind id) :=
    (KeyScan.brings_single rfl e.keys).trans hkeys
  refine ⟨names, hnames, ?_⟩
  refine (foldKeys_run (g := fun found key => (g.property kind id (Key.lastToken key)).elim (.ok found)
    fun value => value.readBack.map (Json.insertField (Key.lastToken key) · found))
    hreadAll (by simp) hps ?_ []).trans ?_
  · rw [hbrings]
    intro key hkey found
    obtain ⟨name, hname, rfl⟩ := List.mem_map.1 hkey
    obtain ⟨value, hvalue⟩ := Option.ne_none_iff_exists'.1 ((hnames name).1 hname)
    obtain ⟨entry, hget, hstored⟩ := h.get_property_run kind hid (hvalid name hname).2
    rw [hvalue] at hstored
    obtain ⟨entry, rfl, htext⟩ := Option.map_eq_some_iff.1 hstored
    refine (Attempt.ofExcept_ok_bind rfl _ e).trans ((Attempt.bind_ok hget _).trans ?_)
    dsimp only
    rw [hlast name hname, hvalue, Json.readJson_text (hg _ _ hvalue) htext, Option.elim_some]
    cases value.readBack <;> rfl
  · have hback : (names.map (Key.property kind id)).map Key.lastToken = names := by
      rw [List.map_map]
      refine (List.map_congr_left fun name hname => ?_).trans (List.map_id names)
      rw [Function.comp_apply, hlast name hname, id_eq]
    rw [hbrings]
    generalize names.map (Key.property kind id) = keys at hback
    subst hback
    rw [Json.gather, List.foldlM_map]

variable (kind) in
/-- Whatever is asked for, what is read is told. -/
theorem Engine.Keeps.readProperties_tells (h : e.Keeps g) (hg : g.ReadableAt kind id)
    (hid : Key.isToken id = true) {names : List String} (hnames : ∀ n ∈ names, Key.isToken n = true) :
    ∃ outcome, (readProperties kind id names).run.run e = (outcome, e) ∧
      g.Tells kind id names outcome := by
  cases names with
  | nil =>
    obtain ⟨found, hfound, hread⟩ := h.properties_gather kind hg hid
    refine ⟨_, hread, Multigraph.tells_gather fun key => ?_⟩
    rw [Multigraph.asked, if_pos rfl]
    by_cases hkey : key ∈ found
    · rw [if_pos hkey]
    · rw [if_neg hkey]
      exact not_not.1 (mt (hfound key).2 hkey)
  | cons name names =>
    refine ⟨_, h.selectedProperties_run hg hid hnames, Multigraph.tells_gather fun key => ?_⟩
    rw [Multigraph.asked, if_neg (List.cons_ne_nil _ _)]

variable (kind) in
theorem Engine.Keeps.readProperties_told (h : e.Keeps g) (hg : g.ReadableAt kind id)
    (hid : Key.isToken id = true) {names : List String} (hnames : ∀ n ∈ names, Key.isToken n = true)
    {outcome : Except Error (List (String × Json))} (htells : g.Tells kind id names outcome) :
    (readProperties kind id names).run.run e = (outcome, e) := by
  obtain ⟨outcome', hread, htells'⟩ := h.readProperties_tells kind hg hid hnames
  rwa [htells.unique htells']

/-- Where all properties read back, no reading fails. -/
theorem Multigraph.Storable.exists_fields (hg : g.Storable) {names : List String}
    {outcome : Except Error (List (String × Json))} (h : g.Tells kind id names outcome) :
    ∃ fields, outcome = .ok fields ∧ Json.Tabulates fields (g.asked kind id names) := by
  cases outcome with
  | ok fields => exact ⟨fields, rfl, h.2⟩
  | error err =>
    obtain ⟨-, key, value, hasked, hdepth⟩ := h
    refine absurd hdepth (Nat.not_lt.2 ?_)
    have hstored : ∀ {value}, g.property kind id key = some value → value.depth ≤ Json.maxDepth :=
      fun hvalue => (hg _ _ _ _ hvalue).2
    simp only [Multigraph.asked, Multigraph.named?] at hasked
    split at hasked
    · exact hstored hasked
    split at hasked
    · split at hasked
      · cases hasked
        exact Nat.zero_le _
      split at hasked
      · obtain ⟨label, -, rfl⟩ := Option.map_eq_some_iff.1 hasked
        exact Nat.zero_le _
      · exact hstored hasked
    · cases hasked

variable (kind) in
/-- The fields that are read tabulate the map that was asked for. -/
theorem Engine.Keeps.readProperties_run (h : e.Keeps g) (hg : g.Storable) (hid : Key.isToken id = true)
    {names : List String} (hnames : ∀ n ∈ names, Key.isToken n = true) :
    ∃ fields, (readProperties kind id names).run.run e = (.ok fields, e) ∧
      Json.Tabulates fields (g.asked kind id names) := by
  obtain ⟨outcome, hread, htells⟩ := h.readProperties_tells kind (hg.readable kind id) hid hnames
  obtain ⟨fields, rfl, hfields⟩ := hg.exists_fields htells
  exact ⟨fields, hread, hfields⟩

variable (kind) in
/-- All properties of an element. -/
theorem Engine.Keeps.properties_run (h : e.Keeps g) (hg : g.Storable) (hid : Key.isToken id = true) :
    ∃ fields, (properties kind id).run.run e = (.ok fields, e) ∧
      Json.Tabulates fields (g.property kind id) :=
  h.readProperties_run kind hg hid (List.forall_mem_nil _)

end Reading

/-! ## Queries -/

section Queries

/-- The fields that are read as one value, or the failure. -/
def Item.ofMap (outcome : Except Error (List (String × Json))) : Item :=
  outcome.map fun fields => .value (.obj fields)

/-- A row for each of them, or the failure. -/
def Task.rows : Except Error (List (String × Json)) → List Item
  | .ok fields => fields.map Task.row
  | .error err => [.error err]

variable {σ : Type} [Backend σ] [LawfulBackend σ] {e : Engine σ} {g : Multigraph} {kind : ElementKind}
  {id key : String} {names : List String} {args : List Json}
  {outcome : Except Error (List (String × Json))}

theorem Item.ofOutcome_some (i : Item) : Item.ofOutcome (i.map some) = [i] := by
  cases i <;> rfl

omit [LawfulBackend σ] in
/-- The map of an element is what is read of it. -/
theorem Filter.valueMaps_run (hread : (readProperties kind id names).run.run e = (outcome, e)) :
    ((Filter.valueMaps names).apply (.ofElement kind id)).run.run e =
      ((Item.ofMap outcome).map some, e) := by
  rw [Filter.apply, requireElement_ofElement, pure_bind]
  cases outcome with
  | ok fields => exact Attempt.bind_ok hread _
  | error err => exact Attempt.bind_error hread _

omit [LawfulBackend σ] in
/-- The rows of an element are what is read of it. -/
theorem Expansion.properties_bring (hread : (readProperties kind id names).run.run e = (outcome, e)) :
    (Expansion.task (.properties (.ofElement kind id) names)).Brings e (Task.rows outcome) := by
  cases outcome with
  | ok fields =>
    refine .task (x := .items _) ?_ (.items _)
    rw [Task.begin, requireElement_ofElement, pure_bind]
    exact Attempt.bind_ok hread _
  | error err =>
    refine .failed ?_
    rw [Task.begin, requireElement_ofElement, pure_bind]
    exact Attempt.bind_error hread _

variable (kind) in
theorem Chain.resolveFrom_valueMap (hargs : Arguments.Spell names args)
    (hnames : ∀ n ∈ names, Key.isToken n = true) :
    Chain.resolveFrom kind.type [⟨.valueMap, args⟩] = .ok [⟨Operation.valueMap.name, args, kind.type,
      .value, .valueMap (Arguments.distinct names)⟩] := by
  have hrule : kind.type.rule? .valueMap = some ⟨.valueMap, .value, .transform⟩ := by cases kind <;> rfl
  refine Chain.resolveFrom_cons hrule ?_ rfl
  simp only [Step.ofCall, hargs.names_eq hnames]
  rfl

variable (kind) in
theorem Chain.resolveFrom_properties (hargs : Arguments.Spell names args)
    (hnames : ∀ n ∈ names, Key.isToken n = true) :
    Chain.resolveFrom kind.type [⟨.properties, args⟩] = .ok [⟨Operation.properties.name, args,
      kind.type, .value, .properties (Arguments.distinct names)⟩] := by
  have hrule : kind.type.rule? .properties = some ⟨.properties, .value, .transform⟩ := by
    cases kind <;> rfl
  refine Chain.resolveFrom_cons hrule ?_ rfl
  simp only [Step.ofCall, hargs.names_eq hnames]
  rfl

/-- Names that are given more than once are read once. -/
theorem Engine.Keeps.readDistinct_told (h : e.Keeps g) (hg : g.ReadableAt kind id) (hid : id ∈ g.ids kind)
    (hnames : ∀ n ∈ names, Key.isToken n = true) (htells : g.Tells kind id names outcome) :
    (readProperties kind id (Arguments.distinct names)).run.run e = (outcome, e) :=
  h.readProperties_told kind hg (h.sound.isToken_of_has (x := (kind, id)) hid)
    (fun n hn => hnames n (Arguments.mem_distinct.1 hn)) (g.tells_distinct kind id names ▸ htells)

/-- What is told of properties comes as one value, or as a row for each of their keys. -/
theorem Engine.Keeps.yields_told (h : e.Keeps g) (hg : g.ReadableAt kind id) (hid : id ∈ g.ids kind)
    (hnames : ∀ n ∈ names, Key.isToken n = true) (hargs : Arguments.Spell names args)
    (htells : g.Tells kind id names outcome) :
    (Chain.startingAt kind id [⟨.valueMap, args⟩]).Yields e [Item.ofMap outcome] ∧
      (Chain.startingAt kind id [⟨.properties, args⟩]).Yields e (Task.rows outcome) := by
  have hread := h.readDistinct_told hg hid hnames htells
  refine ⟨h.yields_startingAt hid (Chain.resolveFrom_valueMap kind hargs hnames) fun source hs => ?_,
    h.yields_startingAt hid (Chain.resolveFrom_properties kind hargs hnames) fun source hs => ?_⟩
  · have hbrings : (Stream.through (.filter (.valueMaps (Arguments.distinct names))) source).Brings e
        ([Traverser.ofElement kind id].flatMap fun _ =>
          Item.ofOutcome ((Item.ofMap outcome).map some)) := hs.apply fun t ht => by
      obtain rfl : t = .ofElement kind id := by simpa using ht
      exact Filter.valueMaps_run hread
    rwa [List.flatMap_singleton, Item.ofOutcome_some] at hbrings
  · have hrows : (Stream.through (.expand (.properties (Arguments.distinct names)) none) source).Brings e
        ([Traverser.ofElement kind id].flatMap fun _ => Task.rows outcome) := hs.expand fun t ht => by
      obtain rfl : t = .ofElement kind id := by simpa using ht
      exact ⟨_, rfl, Expansion.properties_bring hread⟩
    rwa [List.flatMap_singleton] at hrows

/-- Of all elements of a kind, it comes in turn. -/
theorem Engine.Keeps.yields_toldAll (h : e.Keeps g) (hg : g.Readable) (hsorted : ∀ v : Survey, v.Sorted g)
    (hnames : ∀ n ∈ names, Key.isToken n = true) (hargs : Arguments.Spell names args)
    {outcome : String → Except Error (List (String × Json))}
    (htells : ∀ id ∈ g.ids kind, g.Tells kind id names (outcome id)) :
    (Chain.startingAtAll kind [⟨.valueMap, args⟩]).Yields e
        ((g.ids kind).map fun id => Item.ofMap (outcome id)) ∧
      (Chain.startingAtAll kind [⟨.properties, args⟩]).Yields e
        ((g.ids kind).flatMap fun id => Task.rows (outcome id)) := by
  have hread := fun id hid => h.readDistinct_told (hg kind id) hid hnames (htells id hid)
  constructor
  · have hpicks := Chain.picks_of_calls [] none (Chain.resolveFrom_valueMap kind hargs hnames) rfl
    refine .of_runs fun c => ?_
    obtain ⟨s, hs, hopen⟩ := hpicks.exists_supplies (σ := σ) (by simp) h.sound hsorted g.shows_all c
    rw [g.picks_all] at hs
    refine ⟨_, hopen e, ?_⟩
    have hruns := hs.runs_applied h (.valueMaps (Arguments.distinct names))
      (fun id => (Item.ofMap (outcome id)).map some) fun id hid =>
        Filter.valueMaps_run (hread id hid)
    simp only [Item.ofOutcome_some, ← List.map_eq_flatMap] at hruns
    exact hruns
  · have hpicks := Chain.picks_of_calls [] none (Chain.resolveFrom_properties kind hargs hnames) rfl
    refine .of_runs fun c => ?_
    obtain ⟨s, hs, hopen⟩ := hpicks.exists_supplies (σ := σ) (by simp) h.sound hsorted g.shows_all c
    rw [g.picks_all] at hs
    exact ⟨_, hopen e, hs.runs_expanded h (.properties (Arguments.distinct names)) _
      fun id hid => ⟨_, rfl, Expansion.properties_bring (hread id hid)⟩⟩

/-- The map that was asked for comes as one value, or as a row for each of its keys. -/
theorem Engine.Keeps.yields_map (h : e.Keeps g) (hg : g.Storable) (hid : id ∈ g.ids kind)
    (hnames : ∀ n ∈ names, Key.isToken n = true) (hargs : Arguments.Spell names args) :
    ∃ fields, Json.Tabulates fields (g.asked kind id names) ∧
      (Chain.startingAt kind id [⟨.valueMap, args⟩]).Yields e [.ok (.value (.obj fields))] ∧
      (Chain.startingAt kind id [⟨.properties, args⟩]).Yields e (fields.map Task.row) := by
  have htoken := h.sound.isToken_of_has (x := (kind, id)) hid
  obtain ⟨outcome, -, htells⟩ := h.readProperties_tells kind (hg.readable kind id) htoken hnames
  obtain ⟨fields, rfl, hfields⟩ := hg.exists_fields htells
  exact ⟨fields, hfields, h.yields_told (hg.readable kind id) hid hnames hargs htells⟩

/-- A filter lets an element pass where the map has an equal scalar under its key. -/
theorem Engine.Keeps.yields_has (h : e.Keeps g) (hg : g.Storable) (hid : id ∈ g.ids kind)
    (hkey : IsPropertyKey key) {value : Json}
    (hvalue : Arguments.scalar .has (some value) = .ok value) :
    (Chain.startingAt kind id [⟨.has, [.str key, value]⟩]).Yields e
      (if (g.property kind id key).any (·.scalarEqual value) then [.ok (.ofElement kind id)]
        else []) := by
  have htoken := h.sound.isToken_of_has (x := (kind, id)) hid
  have hcalls : Chain.resolveFrom kind.type [⟨.has, [.str key, value]⟩] =
      .ok [⟨Operation.has.name, [.str key, value], kind.type, kind.type, .has key value⟩] := by
    have hfilterKey : Arguments.filterKey .has (some (.str key)) = .ok key := by
      have hne : key.isEmpty = false := by simpa using Validation.not_isEmpty_of_isToken hkey.1
      simp [Arguments.filterKey, hne, hkey.2.1, hkey.2.2, require, hkey.1]
    have hrule : kind.type.rule? .has = some ⟨.has, kind.type, .transform⟩ := by cases kind <;> rfl
    refine Chain.resolveFrom_cons hrule ?_ rfl
    simp only [Step.ofCall, List.getElem?_cons_zero, List.getElem?_cons_succ, hfilterKey, hvalue]
    rfl
  have hadmits : g.admits? kind id key value =
      some ((g.property kind id key).any (·.scalarEqual value)) := by
    rw [Multigraph.admits?, if_neg hkey.2.2, if_neg hkey.2.1]
    cases hproperty : g.property kind id key with
    | none => rfl
    | some stored => simp [Json.parse?_text (hg _ _ _ _ hproperty)]
  refine h.yields_startingAt hid hcalls fun source hs => ?_
  have hbrings := hs.filterMap (l := [.ofElement kind id]) (f := .having key value)
    (p := fun t => if (g.property kind id key).any (·.scalarEqual value) then some t else none)
    fun t ht => by
      obtain rfl : t = .ofElement kind id := by simpa using ht
      rw [Filter.apply, requireElement_ofElement, pure_bind]
      refine (Attempt.bind_ok (h.holds_run htoken hkey.1 hadmits) _).trans ?_
      cases (g.property kind id key).any (·.scalarEqual value) <;> rfl
  cases hany : (g.property kind id key).any (·.scalarEqual value) with
  | true =>
    rw [hany] at hbrings
    exact hbrings
  | false =>
    rw [hany] at hbrings
    exact hbrings

end Queries

/-! ## Setting a property -/

section Setting

variable {σ : Type} [Backend σ] [LawfulBackend σ]

/-- Whatever is asked but one property of one element has the same answer. -/
structure Engine.AgreesApart (e e' : Engine σ) (kind : ElementKind) (id key : String) : Prop where
  contents : ∀ k, k ≠ Key.property kind id key → e'.contents k = e.contents k
  property : ∀ kind' id' key', Key.isToken id' = true → Key.isToken key' = true →
    (kind', id', key') ≠ (kind, id, key) →
      e'.answer (getProperty kind' id' key') = e.answer (getProperty kind' id' key')
  properties : ∀ kind' id' names, Key.isToken id' = true → (∀ n ∈ names, Key.isToken n = true) →
    (kind', id') ≠ (kind, id) →
      e'.answer (readProperties kind' id' names) = e.answer (readProperties kind' id' names)
  label : ∀ kind' id', Key.isToken id' = true →
    e'.answer (getLabel kind' id') = e.answer (getLabel kind' id')
  existence : ∀ kind' id', Key.isToken id' = true →
    e'.answer (elementExists kind' id') = e.answer (elementExists kind' id')
  ends : ∀ id', Key.isToken id' = true →
    e'.answer (edgeEndpoints id') = e.answer (edgeEndpoints id')
  adjacent : ∀ s : Scope, s.Valid → ∀ a,
    e'.answer (adjacentIds s.vertex s.direction a s.label) =
      e.answer (adjacentIds s.vertex s.direction a s.label)
  elements : ∀ kind', e'.answer (elementIds kind') = e.answer (elementIds kind')
  labeled : ∀ l, Key.isToken l = true →
    e'.answer (verticesWithLabel l) = e.answer (verticesWithLabel l)

variable {e : Engine σ} {g : Multigraph} {kind : ElementKind} {id key : String} {value : Json}

omit [Backend σ] [LawfulBackend σ] in
theorem Engine.answer_eq {α : Type} {operation : Attempt σ α} {outcome : Except Error α}
    {e e' : Engine σ} (h : operation.run.run e = (outcome, e')) : e.answer operation = outcome :=
  congrArg Prod.fst h

theorem Multigraph.Storable.setProperty (hg : g.Storable) (hvalue : value.Storable) :
    (g.setProperty kind id key value).Storable := by
  intro kind' id' key' value' hstored
  simp only [Multigraph.setProperty] at hstored
  split at hstored
  · cases hstored
    exact hvalue
  · exact hg kind' id' key' value' hstored

/-- The other elements have the properties they had. -/
theorem Multigraph.asked_setProperty {kind' : ElementKind} {id' : String}
    (hne : (kind', id') ≠ (kind, id)) (names : List String) :
    (g.setProperty kind id key value).asked kind' id' names = g.asked kind' id' names := by
  have hproperty : ∀ key', (g.setProperty kind id key value).property kind' id' key' =
      g.property kind' id' key' := fun key' => by
    simp only [Multigraph.setProperty]
    rw [if_neg fun hsame => hne (Prod.ext hsame.1 hsame.2.1)]
  have hlabel : (g.setProperty kind id key value).label? kind' id' = g.label? kind' id' := by
    cases kind' <;> rfl
  funext key'
  simp only [Multigraph.asked, Multigraph.named?, hproperty, hlabel]

variable (kind) in
/-- Setting a property changes nothing else. -/
theorem Engine.Keeps.setProperty_apart (h : e.Keeps g) (hg : g.Storable)
    (hsorted : ∀ v : Survey, v.Sorted g) (hid : Key.isToken id = true) (hkey : IsPropertyKey key)
    (hvalue : value.Storable) :
    ∃ e', (Graph.setProperty kind id key value).run.run e = (.ok (), e') ∧
      e'.Keeps (g.setProperty kind id key value) ∧ e.AgreesApart e' kind id key := by
  have hset : (Graph.setProperty kind id key value).run.run e = (.ok (), { e with
      store := LawfulBackend.write (Key.property kind id key) (.text value.text) e.store }) := by
    rw [Graph.setProperty, Validation.propertyKey_eq_ok.2 hkey]
    exact Attempt.bind_ok (Engine.update_run (Key.property kind id key) (.text value.text) e) _
  have hg' : (g.setProperty kind id key value).Storable := hg.setProperty hvalue
  have hsorted' : ∀ v : Survey, v.Sorted (g.setProperty kind id key value) := fun v =>
    (hsorted v).sublist (by cases v with
      | vertices f => cases f <;> exact List.Sublist.refl _
      | edges => exact List.Sublist.refl _)
  obtain ⟨neighbors, hfits, hholds⟩ := h.holds
  obtain ⟨e', hrun, hholds', -⟩ := does_setProperty (σ := σ) hid hkey value (g.layout neighbors) e hholds
  rw [← Multigraph.layout_setProperty] at hholds'
  have h' : e'.Keeps (g.setProperty kind id key value) :=
    ⟨h.sound.setProperty kind hid hkey.1 value, neighbors, hfits, hholds'⟩
  rw [hset] at hrun
  refine ⟨e', by rw [hset, hrun], h', ?_⟩
  constructor
  case contents =>
    intro k hk
    rw [← (Prod.mk.inj hrun).2, Engine.contents_write, if_neg hk]
  case property =>
    intro kind' id' key' hid' hkey' hne
    rw [Engine.answer_eq (h.readProperty_run hg hid' hkey'),
      Engine.answer_eq (h'.readProperty_run hg' hid' hkey')]
    simp only [Multigraph.setProperty]
    rw [if_neg fun hsame => hne (by rw [hsame.1, hsame.2.1, hsame.2.2])]
  case properties =>
    intro kind' id' names hid' hnames hne
    obtain ⟨fields, hread, hfields⟩ := h.readProperties_run kind' hg hid' hnames
    obtain ⟨fields', hread', hfields'⟩ := h'.readProperties_run kind' hg' hid' hnames
    rw [Multigraph.asked_setProperty hne] at hfields'
    rw [Engine.answer_eq hread, Engine.answer_eq hread', hfields.unique hfields']
  case label =>
    intro kind' id' hid'
    rw [Engine.answer_eq (h.getLabel_run hid'), Engine.answer_eq (h'.getLabel_run hid')]
    cases kind' <;> rfl
  case existence =>
    intro kind' id' hid'
    obtain ⟨found, hread, hiff⟩ := elementExists_run h kind' hid'
    obtain ⟨found', hread', hiff'⟩ := elementExists_run h' kind' hid'
    have hsame : found' = found := Bool.eq_iff_iff.2 (hiff'.trans hiff.symm)
    rw [Engine.answer_eq hread, Engine.answer_eq hread', hsame]
  case ends =>
    intro id' hid'
    rw [Engine.answer_eq (edgeEndpoints_run h hid'), Engine.answer_eq (edgeEndpoints_run h' hid')]
    rfl
  case adjacent =>
    intro s hs a
    obtain ⟨_, hread, -⟩ := does_adjacentIds (σ := σ) hs a _ e hholds
    obtain ⟨_, hread', -⟩ := does_adjacentIds (σ := σ) hs a _ e' hholds'
    rw [Engine.answer_eq hread, Engine.answer_eq hread', Multigraph.layout_setProperty]
    rfl
  case elements =>
    intro kind'
    rw [Engine.answer_eq (elementIds_run h kind' (hsorted _)),
      Engine.answer_eq (elementIds_run h' kind' (hsorted' _))]
    cases kind' <;> rfl
  case labeled =>
    intro l hl
    rw [Engine.answer_eq (verticesWithLabel_run h hl (hsorted _)),
      Engine.answer_eq (verticesWithLabel_run h' hl (hsorted' _))]
    rfl

end Setting

end PropertyGraph
