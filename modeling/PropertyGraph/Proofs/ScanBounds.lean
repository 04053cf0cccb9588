/-
Whole scans, in memory and in a database. A store in memory takes the keys of a range by
the text they begin with, a database by two bounds. A scan of a store that stays as it is
brings every key that matches and that some range reaches (`Engine.collectKeys_brought`);
no bound is above the keys of a few ranges, and those are missed
(`Engine.collectKeys_memory_database`).
-/
import PropertyGraph.Proofs.ByteOrder
import PropertyGraph.Proofs.ChangingScan
import PropertyGraph.Proofs.EngineRun

namespace PropertyGraph

open LawfulBackend

namespace KeyScan

/-! ## Between two bounds -/

/-- A key between the bounds of the range of a stem. -/
def Bounded (stem key : String) : Prop :=
  compare key stem ≠ .lt ∧ (stem = "" ∨ compare key (Database.upperBound stem) = .lt)

/-- The pages of a bucket of a database. -/
theorem pages_database : Pages (fun b : Bucket => (b.database.entries b.name).keys) Bounded Bounded
    (fun b stem after limit => .ok (b.database.page b.name stem after limit)) where
  ordered b := (b.database.entries b.name).pairwise_keys
  not_before h := h.1
  isPage {b stem after page} hafter h := by
    cases h
    rw [Database.page, ← Database.keys_entries]
    have hbelow : ∀ key : String, (stem.isEmpty || compare key (Database.upperBound stem) == .lt) = true ↔
        stem = "" ∨ compare key (Database.upperBound stem) = .lt := by
      intro key
      rw [Bool.or_eq_true, String.isEmpty_iff, beq_iff_eq]
    refine ⟨isPage_take (b.database.entries b.name).pairwise_keys ?_ ?_ _, ?_⟩
    · intro key hkey
      rw [Bool.and_eq_true] at hkey
      cases after with
      | none => exact bne_iff_ne.1 hkey.1
      | some last => exact beq_iff_eq.1 hkey.1
    · intro key hkey hbehind
      rw [Bool.and_eq_true, hbelow]
      cases after with
      | none => exact ⟨bne_iff_ne.2 hbehind, hkey.2⟩
      | some last => exact ⟨beq_iff_eq.2 hbehind, hkey.2⟩
    · intro key hkey
      have hkept := (List.mem_filter.1 (List.mem_of_mem_take hkey)).2
      rw [Bool.and_eq_true, hbelow] at hkept
      refine ⟨?_, hkept.2⟩
      cases after with
      | none => simpa using hkept.1
      | some last =>
        intro hlt
        exact (hafter last rfl).1 (Std.TransCmp.lt_trans (by simpa using hkept.1) hlt)

/-- What is left of a fresh scan is less than the effort it is given. -/
theorem left_start_lt (ps : List KeyPattern) (keys : List String) :
    (start ps).left keys < (KeyStream.ofScan (start ps)).effort keys.length := by
  have hleft : (start ps).left keys = 0 + 0 + (start ps).stems.length * (2 * keys.length + 2) := rfl
  have heffort : (KeyStream.ofScan (start ps)).effort keys.length =
      0 + ((start ps).stems.length + 1) * (2 * keys.length + 2) + 2 := rfl
  rw [hleft, heffort, Nat.add_one_mul (start ps).stems.length]
  omega

/-! ## What the bounds leave out -/

/-- A text of characters a bound never ends in. -/
def IsHigh (s : List Char) : Prop := ∀ c ∈ s, 0x7F ≤ c.toNat

/-- The bound of a text with a low character. -/
theorem upperBound_of_low {front tail : List Char} {c : Char} (hc : c.toNat < 0x7F)
    (htail : IsHigh tail) {stem : String} (h : stem.toList = front ++ c :: tail) :
    (Database.upperBound stem).toList = front ++ [Char.ofNat (c.toNat + 1)] := by
  have hdrop : (tail.reverse ++ (c :: front.reverse)).dropWhile (0x7F ≤ ·.toNat) = c :: front.reverse := by
    rw [List.dropWhile_append_of_pos fun d hd => decide_eq_true (htail d (List.mem_reverse.1 hd))]
    exact List.dropWhile_cons_of_neg (by simpa using hc)
  have hrev : stem.toList.reverse = tail.reverse ++ (c :: front.reverse) := by
    rw [h, List.reverse_append, List.reverse_cons, List.append_assoc]
    rfl
  rw [Database.upperBound, hrev, hdrop]
  simp

/-- The bound of a text without one. -/
theorem upperBound_of_high {stem : String} (h : IsHigh stem.toList) :
    (Database.upperBound stem).toList = [Char.ofNat 0x10FFFF] := by
  have hdrop : stem.toList.reverse.dropWhile (0x7F ≤ ·.toNat) = [] :=
    List.dropWhile_eq_nil_iff.2 fun d hd => decide_eq_true (h d (List.mem_reverse.1 hd))
  rw [Database.upperBound, hdrop]
  simp

/-- The last low character of a text, if there is one. -/
theorem high_or_low (s : List Char) :
    IsHigh s ∨ ∃ front c tail, s = front ++ c :: tail ∧ c.toNat < 0x7F ∧ IsHigh tail := by
  induction s with
  | nil => exact .inl fun c hc => by cases hc
  | cons d s ih =>
    rcases ih with hhigh | ⟨front, c, tail, rfl, hc, htail⟩
    · by_cases hd : d.toNat < 0x7F
      · exact .inr ⟨[], d, s, rfl, hd, hhigh⟩
      · refine .inl fun c hc => ?_
        rcases List.mem_cons.1 hc with rfl | hc
        · omega
        · exact hhigh c hc
    · exact .inr ⟨d :: front, c, tail, rfl, hc, htail⟩

theorem toNat_next {c : Char} (hc : c.toNat < 0x7F) :
    (Char.ofNat (c.toNat + 1)).toNat = c.toNat + 1 := by
  rw [Char.toNat_ofNat, if_pos (.inl (by omega))]

/-- A key between the bounds of a text with a low character has a low character. -/
theorem not_high_of_bounded {front tail key : List Char} {c : Char} (hc : c.toNat < 0x7F)
    (hlower : ¬ key < front ++ c :: tail) (hupper : key < front ++ [Char.ofNat (c.toNat + 1)]) :
    ¬ IsHigh key := by
  induction front generalizing key with
  | nil =>
    cases key with
    | nil => exact absurd (List.nil_lt_cons c tail) hlower
    | cons d key =>
      rw [List.nil_append, List.cons_lt_cons_iff] at hupper
      have hlt : d.toNat < c.toNat + 1 := by
        rw [← toNat_next hc]
        exact hupper.resolve_right fun h => List.not_lt_nil _ h.2
      exact fun hhigh => absurd (hhigh d (by simp)) (by omega)
  | cons x front ih =>
    cases key with
    | nil => exact absurd (List.nil_lt_cons x _) hlower
    | cons d key =>
      rw [List.cons_append, List.cons_lt_cons_iff] at hupper hlower
      rcases hupper with hlt | ⟨rfl, hupper⟩
      · exact absurd (.inl hlt) hlower
      · exact fun hhigh => ih (fun h => hlower (.inr ⟨rfl, h⟩)) hupper
          fun c hc => hhigh c (List.mem_cons_of_mem _ hc)

/-- A key that begins with a text with a low character is below its bound. -/
theorem lt_bound_of_low (front tail rest : List Char) {c : Char} (hc : c.toNat < 0x7F) :
    front ++ c :: tail ++ rest < front ++ [Char.ofNat (c.toNat + 1)] := by
  rw [List.append_assoc, List.cons_append]
  refine List.append_left_lt (List.cons_lt_cons_iff.2 (.inl ?_))
  show c.toNat < (Char.ofNat (c.toNat + 1)).toNat
  rw [toNat_next hc]
  omega

theorem toNat_last : (Char.ofNat 0x10FFFF).toNat = 0x10FFFF := by decide

/-- No character is behind the last one. -/
theorem lt_last_of_ne {c : Char} (h : c ≠ Char.ofNat 0x10FFFF) : c < Char.ofNat 0x10FFFF := by
  show c.toNat < (Char.ofNat 0x10FFFF).toNat
  have hne : c.toNat ≠ 0x10FFFF := fun heq => h (Char.toNat_inj.1 (heq.trans toNat_last.symm))
  have hvalid : c.toNat < 0x110000 := by
    rcases c.valid with hv | hv
    · exact Nat.lt_trans hv (by decide)
    · exact hv.2
  rw [toNat_last]
  omega

/-- A key that no bound is above: it begins with the last character of all and has no low
character, and no pattern has it scanned for without a bound. -/
def Beyond (ps : List KeyPattern) (key : String) : Prop :=
  "" ∉ ranges ps ∧ IsHigh key.toList ∧ key.toList.head? = some (Char.ofNat 0x10FFFF)

/-- A pattern without wildcards matches its own text only. -/
theorem eq_stem_of_isExact {p : KeyPattern} (hexact : p.isExact = true) {key : String}
    (h : p.accepts key = true) : key = p.stem := by
  have hslots : ∀ {slots : List Slot} {ts : List String}, (⟨slots, false⟩ : KeyPattern).isExact = true →
      KeyPattern.matchTokens false slots ts = true → ts = KeyPattern.literals slots := by
    intro slots
    induction slots with
    | nil =>
      intro ts _ hts
      cases ts with
      | nil => rfl
      | cons => simp [KeyPattern.matchTokens] at hts
    | cons slot slots ih =>
      intro ts hex hts
      cases ts with
      | nil => simp [KeyPattern.matchTokens] at hts
      | cons t ts =>
        cases slot with
        | any => simp [KeyPattern.isExact] at hex
        | literal u =>
          simp only [KeyPattern.matchTokens, Slot.accepts, Bool.and_eq_true, beq_iff_eq] at hts
          rw [KeyPattern.literals, ih (by simpa [KeyPattern.isExact] using hex) hts.2, hts.1]
  obtain ⟨slots, tail⟩ := p
  have htail : tail = false := by
    rw [KeyPattern.isExact, Bool.and_eq_true] at hexact
    simpa using hexact.1
  subst htail
  rw [KeyPattern.stem, if_pos hexact, ← hslots hexact h, Key.join_tokens]

theorem ranges_of_bounded {ps : List KeyPattern} (h : "" ∉ ranges ps) :
    ps ≠ [] ∧ ranges ps = ps.map KeyPattern.stem := by
  unfold ranges at h ⊢
  split at h
  · exact absurd (List.mem_singleton.2 rfl) h
  · rename_i hall
    refine ⟨?_, by rw [if_neg hall]⟩
    rintro rfl
    exact hall rfl

/-- A key that matches a pattern with a stem lies between the bounds of the stem, or has no low
character and begins with the last of all. -/
theorem bounded_stem {p : KeyPattern} {key : String} (h : p.accepts key = true) (hstem : p.stem ≠ "") :
    Bounded p.stem key ∨
      IsHigh key.toList ∧ key.toList.head? = some (Char.ofNat 0x10FFFF) := by
  have hstarts := KeyPattern.startsWith_stem h
  have hbounded : key.toList < (Database.upperBound p.stem).toList → Bounded p.stem key := fun hlt =>
    ⟨not_before_of_startsWith hstarts, .inr (compare_eq_lt_iff.2 hlt)⟩
  rcases high_or_low p.stem.toList with hhigh | ⟨front, c, tail, hsplit, hc, htail⟩
  · have hexact : p.isExact = true := by
      by_contra hnot
      rcases isStem_stem (Bool.eq_false_iff.2 hnot) with hempty | ⟨cs, hdot⟩
      · exact hstem hempty
      · rw [hdot] at hhigh
        exact absurd (hhigh '.' (by simp)) (by decide)
    have hkey := eq_stem_of_isExact hexact h
    rw [← hkey] at hhigh hbounded hstem
    cases hlist : key.toList with
    | nil => exact absurd (String.toList_eq_nil_iff.1 hlist) hstem
    | cons d rest =>
      by_cases hd : d = Char.ofNat 0x10FFFF
      · exact .inr ⟨hlist ▸ hhigh, by rw [hd]; rfl⟩
      · refine .inl (hkey ▸ hbounded ?_)
        rw [upperBound_of_high hhigh, hlist]
        exact List.cons_lt_cons_iff.2 (.inl (lt_last_of_ne hd))
  · obtain ⟨rest, hrest⟩ := Key.startsWith_iff.1 hstarts
    refine .inl (hbounded ?_)
    rw [upperBound_of_low hc htail hsplit, hrest, hsplit]
    exact lt_bound_of_low front tail rest hc

/-- A matching key lies between the bounds of some range, unless it is beyond all of them. -/
theorem bounded_iff {ps : List KeyPattern} {key : String} (h : Matched ps key) :
    (∃ stem ∈ ranges ps, Bounded stem key) ↔ ¬ Beyond ps key := by
  constructor
  · rintro ⟨stem, hstem, hlower, hupper⟩ ⟨hempty, hhigh, hhead⟩
    have hbound := hupper.resolve_left fun h => hempty (h ▸ hstem)
    rw [compare_eq_lt_iff] at hbound
    rw [Ne, compare_eq_lt_iff] at hlower
    rcases high_or_low stem.toList with hstemHigh | ⟨front, c, tail, hsplit, hc, htail⟩
    · rw [upperBound_of_high hstemHigh] at hbound
      cases hkey : key.toList with
      | nil => simp [hkey] at hhead
      | cons d rest =>
        rw [hkey] at hhead hbound
        obtain rfl : d = Char.ofNat 0x10FFFF := by simpa using hhead
        rw [List.cons_lt_cons_iff] at hbound
        rcases hbound with hlt | ⟨-, hlt⟩
        · exact lt_irrefl _ hlt
        · exact List.not_lt_nil _ hlt
    · rw [upperBound_of_low hc htail hsplit] at hbound
      rw [hsplit] at hlower
      exact not_high_of_bounded hc hlower hbound hhigh
  · intro hnot
    by_cases hempty : "" ∈ ranges ps
    · exact ⟨"", hempty, not_before_of_startsWith (Key.startsWith_empty key), .inl rfl⟩
    · obtain ⟨hne, hranges⟩ := ranges_of_bounded hempty
      obtain ⟨p, hp, haccepts⟩ := h.resolve_left hne
      have hmem : p.stem ∈ ranges ps := hranges ▸ List.mem_map_of_mem hp
      refine ⟨p.stem, hmem, (bounded_stem haccepts fun h => hempty (h ▸ hmem)).resolve_right ?_⟩
      exact fun hhigh => hnot ⟨hempty, hhigh⟩

end KeyScan

/-! ## Whole scans -/

namespace Engine

open KeyScan

variable {σ : Type} [Backend σ] [LawfulBackend σ] {reach cursor : String → String → Prop}
  {ps : List KeyPattern} {patterns : List String}

/-- Taking the keys of a stream in comes to the end of the scan. -/
theorem foldStream_brought
    (hpages : Pages (fun s : σ => (entries s).keys) reach cursor
      (fun s stem after limit => .ok (page s stem after limit)))
    {e : Engine σ} {came : List String} {s : KeyScan}
    (h : Brought (fun s : σ => (entries s).keys) cursor ps [e.store] came s)
    (hcovers : Covers (fun s : σ => (entries s).keys) reach ps [e.store] came s) {fuel : Nat}
    (hfuel : s.left e.keys < fuel) :
    ∃ all s', (foldStream (fun found item => do return (← MonadExcept.ofExcept item) :: found)
        fuel came.reverse (.ofScan s) : Attempt σ (List String)).run.run e = (.ok all.reverse, e) ∧
      s'.Spent ∧ Brought (fun s : σ => (entries s).keys) cursor ps [e.store] all s' ∧
      Covers (fun s : σ => (entries s).keys) reach ps [e.store] all s' := by
  induction fuel generalizing came s with
  | zero => omega
  | succ fuel ih =>
    have hworks := advance_works (fetch e) s
    have hbrought := hworks.brought hpages (List.mem_singleton.2 rfl) h
    have hcovers' := hworks.covers hpages (List.mem_singleton.2 rfl) h hcovers
    have hleft : (s.advance (fetch e)).1 ≠ .done →
        (s.advance (fetch e)).2.left e.keys < s.left e.keys := by
      intro hne
      have hless := hworks.left hpages h hne
      exact hless
    rw [foldStream, Attempt.lift_bind, advance_run]
    dsimp only [KeyStream.ofScan]
    generalize (s.advance (fetch e)).1 = event at hworks hbrought hcovers' hleft ⊢
    generalize (s.advance (fetch e)).2 = s' at hworks hbrought hcovers' hleft ⊢
    cases event with
    | key key =>
      have := hleft (by simp)
      obtain ⟨all, s'', hrun, hrest⟩ := ih hbrought (hcovers' (by simp)) (by omega)
      refine ⟨all, s'', ?_, hrest⟩
      rw [broughtBy, List.reverse_append] at hrun
      exact hrun
    | skip =>
      have := hleft (by simp)
      rw [broughtBy, List.append_nil] at hbrought hcovers'
      exact ih hbrought (hcovers' (by simp)) (by omega)
    | done =>
      rw [broughtBy, List.append_nil] at hbrought hcovers'
      refine ⟨came, s', rfl, ?_, hbrought, hcovers' (by simp)⟩
      cases hworks with
      | done hspent => exact hspent
    | failed err =>
      cases hworks with
      | fail _ _ _ _ _ _ hfetch => cases hfetch

/-- The keys that match one of some patterns, over any pages. -/
theorem collectKeys_brought
    (hpages : Pages (fun s : σ => (entries s).keys) reach cursor
      (fun s stem after limit => .ok (page s stem after limit)))
    (hread : KeyPattern.parseAll patterns = .ok ps) (e : Engine σ) :
    ∃ all s', (collectKeys patterns).run.run e = (.ok all, e) ∧ s'.Spent ∧
      Brought (fun s : σ => (entries s).keys) cursor ps [e.store] all s' ∧
      Covers (fun s : σ => (entries s).keys) reach ps [e.store] all s' := by
  obtain ⟨all, s', hrun, hrest⟩ := foldStream_brought hpages (e := e) (brought_start ps _)
    (covers_start ps _) (left_start_lt ps e.keys)
  refine ⟨all, s', ?_, hrest⟩
  have hfold : (foldKeys (fun found item => do return (← MonadExcept.ofExcept item) :: found) []
      patterns : Attempt σ (List String)).run.run e = (.ok all.reverse, e) := by
    rw [foldKeys, Attempt.bind_ok (keys_run hread e), Attempt.get_bind, size_eq_length]
    exact hrun
  rw [collectKeys, Attempt.bind_ok hfold, List.reverse_reverse]
  rfl

/-- The keys that match one of some patterns, where pages hold all keys a range reaches and no
others. -/
theorem collectKeys_found
    (hpages : Pages (fun s : σ => (entries s).keys) reach reach
      (fun s stem after limit => .ok (page s stem after limit)))
    (hread : KeyPattern.parseAll patterns = .ok ps) (e : Engine σ) :
    ∃ found, (collectKeys patterns).run.run e = (.ok found, e) ∧ found.Nodup ∧
      (∀ key, key ∈ found ↔ key ∈ e.keys ∧ Matched ps key ∧ ∃ stem ∈ ranges ps, reach stem key) ∧
      (ps.length ≤ 1 → found.Pairwise fun k l => compare k l = .lt) := by
  obtain ⟨found, s, hrun, hspent, hbrought, hcovers⟩ := collectKeys_brought hpages hread e
  refine ⟨found, hrun, hbrought.nodup, fun key => ⟨fun hkey => ?_, ?_⟩, hbrought.ascending⟩
  · obtain ⟨store, hstore, hmem⟩ := hbrought.stored key (List.mem_append_left _ hkey)
    obtain rfl : store = e.store := List.mem_singleton.1 hstore
    exact ⟨hmem, hbrought.matched key hkey, hbrought.within key (List.mem_append_left _ hkey)⟩
  · rintro ⟨hmem, hmatched, stem, hstem, hreach⟩
    refine hcovers.mem_came hspent hmatched (fun store hstore => ?_) hstem hreach
    rw [List.mem_singleton.1 hstore]
    exact hmem

/-- A list with a bad pattern is refused before anything is scanned. -/
theorem collectKeys_refused {err : Error} (hread : KeyPattern.parseAll patterns = .error err)
    (e : Engine σ) : (collectKeys patterns).run.run e = (.error err, e) := by
  have hopen := keys_refused hread e
  have hfold : (foldKeys (fun found item => do return (← MonadExcept.ofExcept item) :: found) []
      patterns : Attempt σ (List String)).run.run e = (.error err, e) := by
    rw [foldKeys, Attempt.bind_error hopen]
  rw [collectKeys, Attempt.bind_error hfold]

end Engine

theorem KeyPattern.length_parseAll {patterns : List String} {ps : List KeyPattern}
    (h : KeyPattern.parseAll patterns = .ok ps) : ps.length = patterns.length := by
  induction patterns generalizing ps with
  | nil =>
    obtain rfl : [] = ps := Except.ok.inj h
    rfl
  | cons pattern patterns ih =>
    rw [parseAll, List.mapM_cons] at h
    cases hparse : parse pattern with
    | error err =>
      rw [hparse] at h
      cases h
    | ok p =>
      cases hrest : patterns.mapM parse with
      | error err =>
        rw [hparse, hrest] at h
        cases h
      | ok rest =>
        rw [hparse, hrest] at h
        obtain rfl : p :: rest = ps := Except.ok.inj h
        rw [List.length_cons, List.length_cons, ih hrest]

namespace Engine

open KeyScan

/-- The keys a store in memory and a bucket of a database find for the same patterns, where they
keep the same keys: the bucket misses those beyond its bounds. -/
theorem collectKeys_memory_database (patterns : List String) (m : Engine Memory) (b : Engine Bucket)
    (hsame : b.keys = m.keys) :
    (∃ err, err.code = .kvInvalidPattern ∧ (collectKeys patterns).run.run m = (.error err, m) ∧
      (collectKeys patterns).run.run b = (.error err, b)) ∨
    ∃ ps found found', KeyPattern.parseAll patterns = .ok ps ∧
      (collectKeys patterns).run.run m = (.ok found, m) ∧
      (collectKeys patterns).run.run b = (.ok found', b) ∧
      found.Nodup ∧ (∀ key, key ∈ found ↔ key ∈ m.keys ∧ Matched ps key) ∧
      found'.Nodup ∧ (∀ key, key ∈ found' ↔ key ∈ m.keys ∧ Matched ps key ∧ ¬ Beyond ps key) ∧
      (patterns.length ≤ 1 →
        (found.Pairwise fun k l => Text.Utf8.encode k < Text.Utf8.encode l) ∧
        found'.Pairwise fun k l => Text.Utf8.encode k < Text.Utf8.encode l) := by
  cases hread : KeyPattern.parseAll patterns with
  | error err =>
    obtain ⟨pattern, -, fault, rfl⟩ := KeyPattern.parseAll_error hread
    exact .inl ⟨_, rfl, collectKeys_refused hread m, collectKeys_refused hread b⟩
  | ok ps =>
    obtain ⟨found, hrun, hnodup, hmem, hascending⟩ := collectKeys_found pages_memory hread m
    obtain ⟨found', hrun', hnodup', hmem', hascending'⟩ := collectKeys_found pages_database hread b
    refine .inr ⟨ps, found, found', rfl, hrun, hrun', hnodup, fun key => ?_, hnodup', fun key => ?_,
      fun hone => ?_⟩
    · rw [hmem]
      exact ⟨fun h => ⟨h.1, h.2.1⟩, fun h => ⟨h.1, h.2, exists_range h.2⟩⟩
    · rw [hmem', hsame]
      exact and_congr_right fun _ => and_congr_right bounded_iff
    · have hps : ps.length ≤ 1 := KeyPattern.length_parseAll hread ▸ hone
      exact ⟨(hascending hps).imp Text.Utf8.compare_eq_lt_iff_encode.1,
        (hascending' hps).imp Text.Utf8.compare_eq_lt_iff_encode.1⟩

/-- The text of the last character of all. -/
def lastText : String := String.ofList [Char.ofNat 0x10FFFF]

/-- Asked for the last character of all, the store in memory finds it and the bucket does not. -/
theorem collectKeys_last_character :
    let m : Engine Memory := .ofStore (Memory.empty.write lastText (.text ""))
    let b : Engine Bucket := .ofStore ⟨"", Database.empty.write "" lastText (.text "")⟩
    b.keys = m.keys ∧ ∃ found found',
      (collectKeys [lastText]).run.run m = (.ok found, m) ∧
      (collectKeys [lastText]).run.run b = (.ok found', b) ∧
      lastText ∈ found ∧ lastText ∉ found' := by
  intro m b
  have hsame : b.keys = m.keys := by decide
  have hread : KeyPattern.parseAll [lastText] = .ok [⟨[.literal lastText], false⟩] := by decide
  refine ⟨hsame, ?_⟩
  obtain ⟨err, -, hrun, -⟩ | ⟨ps, found, found', hps, hrun, hrun', -, hmem, -, hmem', -⟩ :=
    collectKeys_memory_database [lastText] m b hsame
  · obtain ⟨_, hok, -⟩ := collectKeys_found pages_memory hread m
    rw [hok] at hrun
    cases hrun
  · obtain rfl : [⟨[.literal lastText], false⟩] = ps := Except.ok.inj (hread.symm.trans hps)
    refine ⟨found, found', hrun, hrun', (hmem _).2 ⟨by decide, .inr ⟨_, List.mem_singleton.2 rfl, ?_⟩⟩, ?_⟩
    · decide
    · have hhigh : IsHigh lastText.toList := by
        intro c hc
        rw [lastText, String.toList_ofList, List.mem_singleton] at hc
        rw [hc, toNat_last]
        decide
      intro h
      exact ((hmem' _).1 h).2.2 ⟨by decide, hhigh, by decide⟩

end Engine

end PropertyGraph
