/-
What a scan of keys brings. The keys a scan has still to look at are known at every
moment (`KeyScan.pending`): those of the page at hand, then those of the ranges ahead. One
piece of work takes the first of them or fetches a page of them (`KeyScan.advance_cases`),
so a scan of a store that does not change brings every key its patterns match once and in
order (`KeyScan.brings_single`), within the effort it is given.
-/
import PropertyGraph.Proofs.LawfulStore

namespace PropertyGraph

/-! ## Ranges of sorted keys -/

/-- What comes behind the last of the first items of a sorted list is the rest of it. -/
theorem take_append_behind {l : List String} (hl : l.Pairwise fun a b => compare a b = .lt)
    {n : Nat} {last : String} (h : (l.take n).getLast? = some last) :
    l.take n ++ l.filter (fun key => compare last key == .lt) = l := by
  induction l generalizing n with
  | nil => simp at h
  | cons a l ih =>
    obtain ⟨ha, hl⟩ := List.pairwise_cons.1 hl
    cases n with
    | zero => simp at h
    | succ n =>
      rw [List.take_succ_cons] at h ⊢
      by_cases hnil : l.take n = []
      · rw [hnil] at h ⊢
        simp only [List.getLast?_singleton, Option.some.injEq] at h
        subst h
        have hall : ∀ b ∈ l, (compare a b == .lt) = true := fun b hb => by simpa using ha b hb
        simp [List.filter_eq_self.2 hall]
      · have hlast : (l.take n).getLast? = some last := by
          rw [List.getLast?_cons_of_ne_nil hnil] at h
          exact h
        have hmem : last ∈ l := List.mem_of_mem_take (List.mem_of_getLast? hlast)
        have hnot : (compare last a == .lt) = false := by
          rw [beq_eq_false_iff_ne]
          intro hlt
          have := Std.TransCmp.lt_trans (ha last hmem) hlt
          simp at this
        simp [hnot, ih hl hlast]

/-- The range behind a key of a range is that part of the range. -/
theorem filter_inRange_behind {keys : List String} {stem last : String} {after : Option String}
    (hlast : inRange stem after last = true) :
    keys.filter (inRange stem (some last)) =
      (keys.filter (inRange stem after)).filter fun key => compare last key == .lt := by
  rw [List.filter_filter]
  apply List.filter_congr
  intro key _
  by_cases h : compare last key = .lt
  · cases after with
    | none => simp [inRange, h]
    | some a =>
      simp only [inRange, Bool.and_eq_true, beq_iff_eq] at hlast
      simp [inRange, h, Std.TransCmp.lt_trans hlast.2 h]
  · have hb : (compare last key == .lt) = false := by simpa using h
    simp [inRange, hb]

namespace KeyScan

/-! ## What lies ahead -/

/-- A range a scan may be in: a stem, and behind a key that begins with it. -/
structure IsRange (range : String × Option String) : Prop where
  stem : IsStem range.1
  after : ∀ last, range.2 = some last → Key.startsWith last range.1 = true

/-- The keys of a range. -/
abbrev keysIn (keys : List String) (range : String × Option String) : List String :=
  keys.filter (inRange range.1 range.2)

/-- An upper bound of the pieces of work a range takes: each key is looked at once, each fetch
but one brings a key. -/
def rangeWork (keys : List String) (range : String × Option String) : Nat :=
  2 * (keysIn keys range).length + 1

/-- The ranges still to be fetched from: the one under way first. -/
def ahead (s : KeyScan) : List (String × Option String) :=
  s.resume.toList.map (fun r => (r.1, some r.2)) ++ s.stems.map (·, none)

/-- The keys still to be looked at, in a store of these keys. -/
def pending (keys : List String) (s : KeyScan) : List String :=
  s.page ++ s.ahead.flatMap (keysIn keys)

/-- The ranges ahead are ones a scan may be in. -/
def Sound (s : KeyScan) : Prop := ∀ r ∈ s.ahead, IsRange r

/-- An upper bound of the pieces of work left in a store of these keys. -/
def work (keys : List String) (s : KeyScan) : Nat :=
  s.page.length + (s.ahead.map (rangeWork keys)).sum

/-- The scan after it brought a key. -/
def remember (s : KeyScan) (key : String) : KeyScan :=
  if s.distinct then { s with seen := key :: s.seen } else s

/-- The keys a scan brings out of those it looks at. -/
def brings (s : KeyScan) : List String → List String
  | [] => []
  | key :: rest => if s.wants key then key :: (s.remember key).brings rest else s.brings rest

theorem brings_congr {s t : KeyScan} (hp : s.patterns = t.patterns) (hd : s.distinct = t.distinct)
    (hs : s.seen = t.seen) (l : List String) : s.brings l = t.brings l := by
  induction l generalizing s t with
  | nil => rfl
  | cons key rest ih =>
    have hwants : s.wants key = t.wants key := by simp [wants, hp, hd, hs]
    have hremember : (s.remember key).brings rest = (t.remember key).brings rest := by
      apply ih
      · simp only [remember]
        split <;> split <;> exact hp
      · simp only [remember]
        split <;> split <;> exact hd
      · simp only [remember, hd]
        split
        · simp [hs]
        · exact hs
    simp only [brings, hwants, hremember, ih hp hd hs]

/-! ## Fetching -/

/-- What is left of a range behind a page of it. -/
def following (stem : String) (page : List String) : List (String × Option String) :=
  if page.length = pageSize then page.getLast?.toList.map fun last => (stem, some last) else []

/-- A page of a range and what is left behind it hold the keys of the range, and fetching the
page was work. -/
theorem page_following {keys : List String}
    (hkeys : keys.Pairwise fun a b => compare a b = .lt) {r : String × Option String}
    (hr : IsRange r) :
    let page := (keysIn keys r).take pageSize
    (∀ x ∈ following r.1 page, IsRange x) ∧
      page ++ (following r.1 page).flatMap (keysIn keys) = keysIn keys r ∧
      page.length + ((following r.1 page).map (rangeWork keys)).sum < rangeWork keys r := by
  intro page
  have hsorted := hkeys.filter (inRange r.1 r.2)
  by_cases hfull : page.length = pageSize
  · obtain ⟨last, hlast⟩ : ∃ last, page.getLast? = some last := by
      cases h : page.getLast? with
      | some last => exact ⟨last, rfl⟩
      | none =>
        rw [List.getLast?_eq_none_iff] at h
        rw [h] at hfull
        exact absurd hfull (by decide)
    have hmem : last ∈ keysIn keys r := List.mem_of_mem_take (List.mem_of_getLast? hlast)
    have hin : inRange r.1 r.2 last = true := (List.mem_filter.1 hmem).2
    have hsplit : page ++ keysIn keys (r.1, some last) = keysIn keys r := by
      rw [keysIn, filter_inRange_behind hin]
      exact take_append_behind hsorted hlast
    have hfollowing : following r.1 page = [(r.1, some last)] := by
      simp [following, hfull, hlast]
    rw [hfollowing]
    refine ⟨?_, ?_, ?_⟩
    · intro x hx
      rw [List.mem_singleton] at hx
      subst hx
      refine ⟨hr.stem, fun l hl => ?_⟩
      cases hl
      simp only [inRange, Bool.and_eq_true] at hin
      exact hin.1
    · simpa using hsplit
    · have hlen := congrArg List.length hsplit
      rw [List.length_append, hfull] at hlen
      have hpos : pageSize = 256 := rfl
      simp only [List.map_cons, List.map_nil, List.sum_cons, List.sum_nil, rangeWork]
      omega
  · have hall : page = keysIn keys r := by
      simp only [page, List.length_take] at hfull
      exact List.take_of_length_le (by omega)
    have hfollowing : following r.1 page = [] := by simp [following, hfull]
    rw [hfollowing]
    refine ⟨by simp, by simpa using hall, ?_⟩
    rw [hall]
    simp only [List.map_nil, List.sum_nil, rangeWork]
    omega

theorem ahead_turn (s : KeyScan) (stem : String) (page : List String) :
    (s.turn stem page).ahead = following stem page ++ s.stems.map (·, none) := by
  simp only [ahead, turn, following, beq_iff_eq]
  split
  · cases page.getLast? <;> rfl
  · rfl

/-- A fetch from a store of these keys. -/
def Serves (keys : List String) (fetch : Fetch) : Prop :=
  ∀ r, IsRange r → fetch r.1 r.2 pageSize = .ok ((keysIn keys r).take pageSize)

/-- What one piece of work on a scan of a store comes to: a key is brought, one is passed
over or a page is fetched, or nothing is left. -/
inductive Advances (keys : List String) (s : KeyScan) : ScanEvent → KeyScan → Prop where
  | key (key : String) (rest : List String) (hpage : s.page = key :: rest)
      (hwants : s.wants key = true) :
      Advances keys s (.key key) ({ s with page := rest }.remember key)
  | pass (key : String) (rest : List String) (hpage : s.page = key :: rest)
      (hwants : s.wants key = false) : Advances keys s .skip { s with page := rest }
  | fetch (r : String × Option String) (stems : List String) (hpage : s.page = [])
      (hahead : s.ahead = r :: stems.map (·, none)) :
      Advances keys s .skip ({ s with stems := stems }.turn r.1 ((keysIn keys r).take pageSize))
  | done (hpage : s.page = []) (hahead : s.ahead = []) : Advances keys s .done s

variable {keys : List String} {fetch : Fetch} {s s' : KeyScan}

/-- One piece of work on a scan, by the store it is a scan of. -/
theorem advance_advances (hfetch : Serves keys fetch) (hs : s.Sound) :
    Advances keys s (s.advance fetch).1 (s.advance fetch).2 := by
  obtain ⟨patterns, stems, page, resume, distinct, seen⟩ := s
  cases page with
  | cons key rest =>
    simp only [advance]
    split
    · rename_i hwants
      exact .key key rest rfl hwants
    · rename_i hwants
      exact .pass key rest rfl (by simpa using hwants)
  | nil =>
    cases resume with
    | some r =>
      have hr := hs (r.1, some r.2) (by simp [ahead])
      simp only [advance, load, hfetch _ hr]
      exact .fetch (r.1, some r.2) stems rfl rfl
    | none =>
      cases stems with
      | cons stem rest =>
        have hr := hs (stem, none) (by simp [ahead])
        simp only [advance, load, hfetch _ hr]
        exact .fetch (stem, none) rest rfl rfl
      | nil => exact .done rfl rfl

/-! ## What one piece of work changes -/

@[simp]
theorem ahead_remember (s : KeyScan) (key : String) : (s.remember key).ahead = s.ahead := by
  unfold remember
  split <;> rfl

@[simp]
theorem page_remember (s : KeyScan) (key : String) : (s.remember key).page = s.page := by
  unfold remember
  split <;> rfl

theorem Advances.sound (hkeys : keys.Pairwise fun a b => compare a b = .lt) (hs : s.Sound)
    {event : ScanEvent} (h : Advances keys s event s') : s'.Sound := by
  cases h with
  | key key rest hpage hwants =>
    intro r hr
    rw [ahead_remember] at hr
    exact hs r hr
  | pass key rest hpage hwants => exact hs
  | fetch r stems hpage hahead =>
    have hr : IsRange r := hs r (by simp [hahead])
    intro x hx
    rw [ahead_turn, List.mem_append] at hx
    rcases hx with hx | hx
    · exact (page_following hkeys hr).1 x hx
    · exact hs x (by simp [hahead, hx])
  | done hpage hahead => exact hs

/-- A scan that remembers nothing goes on with the same patterns. -/
theorem Advances.keeps (hd : s.distinct = false) {event : ScanEvent} (h : Advances keys s event s') :
    s'.patterns = s.patterns ∧ s'.distinct = s.distinct := by
  cases h with
  | key => simp [remember, hd]
  | pass | fetch | done => exact ⟨rfl, rfl⟩

/-- How the keys still to be looked at change with an event: from `l` to `l'`. -/
def Looks (s : KeyScan) (l l' : List String) : ScanEvent → Prop
  | .key key => s.wants key = true ∧ l = key :: l'
  | .skip => l = l' ∨ ∃ key, s.wants key = false ∧ l = key :: l'
  | .done => l = [] ∧ l' = []
  | .failed _ => False

/-- The keys still to be looked at: one less where one was looked at. -/
theorem Advances.pending (hkeys : keys.Pairwise fun a b => compare a b = .lt) (hs : s.Sound)
    {event : ScanEvent} (h : Advances keys s event s') :
    s.Looks (s.pending keys) (s'.pending keys) event := by
  cases h with
  | key key rest hpage hwants =>
    refine ⟨hwants, ?_⟩
    simp only [KeyScan.pending, ahead_remember, page_remember, hpage, List.cons_append]
    rfl
  | pass key rest hpage hwants =>
    exact .inr ⟨key, hwants, by simp [KeyScan.pending, hpage, ahead]⟩
  | fetch r stems hpage hahead =>
    have hr : IsRange r := hs r (by simp [hahead])
    have hrange := (page_following hkeys hr).2.1
    refine .inl ?_
    rw [KeyScan.pending, KeyScan.pending, ahead_turn, hpage, hahead, List.flatMap_cons,
      List.flatMap_append]
    show [] ++ (keysIn keys r ++ _) = (keysIn keys r).take pageSize ++ (_ ++ _)
    rw [List.nil_append, ← List.append_assoc, hrange]
  | done hpage hahead => exact ⟨by simp [KeyScan.pending, hpage, hahead],
      by simp [KeyScan.pending, hpage, hahead]⟩

/-- Work gets less until nothing is left. -/
theorem Advances.work (hkeys : keys.Pairwise fun a b => compare a b = .lt) (hs : s.Sound)
    {event : ScanEvent} (h : Advances keys s event s') (he : event ≠ .done) :
    s'.work keys < s.work keys := by
  cases h with
  | key key rest hpage hwants =>
    simp only [KeyScan.work, ahead_remember, page_remember, hpage, List.length_cons]
    show rest.length + _ < rest.length + 1 + _
    exact Nat.add_lt_add_right (Nat.lt_succ_self _) _
  | pass key rest hpage hwants => simp [KeyScan.work, hpage, ahead]
  | fetch r stems hpage hahead =>
    have hr : IsRange r := hs r (by simp [hahead])
    have hwork := (page_following hkeys hr).2.2
    rw [KeyScan.work, KeyScan.work, ahead_turn, hpage, hahead, List.map_cons, List.map_append,
      List.sum_append, List.sum_cons]
    show ((keysIn keys r).take pageSize).length +
      (_ + ((stems.map fun stem => (stem, (none : Option String))).map (rangeWork keys)).sum) < 0 + _
    omega
  | done hpage hahead => exact absurd rfl he

/-! ## Whole scans -/

theorem brings_remember (s : KeyScan) (page : List String) (key : String) (l : List String) :
    ({ s with page := page }.remember key).brings l = (s.remember key).brings l := by
  apply brings_congr
  · unfold remember
    split <;> rfl
  · unfold remember
    split <;> rfl
  · unfold remember
    split <;> rfl

/-- How the keys a scan is to bring change with an event: from `l` to `l'`. -/
def Takes (l l' : List String) : ScanEvent → Prop
  | .key key => l = key :: l'
  | .skip => l = l'
  | .done => l = []
  | .failed _ => False

/-- One piece of work takes the first of the keys a scan is to bring, or none of them. -/
theorem Advances.brings (hkeys : keys.Pairwise fun a b => compare a b = .lt) (hs : s.Sound)
    {event : ScanEvent} (h : Advances keys s event s') :
    Takes (s.brings (s.pending keys)) (s'.brings (s'.pending keys)) event := by
  have hpending := h.pending hkeys hs
  cases h with
  | key key rest hpage hwants =>
    rw [hpending.2, KeyScan.brings, hwants]
    exact congrArg (key :: ·) (brings_remember s rest key _).symm
  | pass key rest hpage hwants =>
    have hsame : ∀ l, ({ s with page := rest } : KeyScan).brings l = s.brings l :=
      brings_congr rfl rfl rfl
    rcases hpending with hpending | ⟨k, hk, hpending⟩
    · rw [hpending, hsame]
      rfl
    · rw [hpending, KeyScan.brings, hk, hsame]
      rfl
  | fetch r stems hpage hahead =>
    have hsame : ∀ l, ({ s with stems := stems }.turn r.1 ((keysIn keys r).take pageSize)).brings l =
        s.brings l := brings_congr rfl rfl rfl
    rcases hpending with hpending | ⟨k, hk, hpending⟩
    · rw [hpending, hsame]
      rfl
    · rw [hpending, KeyScan.brings, hk, hsame]
      rfl
  | done hpage hahead =>
    rw [hpending.1]
    rfl

theorem isStem_stem {p : KeyPattern} (h : p.isExact = false) : IsStem p.stem := by
  rw [KeyPattern.stem, h]
  by_cases hl : KeyPattern.literals p.slots = []
  · left
    simp [hl, Key.join, Key.joinChars]
  · refine .inr ⟨Key.joinChars ((KeyPattern.literals p.slots).map String.toList), ?_⟩
    simp only [Bool.false_eq_true, ite_false, Key.join, List.map_append, String.toList_ofList]
    rw [Key.joinChars_append (by simpa using hl) (by simp)]
    simp [Key.joinChars]

theorem ranges_of_ne_nil {ps : List KeyPattern} (hne : ps ≠ [])
    (h : ∀ p ∈ ps, p.isEverything = false) : ranges ps = ps.map KeyPattern.stem := by
  have hany : ps.any KeyPattern.isEverything = false := by simpa using h
  simp [ranges, hne, hany]

theorem sound_start {ps : List KeyPattern} (hne : ps ≠ [])
    (h : ∀ p ∈ ps, p.isEverything = false ∧ p.isExact = false) : (start ps).Sound := by
  intro r hr
  have hranges := ranges_of_ne_nil hne fun p hp => (h p hp).1
  simp only [ahead, start, hranges, Option.toList_none, List.map_nil, List.nil_append,
    List.mem_map] at hr
  obtain ⟨stem, ⟨p, hp, rfl⟩, rfl⟩ := hr
  exact ⟨isStem_stem (h p hp).2, fun _ hl => by cases hl⟩

theorem pending_start {ps : List KeyPattern} (hne : ps ≠ [])
    (h : ∀ p ∈ ps, p.isEverything = false) (keys : List String) :
    (start ps).pending keys = ps.flatMap fun p => keys.filter (Key.startsWith · p.stem) := by
  have hin : ∀ stem, inRange stem none = (Key.startsWith · stem) := by
    intro stem
    funext key
    simp [inRange]
  simp only [pending, ahead, start, ranges_of_ne_nil hne h, Option.toList_none, List.map_nil,
    List.nil_append, List.flatMap_map, keysIn, hin]

/-- A scan that remembers nothing brings every key it looks at that it wants. -/
theorem brings_eq_filter {s : KeyScan} (hd : s.distinct = false) (l : List String) :
    s.brings l = l.filter fun key => s.patterns.isEmpty || s.patterns.any (·.accepts key) := by
  induction l with
  | nil => rfl
  | cons key l ih =>
    have hremember : s.remember key = s := by simp [remember, hd]
    simp only [brings, wants, hd, Bool.false_and, Bool.not_false, Bool.and_true, hremember, ih]
    split
    · rename_i h
      simp [h]
    · rename_i h
      simp [h]

/-- A scan with one pattern brings the keys it matches. -/
theorem brings_single {p : KeyPattern} (h : p.isEverything = false) (keys : List String) :
    (start [p]).brings ((start [p]).pending keys) = keys.filter p.accepts := by
  rw [brings_eq_filter (by simp [start, ranges, h]), pending_start (by simp) (by simpa using h)]
  simp only [start, List.isEmpty_cons, List.any_cons, List.any_nil, Bool.or_false,
    Bool.false_or, List.flatMap_cons, List.flatMap_nil, List.append_nil, List.filter_filter]
  apply List.filter_congr
  intro key _
  by_cases hp : p.accepts key = true
  · simp [hp, KeyPattern.startsWith_stem hp]
  · simp [hp]

theorem mem_brings_iff {s : KeyScan} {l : List String} {key : String} :
    key ∈ s.brings l ↔ key ∈ l ∧ s.wants key = true := by
  induction l generalizing s with
  | nil => simp [brings]
  | cons k l ih =>
    have hwants : ∀ j, (s.remember k).wants j = true ↔ s.wants j = true ∧
        (s.distinct = true → j ≠ k) := by
      intro j
      by_cases hd : s.distinct = true
      · simp only [remember, hd, ite_true, wants, Bool.true_and, List.contains_cons,
          Bool.not_or, Bool.and_eq_true]
        simp only [Bool.not_eq_true', beq_eq_false_iff_ne]
        grind
      · simp [remember, hd]
    simp only [brings]
    split
    · rename_i hk
      rw [List.mem_cons, ih, hwants, List.mem_cons]
      constructor
      · rintro (rfl | ⟨hl, hw, -⟩)
        · exact ⟨.inl rfl, hk⟩
        · exact ⟨.inr hl, hw⟩
      · rintro ⟨rfl | hl, hw⟩
        · exact .inl rfl
        · by_cases hkey : key = k
          · exact .inl hkey
          · exact .inr ⟨hl, hw, fun _ => hkey⟩
    · rename_i hk
      rw [ih, List.mem_cons]
      constructor
      · rintro ⟨hl, hw⟩
        exact ⟨.inr hl, hw⟩
      · rintro ⟨rfl | hl, hw⟩
        · exact absurd hw hk
        · exact ⟨hl, hw⟩

/-- A scan that remembers its keys brings each of them once. -/
theorem nodup_brings {s : KeyScan} (hd : s.distinct = true) (l : List String) :
    (s.brings l).Nodup := by
  induction l generalizing s with
  | nil => exact List.nodup_nil
  | cons key l ih =>
    rw [brings]
    split
    · refine List.nodup_cons.2 ⟨fun hagain => ?_, ih (by simp [remember, hd])⟩
      have hwants := (mem_brings_iff.1 hagain).2
      simp [wants, remember, hd] at hwants
    · exact ih hd

/-- A scan with several patterns brings the keys that one of them matches. -/
theorem mem_brings_start {ps : List KeyPattern} (hne : ps ≠ [])
    (h : ∀ p ∈ ps, p.isEverything = false) {keys : List String} {key : String} :
    key ∈ (start ps).brings ((start ps).pending keys) ↔
      key ∈ keys ∧ ∃ p ∈ ps, p.accepts key = true := by
  rw [mem_brings_iff, pending_start hne h]
  have hwants : (start ps).wants key = true ↔ ∃ p ∈ ps, p.accepts key = true := by
    simp [wants, start, hne]
  rw [hwants]
  simp only [List.mem_flatMap, List.mem_filter]
  constructor
  · rintro ⟨⟨_, _, hkey, -⟩, hp⟩
    exact ⟨hkey, hp⟩
  · rintro ⟨hkey, p, hp, hacc⟩
    exact ⟨⟨p, hp, hkey, KeyPattern.startsWith_stem hacc⟩, p, hp, hacc⟩

/-- A fresh scan has so much work at most. -/
theorem work_start_le (ps : List KeyPattern) (keys : List String) :
    (start ps).work keys ≤ (start ps).stems.length * (2 * keys.length + 2) := by
  have hsum : ∀ stems : List String,
      ((stems.map fun stem => (stem, (none : Option String))).map (rangeWork keys)).sum ≤
        stems.length * (2 * keys.length + 2) := by
    intro stems
    induction stems with
    | nil => simp
    | cons stem stems ih =>
      have hlen : (keysIn keys (stem, none)).length ≤ keys.length := List.length_filter_le _ _
      rw [List.map_cons, List.map_cons, List.sum_cons, List.length_cons, Nat.add_one_mul]
      have hrange : rangeWork keys (stem, none) ≤ 2 * keys.length + 1 := by
        unfold rangeWork
        omega
      omega
  have hwork : (start ps).work keys =
      (((start ps).stems.map fun stem => (stem, (none : Option String))).map (rangeWork keys)).sum := by
    simp [work, ahead, start]
  rw [hwork]
  exact hsum (start ps).stems

/-- The effort a fresh scan is given is more than its work. -/
theorem work_start_lt (ps : List KeyPattern) (keys : List String) :
    (start ps).work keys < (KeyStream.ofScan (start ps)).effort keys.length := by
  have hwork := work_start_le ps keys
  have heffort : (KeyStream.ofScan (start ps)).effort keys.length =
      0 + ((start ps).stems.length + 1) * (2 * keys.length + 2) + 2 := rfl
  rw [heffort, Nat.add_one_mul]
  omega

end KeyScan

end PropertyGraph
