/-
Scans of a store that is written to meanwhile. A scan holds nothing of the store: it keeps
a page of keys that were stored when it was fetched, and a cursor. Whatever happens to the
store between two pulls, the scan brings no key twice, none that was never stored, and
every key that was stored all the time (`KeyScan.changing_history`), over any store whose
pages are pages of what it holds at the moment (`KeyScan.Pages`).
-/
import PropertyGraph.Proofs.Scan

namespace PropertyGraph

namespace KeyScan

/-! ## Pages -/

/-- A key behind a cursor, or not before the stem where there is no cursor. -/
def Behind (stem : String) : Option String → String → Prop
  | some last, key => compare last key = .lt
  | none, key => compare key stem ≠ .lt

/-- A page of these keys: keys behind the cursor, in order. Of the keys the range of the stem
reaches it leaves out none before its last one, and none behind that where it is short. -/
structure IsPage (reach : String → String → Prop) (keys : List String) (stem : String)
    (after : Option String) (limit : Nat) (page : List String) : Prop where
  length_le : page.length ≤ limit
  ascending : page.Pairwise fun a b => compare a b = .lt
  stored : ∀ key ∈ page, key ∈ keys
  behind : ∀ key ∈ page, Behind stem after key
  before : ∀ key ∈ keys, reach stem key → Behind stem after key →
    ∀ last, page.getLast? = some last → compare key last = .lt → key ∈ page
  short : page.length < limit → ∀ key ∈ keys, reach stem key → Behind stem after key →
    ¬ ∀ k ∈ page, compare k key = .lt

/-- The last of an ascending page is not before the others. -/
theorem not_last_before {page : List String} (h : page.Pairwise fun a b => compare a b = .lt)
    {last : String} (hlast : page.getLast? = some last) {key : String} (hkey : key ∈ page) :
    key = last ∨ compare key last = .lt := by
  obtain ⟨front, rfl⟩ := List.getLast?_eq_some_iff.1 hlast
  rw [List.mem_append, List.mem_singleton] at hkey
  rcases hkey with hkey | rfl
  · exact .inr ((List.pairwise_append.1 h).2.2 key hkey last (by simp))
  · exact .inl rfl

/-- A key a page could have is on it, or comes behind all of a full one. -/
theorem IsPage.mem_or_behind {reach : String → String → Prop} {keys page : List String}
    {stem key : String} {after : Option String} {limit : Nat}
    (h : IsPage reach keys stem after limit page) (hkey : key ∈ keys) (hreach : reach stem key)
    (hbehind : Behind stem after key) :
    key ∈ page ∨ page.length = limit ∧ ∀ k ∈ page, compare k key = .lt := by
  by_cases hmem : key ∈ page
  · exact .inl hmem
  · have hlater : ∀ k ∈ page, compare k key = .lt := by
      cases hlast : page.getLast? with
      | none =>
        rw [List.getLast?_eq_none_iff.1 hlast]
        exact fun k hk => absurd hk (by simp)
      | some last =>
        have hbefore : compare last key = .lt := by
          cases hcmp : compare key last with
          | lt => exact absurd (h.before key hkey hreach hbehind last hlast hcmp) hmem
          | eq =>
            rw [Std.LawfulEqOrd.compare_eq_iff_eq] at hcmp
            exact absurd (hcmp ▸ List.mem_of_getLast? hlast) hmem
          | gt => exact Std.OrientedCmp.lt_of_gt hcmp
        intro k hk
        rcases not_last_before h.ascending hlast hk with rfl | hk
        · exact hbefore
        · exact Std.TransCmp.lt_trans hk hbefore
    refine .inr ⟨?_, hlater⟩
    by_contra hne
    exact h.short (lt_of_le_of_ne h.length_le hne) key hkey hreach hbehind hlater

/-- The first of the sorted keys that pass a test, where the test is passed by keys behind the
cursor only and by all that the range reaches. -/
theorem isPage_take {reach : String → String → Prop} {keys : List String} {stem : String}
    {after : Option String} {p : String → Bool}
    (hkeys : keys.Pairwise fun a b => compare a b = .lt)
    (hbehind : ∀ key, p key = true → Behind stem after key)
    (hreach : ∀ key, reach stem key → Behind stem after key → p key = true) (limit : Nat) :
    IsPage reach keys stem after limit ((keys.filter p).take limit) := by
  have hsorted := hkeys.filter p
  have hcut := List.take_append_drop limit (keys.filter p)
  have hpage : ∀ key ∈ (keys.filter p).take limit, key ∈ keys ∧ p key = true := fun key hkey =>
    List.mem_filter.1 (List.mem_of_mem_take hkey)
  have hsplit : ∀ key ∈ keys, p key = true →
      key ∈ (keys.filter p).take limit ∨ key ∈ (keys.filter p).drop limit := by
    intro key hkey hp
    rw [← List.mem_append, hcut]
    exact List.mem_filter.2 ⟨hkey, hp⟩
  have hlater : ∀ k ∈ (keys.filter p).take limit, ∀ key ∈ (keys.filter p).drop limit,
      compare k key = .lt := by
    rw [← hcut, List.pairwise_append] at hsorted
    exact hsorted.2.2
  refine ⟨List.length_take_le _ _, hsorted.sublist (List.take_sublist _ _),
    fun key hkey => (hpage key hkey).1, fun key hkey => hbehind key (hpage key hkey).2, ?_, ?_⟩
  · intro key hkey hr hb last hlast hbefore
    refine (hsplit key hkey (hreach key hr hb)).resolve_right fun hdrop => ?_
    have := hlater last (List.mem_of_getLast? hlast) key hdrop
    have := Std.TransCmp.lt_trans hbefore this
    simp at this
  · intro hshort key hkey hr hb hall
    rcases hsplit key hkey (hreach key hr hb) with htake | hdrop
    · have := hall key htake
      simp at this
    · have := List.length_pos_of_mem hdrop
      rw [List.length_take] at hshort
      rw [List.length_drop] at this
      omega

section Stores

variable {ω : Type} (keysOf : ω → List String) (reach cursor : String → String → Prop)

/-- A fetch over a store that may be in any state: what it gives are pages of the keys of the
state it is called in, where it is asked for the start of a range or behind a cursor it has
given for that range. -/
structure Pages (fetch : ω → Fetch) : Prop where
  ordered : ∀ w, (keysOf w).Pairwise fun a b => compare a b = .lt
  not_before : ∀ {stem key : String}, reach stem key → compare key stem ≠ .lt
  isPage : ∀ {w : ω} {stem : String} {after : Option String} {page : List String},
    (∀ last, after = some last → cursor stem last) → fetch w stem after pageSize = .ok page →
    IsPage reach (keysOf w) stem after pageSize page ∧ ∀ key ∈ page, cursor stem key

end Stores

theorem inRange_iff {stem : String} {after : Option String} {key : String} :
    inRange stem after key = true ↔ Key.startsWith key stem = true ∧ Behind stem after key := by
  cases after with
  | none => simpa [inRange, Behind] using not_before_of_startsWith
  | some last => simp [inRange, Behind]

/-- The pages of a store in memory. -/
theorem pages_memory : Pages (fun m : Memory => m.entries.keys)
    (fun stem key => Key.startsWith key stem = true)
    (fun stem key => Key.startsWith key stem = true)
    (fun m stem after limit => .ok (m.page stem after limit)) where
  ordered m := m.entries.pairwise_keys
  not_before h := not_before_of_startsWith h
  isPage {m stem after page} hafter h := by
    cases h
    rw [m.page_eq _ hafter]
    refine ⟨isPage_take m.entries.pairwise_keys (fun key hkey => (inRange_iff.1 hkey).2)
      (fun key hkey hbehind => inRange_iff.2 ⟨hkey, hbehind⟩) _, fun key hkey => ?_⟩
    exact (inRange_iff.1 (List.mem_filter.1 (List.mem_of_mem_take hkey)).2).1

/-! ## One piece of work -/

/-- A scan with nothing left to do. -/
structure Spent (s : KeyScan) : Prop where
  page : s.page = []
  resume : s.resume = none
  stems : s.stems = []

/-- What a scan asks for next, and the ranges that then are left: more of the range under way, or
the start of the next one. -/
inductive Asks (s : KeyScan) : String → Option String → List String → Prop
  | more (stem last : String) (h : s.resume = some (stem, last)) : Asks s stem (some last) s.stems
  | start (stem : String) (stems : List String) (h : s.resume = none)
    (hstems : s.stems = stem :: stems) : Asks s stem none stems

/-- What one piece of work on a scan comes to, whatever its pages are fetched from. -/
inductive Works (fetch : Fetch) (s : KeyScan) : ScanEvent → KeyScan → Prop
  | bring (key : String) (rest : List String) (hpage : s.page = key :: rest)
    (hwants : s.wants key = true) : Works fetch s (.key key) ({ s with page := rest }.remember key)
  | pass (key : String) (rest : List String) (hpage : s.page = key :: rest)
    (hwants : s.wants key = false) : Works fetch s .skip { s with page := rest }
  | load (stem : String) (after : Option String) (stems page : List String) (hpage : s.page = [])
    (hasks : s.Asks stem after stems) (hfetch : fetch stem after pageSize = .ok page) :
    Works fetch s .skip ({ s with stems := stems }.turn stem page)
  | fail (stem : String) (after : Option String) (stems : List String) (err : Error)
    (hpage : s.page = []) (hasks : s.Asks stem after stems)
    (hfetch : fetch stem after pageSize = .error err) :
    Works fetch s (.failed err) { s with stems := [], resume := none }
  | done (h : s.Spent) : Works fetch s .done s

theorem Asks.advance {s : KeyScan} {stem : String} {after : Option String} {stems : List String}
    (hpage : s.page = []) (h : s.Asks stem after stems) (fetch : Fetch) :
    s.advance fetch = { s with stems := stems }.load fetch stem after := by
  obtain ⟨patterns, stems', page, resume, distinct, seen⟩ := s
  obtain rfl : page = [] := hpage
  cases h with
  | more last h =>
    obtain rfl : resume = some (stem, last) := h
    rfl
  | start _ hresume hstems =>
    obtain rfl : resume = none := hresume
    obtain rfl : stems' = stem :: stems := hstems
    rfl

/-- A scan with nothing left to do says so, and stays so. -/
theorem Spent.advance {s : KeyScan} (h : s.Spent) (fetch : Fetch) : s.advance fetch = (.done, s) := by
  obtain ⟨patterns, stems, page, resume, distinct, seen⟩ := s
  obtain ⟨rfl, rfl, rfl⟩ := h
  rfl

/-- A scan at the end of its page asks for another, or has nothing left to do. -/
theorem asks_or_spent {s : KeyScan} (hpage : s.page = []) :
    (∃ stem after stems, s.Asks stem after stems) ∨ s.Spent := by
  cases hresume : s.resume with
  | some r => exact .inl ⟨r.1, some r.2, s.stems, .more r.1 r.2 hresume⟩
  | none =>
    cases hstems : s.stems with
    | cons stem stems => exact .inl ⟨stem, none, stems, .start stem stems hresume hstems⟩
    | nil => exact .inr ⟨hpage, hresume, hstems⟩

theorem advance_works (fetch : Fetch) (s : KeyScan) :
    Works fetch s (s.advance fetch).1 (s.advance fetch).2 := by
  cases hpage : s.page with
  | cons key rest =>
    by_cases hwants : s.wants key = true
    · have hadvance : s.advance fetch = (.key key, { s with page := rest }.remember key) := by
        simp only [KeyScan.advance, hpage, hwants, remember, if_true]
      rw [hadvance]
      exact .bring key rest hpage hwants
    · have hadvance : s.advance fetch = (.skip, { s with page := rest }) := by
        simp only [KeyScan.advance, hpage, hwants, Bool.false_eq_true, if_false]
      rw [hadvance]
      exact .pass key rest hpage (by simpa using hwants)
  | nil =>
    obtain ⟨stem, after, stems, hasks⟩ | hspent := asks_or_spent hpage
    · rw [hasks.advance hpage]
      cases hfetch : fetch stem after pageSize with
      | ok page =>
        have hload : { s with stems := stems }.load fetch stem after =
            (.skip, { s with stems := stems }.turn stem page) := by
          rw [KeyScan.load, hfetch]
        rw [hload]
        exact .load stem after stems page hpage hasks hfetch
      | error err =>
        have hload : { s with stems := stems }.load fetch stem after =
            (.failed err, { s with stems := [], resume := none }) := by
          rw [KeyScan.load, hfetch]
        rw [hload]
        exact .fail stem after stems err hpage hasks hfetch
    · rw [hspent.advance]
      exact .done hspent

/-! ## What a scan has brought -/

/-- A key that some pattern matches; every key where there is no pattern. -/
def Matched (ps : List KeyPattern) (key : String) : Prop :=
  ps = [] ∨ ∃ p ∈ ps, p.accepts key = true

/-- Every key that matches is reached by one of the ranges that are visited. -/
theorem exists_range {ps : List KeyPattern} {key : String} (h : Matched ps key) :
    ∃ stem ∈ ranges ps, Key.startsWith key stem = true := by
  unfold ranges
  split
  · exact ⟨"", by simp, Key.startsWith_empty key⟩
  · rename_i hall
    rcases h with rfl | ⟨p, hp, haccepts⟩
    · simp at hall
    · exact ⟨p.stem, List.mem_map_of_mem hp, KeyPattern.startsWith_stem haccepts⟩

theorem wants_iff {s : KeyScan} {key : String} :
    s.wants key = true ↔ Matched s.patterns key ∧ (s.distinct = true → key ∉ s.seen) := by
  simp only [wants, Matched, Bool.and_eq_true, Bool.or_eq_true, List.isEmpty_iff, List.any_eq_true,
    Bool.not_eq_true', Bool.and_eq_false_iff, List.contains_eq_mem, decide_eq_false_iff_not]
  refine and_congr_right fun _ => ?_
  cases s.distinct <;> simp

/-- The keys an event brings. -/
def broughtBy : ScanEvent → List String
  | .key key => [key]
  | .skip | .done | .failed _ => []

theorem patterns_remember (s : KeyScan) (key : String) :
    (s.remember key).patterns = s.patterns := by
  unfold remember
  split <;> rfl

theorem distinct_remember (s : KeyScan) (key : String) :
    (s.remember key).distinct = s.distinct := by
  unfold remember
  split <;> rfl

theorem stems_remember (s : KeyScan) (key : String) : (s.remember key).stems = s.stems := by
  unfold remember
  split <;> rfl

theorem resume_remember (s : KeyScan) (key : String) : (s.remember key).resume = s.resume := by
  unfold remember
  split <;> rfl

/-- Where a full page ends, more may follow. -/
theorem resume_turn {s : KeyScan} {stem st last : String} {page : List String}
    (h : (s.turn stem page).resume = some (st, last)) :
    st = stem ∧ page.getLast? = some last ∧ page.length = pageSize := by
  simp only [turn, beq_iff_eq] at h
  split at h
  · rename_i hfull
    obtain ⟨l, hl, heq⟩ := Option.map_eq_some_iff.1 h
    cases heq
    exact ⟨rfl, hl, hfull⟩
  · cases h

section Changing

variable {ω : Type} {keysOf : ω → List String} {reach cursor : String → String → Prop}
  {fetch : ω → Fetch} {ps : List KeyPattern} {worlds : List ω} {came : List String}
  {s s' : KeyScan} {w : ω} {event : ScanEvent}

/-- Where one range is visited, what came and what is to come are in order. -/
structure InOrder (came : List String) (s : KeyScan) : Prop where
  ascending : (came ++ s.page).Pairwise fun a b => compare a b = .lt
  resume : ∀ stem last, s.resume = some (stem, last) →
    ∀ key ∈ came ++ s.page, compare last key ≠ .lt
  stems : s.stems = [] ∨
    ∃ stem, s.stems = [stem] ∧ came = [] ∧ s.page = [] ∧ s.resume = none

/-- A scan that has brought these keys, out of a store that has been in these states. -/
structure Brought (keysOf : ω → List String) (cursor : String → String → Prop)
    (ps : List KeyPattern) (worlds : List ω) (came : List String) (s : KeyScan) : Prop where
  patterns : s.patterns = ps
  distinct : s.distinct = decide (1 < (ranges ps).length)
  nodup : came.Nodup
  matched : ∀ key ∈ came, Matched ps key
  stored : ∀ key ∈ came ++ s.page, ∃ w ∈ worlds, key ∈ keysOf w
  within : ∀ key ∈ came ++ s.page, ∃ stem ∈ ranges ps, cursor stem key
  stems : ∀ stem ∈ s.stems, stem ∈ ranges ps
  resume : ∀ stem last, s.resume = some (stem, last) → stem ∈ ranges ps ∧ cursor stem last
  seen : s.distinct = true → ∀ key, key ∈ s.seen ↔ key ∈ came
  inOrder : s.distinct = false → InOrder came s

/-- Every key that was stored all the time, that some pattern matches and some range reaches, came
or is still to come. -/
def Covers (keysOf : ω → List String) (reach : String → String → Prop) (ps : List KeyPattern)
    (worlds : List ω) (came : List String) (s : KeyScan) : Prop :=
  ∀ key, Matched ps key → (∀ w ∈ worlds, key ∈ keysOf w) → ∀ stem ∈ ranges ps, reach stem key →
    stem ∈ s.stems ∨ (∃ last, s.resume = some (stem, last) ∧ compare last key = .lt) ∨
      key ∈ s.page ∨ key ∈ came

theorem brought_start (ps : List KeyPattern) (worlds : List ω) :
    Brought keysOf cursor ps worlds [] (start ps) where
  patterns := rfl
  distinct := rfl
  nodup := List.nodup_nil
  matched := by simp
  stored := by simp [start]
  within := by simp [start]
  stems _ hstem := hstem
  resume _ _ h := by cases h
  seen _ key := by simp [start]
  inOrder h := by
    refine ⟨by simp [start], fun _ _ h => (by cases h), ?_⟩
    have hlen : ¬ 1 < (ranges ps).length := by simpa [start] using h
    show ranges ps = [] ∨ ∃ stem, ranges ps = [stem] ∧ _
    cases hranges : ranges ps with
    | nil => exact .inl rfl
    | cons stem rest =>
      rw [hranges, List.length_cons] at hlen
      obtain rfl : rest = [] := List.length_eq_zero_iff.1 (by omega)
      exact .inr ⟨stem, rfl, rfl, rfl, rfl⟩

theorem covers_start (ps : List KeyPattern) (worlds : List ω) :
    Covers keysOf reach ps worlds [] (start ps) :=
  fun _ _ _ _ hstem _ => .inl hstem

/-- A scan is not concerned by what becomes of the store. -/
theorem Brought.change (h : Brought keysOf cursor ps worlds came s) (w : ω) :
    Brought keysOf cursor ps (worlds ++ [w]) came s :=
  { h with stored := fun key hkey =>
      let ⟨w', hw', hstored⟩ := h.stored key hkey
      ⟨w', List.mem_append_left _ hw', hstored⟩ }

theorem Covers.change (h : Covers keysOf reach ps worlds came s) (w : ω) :
    Covers keysOf reach ps (worlds ++ [w]) came s :=
  fun key hkey hstored => h key hkey fun w' hw' => hstored w' (List.mem_append_left _ hw')

/-- What is asked for next lies behind what came, where one range is visited. -/
theorem InOrder.behind (h : InOrder came s) {stem : String}
    {after : Option String} {stems : List String} (hasks : s.Asks stem after stems) {key : String}
    (hkey : Behind stem after key) : ∀ k ∈ came, compare k key = .lt := by
  cases hasks with
  | more last hresume =>
    intro k hk
    have hnot := h.resume stem last hresume k (List.mem_append_left _ hk)
    have hlast : compare last key = .lt := hkey
    cases hcmp : compare k last with
    | lt => exact Std.TransCmp.lt_trans hcmp hlast
    | eq =>
      rw [Std.LawfulEqOrd.compare_eq_iff_eq] at hcmp
      exact hcmp ▸ hlast
    | gt => exact absurd (Std.OrientedCmp.lt_of_gt hcmp) hnot
  | start _ _ hstems =>
    rcases h.stems with hnil | ⟨_, _, hcame, _⟩
    · rw [hnil] at hstems
      cases hstems
    · intro k hk
      rw [hcame] at hk
      cases hk

/-- One piece of work keeps the keys in order. -/
theorem InOrder.load (h : InOrder came s) (hpage : s.page = []) {stem : String}
    {after : Option String} {stems page keys : List String} (hasks : s.Asks stem after stems)
    (hp : IsPage reach keys stem after pageSize page) :
    InOrder came ({ s with stems := stems }.turn stem page) where
  ascending := by
    have hcame := h.ascending
    rw [hpage, List.append_nil] at hcame
    exact List.pairwise_append.2 ⟨hcame, hp.ascending,
      fun k hk key hkey => h.behind hasks (hp.behind key hkey) k hk⟩
  resume st last hresume := by
    obtain ⟨-, hlast, -⟩ := resume_turn hresume
    have hmem := List.mem_of_getLast? hlast
    intro key hkey hlt
    rcases List.mem_append.1 hkey with hkey | hkey
    · have hbefore := h.behind hasks (hp.behind last hmem) key hkey
      have := Std.TransCmp.lt_trans hlt hbefore
      simp at this
    · rcases not_last_before hp.ascending hlast hkey with rfl | hbefore
      · simp at hlt
      · have := Std.TransCmp.lt_trans hlt hbefore
        simp at this
  stems := by
    cases hasks with
    | more last hresume =>
      rcases h.stems with hnil | ⟨_, _, _, _, hnone⟩
      · exact .inl hnil
      · rw [hnone] at hresume
        cases hresume
    | start _ _ hstems =>
      rcases h.stems with hnil | ⟨_, hone, _⟩
      · rw [hnil] at hstems
        cases hstems
      · rw [hone] at hstems
        exact .inl (List.cons.inj hstems).2.symm

theorem InOrder.bring {key : String} {rest : List String} (h : InOrder came s)
    (hpage : s.page = key :: rest) :
    InOrder (came ++ [key]) ({ s with page := rest }.remember key) := by
  have hsame : came ++ [key] ++ rest = came ++ s.page := by rw [hpage, List.append_assoc]; rfl
  refine ⟨?_, ?_, .inl ?_⟩
  · rw [page_remember, hsame]
    exact h.ascending
  · rw [page_remember, hsame, resume_remember]
    exact h.resume
  · rw [stems_remember]
    exact h.stems.resolve_right fun ⟨_, _, _, hnil, _⟩ => by rw [hnil] at hpage; cases hpage

theorem InOrder.pass {key : String} {rest : List String} (h : InOrder came s)
    (hpage : s.page = key :: rest) : InOrder came { s with page := rest } := by
  have hsub : (came ++ rest).Sublist (came ++ s.page) := by
    rw [hpage]
    exact (List.sublist_cons_self _ _).append_left _
  exact ⟨h.ascending.sublist hsub, fun st last hst k hk => h.resume st last hst k (hsub.subset hk),
    .inl (h.stems.resolve_right fun ⟨_, _, _, hnil, _⟩ => by rw [hnil] at hpage; cases hpage)⟩

/-- What a page is asked for is a range to visit, and a cursor in it that the store has given. -/
theorem Brought.asks (h : Brought keysOf cursor ps worlds came s) {stem : String}
    {after : Option String} {stems : List String} (hasks : s.Asks stem after stems) :
    stem ∈ ranges ps ∧ (∀ st ∈ stems, st ∈ ranges ps) ∧
      ∀ last, after = some last → cursor stem last := by
  cases hasks with
  | more last hresume =>
    refine ⟨(h.resume stem last hresume).1, h.stems, ?_⟩
    rintro _ ⟨⟩
    exact (h.resume stem last hresume).2
  | start _ _ hstems =>
    have hall := h.stems
    rw [hstems] at hall
    exact ⟨hall stem (by simp), fun st hst => hall st (List.mem_cons_of_mem _ hst),
      fun _ hlast => by cases hlast⟩

/-- One piece of work keeps what is known of the keys that came. -/
theorem Works.brought (hpages : Pages keysOf reach cursor fetch) (hw : w ∈ worlds)
    (h : Brought keysOf cursor ps worlds came s) (hworks : Works (fetch w) s event s') :
    Brought keysOf cursor ps worlds (came ++ broughtBy event) s' := by
  cases hworks with
  | bring key rest hpage hwants =>
    obtain ⟨hmatched, hfresh⟩ := wants_iff.1 hwants
    have hsame : came ++ [key] ++ rest = came ++ s.page := by rw [hpage, List.append_assoc]; rfl
    have hnew : key ∉ came := by
      intro hkey
      cases hd : s.distinct with
      | true => exact hfresh hd ((h.seen hd key).2 hkey)
      | false =>
        have hascending := (h.inOrder hd).ascending
        rw [List.pairwise_append, hpage] at hascending
        have := hascending.2.2 key hkey key (by simp)
        simp at this
    refine ⟨(patterns_remember _ _).trans h.patterns, (distinct_remember _ _).trans h.distinct,
      List.nodup_append.2 ⟨h.nodup, List.nodup_singleton key, ?_⟩, ?_, ?_, ?_, ?_, ?_, ?_, ?_⟩
    · rintro a ha b hb rfl
      exact hnew (List.mem_singleton.1 hb ▸ ha)
    · intro k hk
      rcases List.mem_append.1 hk with hk | hk
      · exact h.matched k hk
      · rw [List.mem_singleton.1 hk, ← h.patterns]
        exact hmatched
    · rw [page_remember, broughtBy, hsame]
      exact h.stored
    · rw [page_remember, broughtBy, hsame]
      exact h.within
    · rw [stems_remember]
      exact h.stems
    · rw [resume_remember]
      exact h.resume
    · intro hd k
      rw [distinct_remember] at hd
      have hd' : s.distinct = true := hd
      have hseen : ({ s with page := rest }.remember key).seen = key :: s.seen := by
        simp [remember, hd']
      rw [hseen, List.mem_cons, h.seen hd', broughtBy, List.mem_append, List.mem_singleton, or_comm]
    · intro hd
      rw [distinct_remember] at hd
      exact (h.inOrder hd).bring hpage
  | pass key rest hpage hwants =>
    rw [broughtBy, List.append_nil]
    have hsub : ∀ k ∈ came ++ rest, k ∈ came ++ s.page := by
      rw [hpage]
      exact ((List.sublist_cons_self _ _).append_left _).subset
    exact ⟨h.patterns, h.distinct, h.nodup, h.matched, fun k hk => h.stored k (hsub k hk),
      fun k hk => h.within k (hsub k hk), h.stems, h.resume, h.seen,
      fun hd => (h.inOrder hd).pass hpage⟩
  | load stem after stems page hpage hasks hfetch =>
    obtain ⟨hstem, hstems, hafter⟩ := h.asks hasks
    obtain ⟨hp, hcursor⟩ := hpages.isPage hafter hfetch
    rw [broughtBy, List.append_nil]
    refine ⟨h.patterns, h.distinct, h.nodup, h.matched, ?_, ?_, hstems, ?_, h.seen,
      fun hd => (h.inOrder hd).load hpage hasks hp⟩
    · intro key hkey
      rcases List.mem_append.1 hkey with hkey | hkey
      · exact h.stored key (List.mem_append_left _ hkey)
      · exact ⟨w, hw, hp.stored key hkey⟩
    · intro key hkey
      rcases List.mem_append.1 hkey with hkey | hkey
      · exact h.within key (List.mem_append_left _ hkey)
      · exact ⟨stem, hstem, hcursor key hkey⟩
    · intro st last hresume
      obtain ⟨rfl, hlast, -⟩ := resume_turn hresume
      exact ⟨hstem, hcursor last (List.mem_of_getLast? hlast)⟩
  | fail stem after stems err hpage hasks hfetch =>
    rw [broughtBy, List.append_nil]
    exact { h with
      stems := fun _ hstem => by cases hstem
      resume := fun _ _ hresume => by cases hresume
      inOrder := fun hd => ⟨(h.inOrder hd).ascending, fun _ _ hresume => (by cases hresume), .inl rfl⟩ }
  | done =>
    rw [broughtBy, List.append_nil]
    exact h

/-- One piece of work loses no key, unless a fetch fails. -/
theorem Works.covers (hpages : Pages keysOf reach cursor fetch) (hw : w ∈ worlds)
    (h : Brought keysOf cursor ps worlds came s) (hcovers : Covers keysOf reach ps worlds came s)
    (hworks : Works (fetch w) s event s') (hevent : ∀ err, event ≠ .failed err) :
    Covers keysOf reach ps worlds (came ++ broughtBy event) s' := by
  intro key hmatched hstored stem hstem hreach
  have hplace := hcovers key hmatched hstored stem hstem hreach
  cases hworks with
  | bring k rest hpage hwants =>
    rw [stems_remember, resume_remember, page_remember, broughtBy, List.mem_append,
      List.mem_singleton]
    rw [hpage, List.mem_cons] at hplace
    rcases hplace with hstems | hresume | (hkey | hrest) | hcame
    · exact .inl hstems
    · exact .inr (.inl hresume)
    · exact .inr (.inr (.inr (.inr hkey)))
    · exact .inr (.inr (.inl hrest))
    · exact .inr (.inr (.inr (.inl hcame)))
  | pass k rest hpage hwants =>
    have hskipped : key = k → key ∈ came := by
      rintro rfl
      have hseen : s.distinct = true ∧ key ∈ s.seen := by
        by_contra hnot
        rw [Bool.eq_false_iff] at hwants
        exact hwants (wants_iff.2 ⟨h.patterns ▸ hmatched, fun hd hs => hnot ⟨hd, hs⟩⟩)
      exact (h.seen hseen.1 key).1 hseen.2
    rw [broughtBy, List.append_nil]
    rw [hpage, List.mem_cons] at hplace
    rcases hplace with hstems | hresume | (hkey | hrest) | hcame
    · exact .inl hstems
    · exact .inr (.inl hresume)
    · exact .inr (.inr (.inr (hskipped hkey)))
    · exact .inr (.inr (.inl hrest))
    · exact .inr (.inr (.inr hcame))
  | load st after stems page hpage hasks hfetch =>
    obtain ⟨hp, -⟩ := hpages.isPage (h.asks hasks).2.2 hfetch
    -- A key the range under way reaches is on the page, or the page is full and ends before it.
    have hfound : ∀ {after}, IsPage reach (keysOf w) stem after pageSize page →
        Behind stem after key → key ∈ page ∨
          ∃ last, ({ s with stems := stems }.turn stem page).resume = some (stem, last) ∧
            compare last key = .lt := by
      intro after hp hbehind
      refine (hp.mem_or_behind (hstored w hw) hreach hbehind).imp_right fun ⟨hfull, hlater⟩ => ?_
      have hne : page ≠ [] := by
        rintro rfl
        cases hfull
      refine ⟨page.getLast hne, ?_, hlater _ (List.getLast_mem hne)⟩
      simp [turn, hfull, List.getLast?_eq_getLast_of_ne_nil hne]
    rw [broughtBy, List.append_nil]
    show stem ∈ stems ∨ (∃ last, _ ∧ _) ∨ key ∈ page ∨ key ∈ came
    cases hasks with
    | more last hresume =>
      rcases hplace with hstems | ⟨last', hresume', hlast⟩ | hkey | hkey
      · exact .inl hstems
      · rw [hresume] at hresume'
        cases hresume'
        rcases hfound hp hlast with hkey | hresume
        · exact .inr (.inr (.inl hkey))
        · exact .inr (.inl hresume)
      · rw [hpage] at hkey
        cases hkey
      · exact .inr (.inr (.inr hkey))
    | start _ hresume hstems =>
      rcases hplace with hstem | ⟨last', hresume', hlast⟩ | hkey | hkey
      · rw [hstems, List.mem_cons] at hstem
        rcases hstem with rfl | hstem
        · rcases hfound hp (hpages.not_before hreach) with hkey | hresume
          · exact .inr (.inr (.inl hkey))
          · exact .inr (.inl hresume)
        · exact .inl hstem
      · rw [hresume] at hresume'
        cases hresume'
      · rw [hpage] at hkey
        cases hkey
      · exact .inr (.inr (.inr hkey))
  | fail st after stems err => exact absurd rfl (hevent err)
  | done =>
    rw [broughtBy, List.append_nil]
    exact hplace

/-- Where nothing is left to do, every key that was stored all the time came. -/
theorem Covers.mem_came (h : Covers keysOf reach ps worlds came s) (hspent : s.Spent) {key : String}
    (hmatched : Matched ps key) (hstored : ∀ w ∈ worlds, key ∈ keysOf w) {stem : String}
    (hstem : stem ∈ ranges ps) (hreach : reach stem key) : key ∈ came := by
  rcases h key hmatched hstored stem hstem hreach with h | ⟨_, h, _⟩ | h | h
  · rw [hspent.stems] at h
    cases h
  · rw [hspent.resume] at h
    cases h
  · rw [hspent.page] at h
    cases h
  · exact h

/-- Where at most one range is visited, the keys come in order. -/
theorem Brought.ascending (h : Brought keysOf cursor ps worlds came s) (hps : ps.length ≤ 1) :
    came.Pairwise fun a b => compare a b = .lt := by
  have hranges : (ranges ps).length ≤ 1 := by
    unfold ranges
    split
    · exact Nat.le_refl 1
    · rwa [List.length_map]
  have hd : s.distinct = false := by
    rw [h.distinct, decide_eq_false_iff_not]
    omega
  exact (h.inOrder hd).ascending.sublist (List.sublist_append_left _ _)

/-! ## Coming to an end -/

/-- An upper bound of the pieces of work left while the store holds these keys. -/
def left (keys : List String) (s : KeyScan) : Nat :=
  s.page.length +
    (s.resume.elim 0 fun r => 2 * (keys.filter fun key => compare r.2 key == .lt).length + 1) +
    s.stems.length * (2 * keys.length + 2)

theorem length_le_of_ascending {l keys : List String}
    (hl : l.Pairwise fun a b => compare a b = .lt) (hsub : ∀ key ∈ l, key ∈ keys) :
    l.length ≤ keys.length := by
  have hnodup : l.Nodup := hl.imp fun hab heq => by
    subst heq
    simp at hab
  exact (hnodup.subperm hsub).length_le

/-- A page, and the keys behind its last one, are no more than the keys that pass a test which all
keys behind the cursor pass. -/
theorem IsPage.length_add_le {keys page : List String} {stem last : String} {limit : Nat}
    {after : Option String} (h : IsPage reach keys stem after limit page)
    (hkeys : keys.Pairwise fun a b => compare a b = .lt) (hlast : page.getLast? = some last)
    {within : List String} (hpage : ∀ key ∈ page, key ∈ within)
    (hbehind : ∀ key ∈ keys, compare last key = .lt → key ∈ within) :
    page.length + (keys.filter fun key => compare last key == .lt).length ≤ within.length := by
  rw [← List.length_append]
  refine length_le_of_ascending (List.pairwise_append.2 ⟨h.ascending, hkeys.filter _, ?_⟩) ?_
  · intro a ha b hb
    have hlater : compare last b = .lt := eq_of_beq (List.mem_filter.1 hb).2
    rcases not_last_before h.ascending hlast ha with rfl | hbefore
    · exact hlater
    · exact Std.TransCmp.lt_trans hbefore hlater
  · intro key hkey
    rcases List.mem_append.1 hkey with hkey | hkey
    · exact hpage key hkey
    · obtain ⟨hmem, hlater⟩ := List.mem_filter.1 hkey
      exact hbehind key hmem (eq_of_beq hlater)

/-- Looking through a page, and going on behind it, is less work than the page was asked for. -/
theorem IsPage.left_turn {keys page : List String} {stem : String} {after : Option String}
    (h : IsPage reach keys stem after pageSize page)
    (hkeys : keys.Pairwise fun a b => compare a b = .lt) (within : List String) (hpage : ∀ key ∈ page, key ∈ within)
    (hbehind : ∀ last ∈ page, ∀ key ∈ keys, compare last key = .lt → key ∈ within) :
    (s.turn stem page).left keys ≤ 2 * within.length + s.stems.length * (2 * keys.length + 2) := by
  have hlen := length_le_of_ascending h.ascending hpage
  show page.length + (s.turn stem page).resume.elim 0 _ + s.stems.length * _ ≤ _
  cases hresume : (s.turn stem page).resume with
  | none =>
    rw [Option.elim_none]
    omega
  | some r =>
    have hresume : (s.turn stem page).resume = some (r.1, r.2) := hresume
    obtain ⟨-, hlast, hfull⟩ := resume_turn hresume
    have hadd := h.length_add_le hkeys hlast hpage (hbehind r.2 (List.mem_of_getLast? hlast))
    have hsize : pageSize = 256 := rfl
    rw [Option.elim_some]
    omega

/-- Work gets less until nothing is left, as long as the store stays as it is. -/
theorem Works.left (hpages : Pages keysOf reach cursor fetch)
    (h : Brought keysOf cursor ps worlds came s) (hworks : Works (fetch w) s event s')
    (hevent : event ≠ .done) : s'.left (keysOf w) < s.left (keysOf w) := by
  cases hworks with
  | bring key rest hpage hwants =>
    simp only [KeyScan.left, hpage, page_remember, resume_remember, stems_remember, List.length_cons]
    omega
  | pass key rest hpage hwants =>
    simp only [KeyScan.left, hpage, List.length_cons]
    omega
  | load stem after stems page hpage hasks hfetch =>
    obtain ⟨hp, -⟩ := hpages.isPage (h.asks hasks).2.2 hfetch
    cases hasks with
    | more last hresume =>
      have hturn := hp.left_turn (s := s) (hpages.ordered w)
        ((keysOf w).filter fun key => compare last key == .lt)
        (fun key hkey => List.mem_filter.2 ⟨hp.stored key hkey, beq_iff_eq.2 (hp.behind key hkey)⟩)
        (fun last' hlast' key hkey hlater => List.mem_filter.2 ⟨hkey,
          beq_iff_eq.2 (Std.TransCmp.lt_trans (hp.behind last' hlast') hlater)⟩)
      have hleft : s.left (keysOf w) =
          2 * ((keysOf w).filter fun key => compare last key == .lt).length + 1 +
            s.stems.length * (2 * (keysOf w).length + 2) := by
        simp [KeyScan.left, hpage, hresume]
      rw [hleft]
      exact Nat.lt_of_le_of_lt hturn (by omega)
    | start _ hresume hstems =>
      have hturn : _ ≤ 2 * (keysOf w).length + stems.length * (2 * (keysOf w).length + 2) :=
        hp.left_turn (s := { s with stems := stems }) (hpages.ordered w) _ hp.stored
          fun _ _ key hkey _ => hkey
      have hleft : s.left (keysOf w) = (stems.length + 1) * (2 * (keysOf w).length + 2) := by
        simp [KeyScan.left, hpage, hresume, hstems]
      rw [hleft, Nat.add_one_mul]
      exact Nat.lt_of_le_of_lt hturn (by omega)
  | fail stem after stems err hpage hasks hfetch =>
    cases hasks with
    | more last hresume =>
      simp only [KeyScan.left, hpage, hresume, Option.elim_none, Option.elim_some, List.length_nil,
        Nat.zero_mul]
      omega
    | start _ hresume hstems =>
      simp only [KeyScan.left, hpage, hresume, hstems, Option.elim_none, List.length_nil,
        List.length_cons, Nat.zero_mul, Nat.add_one_mul]
      omega
  | done => exact absurd rfl hevent

end Changing

end KeyScan

end PropertyGraph
