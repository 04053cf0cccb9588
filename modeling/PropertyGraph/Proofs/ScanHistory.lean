/-
What a stream of keys answers over its whole life, while calls on the store come between
the pulls (`KeyScan.changing_history`): no key twice, no key that was not stored since the
opening, every key that was stored all the time, in order where there is at most one
pattern; and behind the end, or a failure, nothing but the end.
-/
import PropertyGraph.Proofs.ChangingScan

namespace PropertyGraph

/-! ## Pulls and calls in turn -/

/-- What happens while a stream is open: a call on the store, or a pull. -/
inductive HostAct (κ : Type) where
  | call (c : κ)
  /-- Stops where the stream answers, or after one piece of work more than the budget. -/
  | pull (budget : Nat)

/-- What the store is after an act, and what a pull was answered. -/
structure Moment (ω : Type) where
  world : ω
  answer : Option ScanEvent

/-- A call that writes to a store. -/
inductive WriteCall where
  | put (key : String) (value : Blob)
  | update (key : String) (value : Blob)
  | create (key : String) (value : Blob)
  | delete (key : String)

/-- The store after a call, which may have failed. -/
def WriteCall.effect {σ : Type} [Backend σ] : WriteCall → σ → σ
  | .put key value, s => ((Backend.put key value).run.run s).2
  | .update key value, s => ((Backend.update key value).run.run s).2
  | .create key value, s => ((Backend.create key value).run.run s).2
  | .delete key, s => ((Backend.delete key).run.run s).2

namespace KeyScan

variable {ω κ τ : Type}

/-- Works on a stream until it answers, within a budget. -/
def untilAnswer (work : τ → StateM ω (ScanEvent × τ)) : (budget : Nat) → τ → StateM ω (ScanEvent × τ)
  | 0, s => work s
  | budget + 1, s => do
    let (event, rest) ← work s
    if event = .skip then untilAnswer work budget rest else return (event, rest)

/-- The moment of an act, and what the store and the stream are then. -/
def act (effect : κ → ω → ω) (work : τ → StateM ω (ScanEvent × τ)) :
    HostAct κ → ω × τ → Moment ω × ω × τ
  | .call c, (w, s) => (⟨effect c w, none⟩, effect c w, s)
  | .pull budget, (w, s) =>
    let answered := (untilAnswer work budget s).run w
    (⟨answered.2, some answered.1.1⟩, answered.2, answered.1.2)

/-- The moments of some acts. -/
def moments (effect : κ → ω → ω) (work : τ → StateM ω (ScanEvent × τ)) :
    List (HostAct κ) → ω × τ → List (Moment ω)
  | [], _ => []
  | a :: acts, at_ => (act effect work a at_).1 :: moments effect work acts (act effect work a at_).2

/-- The store and the stream after some acts. -/
def afterwards (effect : κ → ω → ω) (work : τ → StateM ω (ScanEvent × τ))
    (acts : List (HostAct κ)) (at_ : ω × τ) : ω × τ :=
  acts.foldl (fun at_ a => (act effect work a at_).2) at_

/-- The keys that came. -/
def cameIn (ms : List (Moment ω)) : List String :=
  ms.flatMap fun m => (m.answer.map broughtBy).getD []

/-- What a stream of keys owes whoever pulls it, by the moments since it was opened. -/
structure Faithful (keysOf : ω → List String) (fetch : ω → Fetch) (ps : List KeyPattern)
    (opening : ω) (ms : List (Moment ω)) : Prop where
  /-- No key comes twice. -/
  nodup : (cameIn ms).Nodup
  /-- A key that comes matches, and was stored at some moment since the opening. -/
  sound : ∀ before now key later, ms = before ++ ⟨now, some (.key key)⟩ :: later →
    Matched ps key ∧ ∃ w ∈ opening :: before.map Moment.world, key ∈ keysOf w
  /-- At the end, a matching key that was stored all the time has come. -/
  complete : ∀ before now later, ms = before ++ ⟨now, some .done⟩ :: later →
    (∀ m ∈ before, ∀ err, m.answer ≠ some (.failed err)) → ∀ key, Matched ps key →
    (∀ w ∈ opening :: before.map Moment.world, key ∈ keysOf w) → key ∈ cameIn before
  ascending : ps.length ≤ 1 → (cameIn ms).Pairwise fun a b => compare a b = .lt
  /-- Behind the end there is only the end. -/
  ended : ∀ before now later, ms = before ++ ⟨now, some .done⟩ :: later →
    ∀ m ∈ later, ∀ answer, m.answer = some answer → answer = .done
  /-- An error is one of a fetch, and behind it there is only the end. -/
  failed : ∀ before now err later, ms = before ++ ⟨now, some (.failed err)⟩ :: later →
    (∃ stem after, fetch now stem after pageSize = .error err) ∧
      ∀ m ∈ later, ∀ answer, m.answer = some answer → answer = .done

/-! ## A pull -/

/-- The work on a scan over pages of the present state. -/
def workOn (fetch : ω → Fetch) (s : KeyScan) : StateM ω (ScanEvent × KeyScan) :=
  fun w => (s.advance (fetch w), w)

/-- What some pieces of work come to, of which only the last may bring something. -/
inductive Answers (fetch : Fetch) : KeyScan → ScanEvent → KeyScan → Prop
  | last {s s' : KeyScan} {event : ScanEvent} (h : Works fetch s event s') :
    Answers fetch s event s'
  | more {s s₁ s' : KeyScan} {event : ScanEvent} (h : Works fetch s .skip s₁)
    (hrest : Answers fetch s₁ event s') : Answers fetch s event s'

theorem untilAnswer_run (fetch : ω → Fetch) (budget : Nat) (s : KeyScan) (w : ω) :
    ((untilAnswer (workOn fetch) budget s).run w).2 = w ∧
      Answers (fetch w) s ((untilAnswer (workOn fetch) budget s).run w).1.1
        ((untilAnswer (workOn fetch) budget s).run w).1.2 := by
  induction budget generalizing s with
  | zero => exact ⟨rfl, .last (advance_works (fetch w) s)⟩
  | succ budget ih =>
    have hrun : (untilAnswer (workOn fetch) (budget + 1) s).run w =
        (if (s.advance (fetch w)).1 = .skip then untilAnswer (workOn fetch) budget (s.advance (fetch w)).2
          else pure (s.advance (fetch w)) : StateM ω _).run w := rfl
    have hworks := advance_works (fetch w) s
    rw [hrun]
    split
    · rename_i hskip
      rw [hskip] at hworks
      exact ⟨(ih _).1, .more hworks (ih _).2⟩
    · exact ⟨rfl, .last hworks⟩

section Pull

variable {keysOf : ω → List String} {reach cursor : String → String → Prop}
  {fetch : ω → Fetch} {ps : List KeyPattern} {worlds : List ω} {came : List String}
  {s s' : KeyScan} {w : ω} {event : ScanEvent}

theorem Answers.brought (hpages : Pages keysOf reach cursor fetch) (hw : w ∈ worlds)
    (h : Brought keysOf cursor ps worlds came s) (ha : Answers (fetch w) s event s') :
    Brought keysOf cursor ps worlds (came ++ broughtBy event) s' := by
  induction ha with
  | last hworks => exact hworks.brought hpages hw h
  | more hworks _ ih =>
    have h₁ := hworks.brought hpages hw h
    rw [broughtBy, List.append_nil] at h₁
    exact ih h₁

theorem Answers.covers (hpages : Pages keysOf reach cursor fetch) (hw : w ∈ worlds)
    (h : Brought keysOf cursor ps worlds came s) (hcovers : Covers keysOf reach ps worlds came s)
    (ha : Answers (fetch w) s event s') (hevent : ∀ err, event ≠ .failed err) :
    Covers keysOf reach ps worlds (came ++ broughtBy event) s' := by
  induction ha with
  | last hworks => exact hworks.covers hpages hw h hcovers hevent
  | more hworks _ ih =>
    have h₁ := hworks.brought hpages hw h
    have hcovers₁ := hworks.covers hpages hw h hcovers (by simp)
    rw [broughtBy, List.append_nil] at h₁ hcovers₁
    exact ih h₁ hcovers₁ hevent

/-- After the end, or a failure, nothing is left to do. -/
theorem Answers.spent {fetch : Fetch} (ha : Answers fetch s event s') :
    (event = .done → s'.Spent) ∧ ∀ err, event = .failed err →
      s'.Spent ∧ ∃ stem after, fetch stem after pageSize = .error err := by
  induction ha with
  | more _ _ ih => exact ih
  | last hworks =>
    cases hworks with
    | bring | pass | load => exact ⟨fun h => (by cases h), fun _ h => by cases h⟩
    | fail stem after stems err hpage hasks hfetch =>
      refine ⟨fun h => (by cases h), ?_⟩
      rintro _ ⟨⟩
      exact ⟨⟨hpage, rfl, rfl⟩, stem, after, hfetch⟩
    | done h => exact ⟨fun _ => h, fun _ h => by cases h⟩

theorem Answers.of_spent {fetch : Fetch} (hspent : s.Spent) (ha : Answers fetch s event s') :
    event = .done ∧ s'.Spent := by
  have hworks : ∀ {event s'}, Works fetch s event s' → event = .done ∧ s' = s := by
    intro event s' h
    cases h with
    | bring _ _ hpage | pass _ _ hpage =>
      rw [hspent.page] at hpage
      cases hpage
    | load _ _ _ _ _ hasks | fail _ _ _ _ _ hasks =>
      cases hasks with
      | more _ h =>
        rw [hspent.resume] at h
        cases h
      | start _ _ h =>
        rw [hspent.stems] at h
        cases h
    | done => exact ⟨rfl, rfl⟩
  cases ha with
  | last h =>
    obtain ⟨rfl, rfl⟩ := hworks h
    exact ⟨rfl, hspent⟩
  | more h => cases (hworks h).1

/-- A pull is answered if its budget is no less than the work left. -/
theorem untilAnswer_ne_skip (hpages : Pages keysOf reach cursor fetch)
    (hw : w ∈ worlds) (h : Brought keysOf cursor ps worlds came s) {budget : Nat}
    (hbudget : s.left (keysOf w) ≤ budget) :
    ((untilAnswer (workOn fetch) budget s).run w).1.1 ≠ .skip := by
  have hworks := advance_works (fetch w) s
  have hleft := hworks.left hpages h
  induction budget generalizing s with
  | zero =>
    intro hskip
    have hevent : (s.advance (fetch w)).1 = .skip := hskip
    have := hleft (by rw [hevent]; simp)
    omega
  | succ budget ih =>
    have hrun : (untilAnswer (workOn fetch) (budget + 1) s).run w =
        (if (s.advance (fetch w)).1 = .skip then untilAnswer (workOn fetch) budget (s.advance (fetch w)).2
          else pure (s.advance (fetch w)) : StateM ω _).run w := rfl
    rw [hrun]
    split
    · rename_i hskip
      have hless := hleft (by rw [hskip]; simp)
      rw [hskip] at hworks
      have h₁ := hworks.brought hpages hw h
      rw [broughtBy, List.append_nil] at h₁
      have hworks₁ := advance_works (fetch w) (s.advance (fetch w)).2
      exact ih h₁ (by omega) hworks₁ (hworks₁.left hpages h₁)
    · rename_i hskip
      exact hskip

end Pull

/-! ## A history -/

/-- The last moment of a history, or one before it. -/
theorem eq_concat_of_mem {past before later : List (Moment ω)} {m x : Moment ω}
    (h : past ++ [m] = before ++ x :: later) :
    (later = [] ∧ past = before ∧ m = x) ∨
      ∃ rest, later = rest ++ [m] ∧ past = before ++ x :: rest := by
  rcases List.eq_nil_or_concat later with rfl | ⟨rest, y, rfl⟩
  · obtain ⟨rfl, hm⟩ := List.append_inj' h rfl
    exact .inl ⟨rfl, rfl, List.head_eq_of_cons_eq hm⟩
  · have h' : past ++ [m] = (before ++ x :: rest) ++ [y] := by
      rw [h, List.append_assoc, List.cons_append, List.concat_eq_append]
    obtain ⟨rfl, hm⟩ := List.append_inj' h' rfl
    obtain rfl : m = y := List.head_eq_of_cons_eq hm
    exact .inr ⟨rest, List.concat_eq_append, rfl⟩

section History

variable {keysOf : ω → List String} {reach cursor : String → String → Prop}
  {fetch : ω → Fetch} {ps : List KeyPattern} {opening : ω} {past : List (Moment ω)}
  {s : KeyScan} {w : ω}

/-- Whether the end, or a failure, was among the answers. -/
def Over (ms : List (Moment ω)) : Prop :=
  ∃ m ∈ ms, m.answer = some .done ∨ ∃ err, m.answer = some (.failed err)

/-- A history with one more moment. -/
theorem Faithful.concat (h : Faithful keysOf fetch ps opening past) {m : Moment ω}
    (hnodup : (cameIn (past ++ [m])).Nodup)
    (hascending : ps.length ≤ 1 → (cameIn (past ++ [m])).Pairwise fun a b => compare a b = .lt)
    (hsound : ∀ key, m.answer = some (.key key) →
      Matched ps key ∧ ∃ w ∈ opening :: past.map Moment.world, key ∈ keysOf w)
    (hcomplete : m.answer = some .done → (∀ m ∈ past, ∀ err, m.answer ≠ some (.failed err)) →
      ∀ key, Matched ps key → (∀ w ∈ opening :: past.map Moment.world, key ∈ keysOf w) →
      key ∈ cameIn past)
    (hfailed : ∀ err, m.answer = some (.failed err) →
      ∃ stem after, fetch m.world stem after pageSize = .error err)
    (hover : Over past → ∀ answer, m.answer = some answer → answer = .done) :
    Faithful keysOf fetch ps opening (past ++ [m]) where
  nodup := hnodup
  ascending := hascending
  sound before now key later hms := by
    rcases eq_concat_of_mem hms with ⟨-, rfl, rfl⟩ | ⟨rest, -, hpast⟩
    · exact hsound key rfl
    · exact h.sound before now key rest hpast
  complete before now later hms := by
    rcases eq_concat_of_mem hms with ⟨-, rfl, rfl⟩ | ⟨rest, -, hpast⟩
    · exact hcomplete rfl
    · exact h.complete before now rest hpast
  ended before now later hms := by
    rcases eq_concat_of_mem hms with ⟨rfl, -, -⟩ | ⟨rest, rfl, hpast⟩
    · exact fun _ hm => absurd hm (by simp)
    · intro m' hm'
      rcases List.mem_append.1 hm' with hm' | hm'
      · exact h.ended before now rest hpast m' hm'
      · rw [List.mem_singleton.1 hm']
        exact hover ⟨⟨now, some .done⟩, by rw [hpast]; simp, .inl rfl⟩
  failed before now err later hms := by
    rcases eq_concat_of_mem hms with ⟨rfl, -, rfl⟩ | ⟨rest, rfl, hpast⟩
    · exact ⟨hfailed err rfl, fun _ hm => absurd hm (by simp)⟩
    · obtain ⟨hfetch, hrest⟩ := h.failed before now err rest hpast
      refine ⟨hfetch, fun m' hm' => ?_⟩
      rcases List.mem_append.1 hm' with hm' | hm'
      · exact hrest m' hm'
      · rw [List.mem_singleton.1 hm']
        exact hover ⟨⟨now, some (.failed err)⟩, by rw [hpast]; simp, .inr ⟨err, rfl⟩⟩

/-- What holds of a scan and its history, whatever has happened. -/
structure Tracked (keysOf : ω → List String) (reach cursor : String → String → Prop)
    (fetch : ω → Fetch) (ps : List KeyPattern) (opening : ω) (past : List (Moment ω)) (w : ω)
    (s : KeyScan) : Prop where
  present : w ∈ opening :: past.map Moment.world
  brought : Brought keysOf cursor ps (opening :: past.map Moment.world) (cameIn past) s
  covers : (∀ m ∈ past, ∀ err, m.answer ≠ some (.failed err)) →
    Covers keysOf reach ps (opening :: past.map Moment.world) (cameIn past) s
  spent : Over past → s.Spent
  faithful : Faithful keysOf fetch ps opening past

theorem tracked_start (ps : List KeyPattern) (opening : ω) :
    Tracked keysOf reach cursor fetch ps opening [] opening (start ps) where
  present := by simp
  brought := brought_start ps _
  covers _ := covers_start ps _
  spent := fun ⟨_, hm, _⟩ => by cases hm
  faithful :=
    have hnil : ∀ {before later : List (Moment ω)} {m : Moment ω}, [] ≠ before ++ m :: later := by simp
    ⟨List.nodup_nil, fun _ _ _ _ h => absurd h hnil, fun _ _ _ h => absurd h hnil,
      fun _ => List.Pairwise.nil, fun _ _ _ h => absurd h hnil, fun _ _ _ _ h => absurd h hnil⟩

theorem cameIn_concat (ms : List (Moment ω)) (w : ω) (event : ScanEvent) :
    cameIn (ms ++ [⟨w, some event⟩]) = cameIn ms ++ broughtBy event := by
  simp [cameIn]

theorem worlds_concat (opening : ω) (past : List (Moment ω)) (m : Moment ω) :
    opening :: (past ++ [m]).map Moment.world = (opening :: past.map Moment.world) ++ [m.world] := by
  simp

/-- A call on the store is no concern of the scan. -/
theorem Tracked.call (h : Tracked keysOf reach cursor fetch ps opening past w s) (w' : ω) :
    Tracked keysOf reach cursor fetch ps opening (past ++ [⟨w', none⟩]) w' s := by
  have hcame : cameIn (past ++ [⟨w', none⟩]) = cameIn past := by simp [cameIn]
  have hold : ∀ {answer}, (∃ m ∈ past ++ [⟨w', none⟩], m.answer = some answer) →
      ∃ m ∈ past, m.answer = some answer := by
    rintro answer ⟨m, hm, hanswer⟩
    rcases List.mem_append.1 hm with hm | hm
    · exact ⟨m, hm, hanswer⟩
    · rw [List.mem_singleton.1 hm] at hanswer
      cases hanswer
  have hover : Over (past ++ [⟨w', none⟩]) → Over past := by
    rintro ⟨m, hm, hanswer | ⟨err, hanswer⟩⟩
    · obtain ⟨m, hm, hanswer⟩ := hold ⟨m, hm, hanswer⟩
      exact ⟨m, hm, .inl hanswer⟩
    · obtain ⟨m, hm, hanswer⟩ := hold ⟨m, hm, hanswer⟩
      exact ⟨m, hm, .inr ⟨err, hanswer⟩⟩
  refine ⟨?_, ?_, ?_, fun hpast => h.spent (hover hpast), ?_⟩
  · simp
  · rw [worlds_concat, hcame]
    exact h.brought.change w'
  · intro hfailed
    rw [worlds_concat, hcame]
    exact (h.covers fun m hm => hfailed m (List.mem_append_left _ hm)).change w'
  · refine h.faithful.concat ?_ ?_ (fun _ h => by cases h) (fun h => by cases h)
      (fun _ h => by cases h) fun _ _ h => by cases h
    · rw [hcame]
      exact h.faithful.nodup
    · rw [hcame]
      exact h.faithful.ascending

/-- What a pull is answered is what the stream owes. -/
theorem Tracked.pull (hpages : Pages keysOf reach cursor fetch)
    (hreach : ∀ key, Matched ps key → ∃ stem ∈ ranges ps, reach stem key)
    (h : Tracked keysOf reach cursor fetch ps opening past w s) {event : ScanEvent} {s' : KeyScan}
    (ha : Answers (fetch w) s event s') :
    Tracked keysOf reach cursor fetch ps opening (past ++ [⟨w, some event⟩]) w s' := by
  have hbrought := ha.brought hpages h.present h.brought
  have hcovers : (∀ m ∈ past, ∀ err, m.answer ≠ some (.failed err)) →
      (∀ err, event ≠ .failed err) →
      Covers keysOf reach ps (opening :: past.map Moment.world) (cameIn past ++ broughtBy event) s' :=
    fun hpast hevent => ha.covers hpages h.present h.brought (h.covers hpast) hevent
  refine ⟨?_, ?_, ?_, ?_, ?_⟩
  · simp
  · rw [worlds_concat, cameIn_concat]
    exact hbrought.change w
  · intro hfailed
    rw [worlds_concat, cameIn_concat]
    refine (hcovers (fun m hm => hfailed m (List.mem_append_left _ hm)) fun err herr => ?_).change w
    exact hfailed ⟨w, some event⟩ (by simp) err (congrArg some herr)
  · rintro ⟨m, hm, hanswer⟩
    rcases List.mem_append.1 hm with hm | hm
    · exact (ha.of_spent (h.spent ⟨m, hm, hanswer⟩)).2
    · rw [List.mem_singleton.1 hm] at hanswer
      rcases hanswer with hanswer | ⟨err, hanswer⟩
      · exact ha.spent.1 (Option.some.inj hanswer)
      · exact (ha.spent.2 err (Option.some.inj hanswer)).1
  · refine h.faithful.concat ?_ ?_ ?_ ?_ ?_ ?_
    · rw [cameIn_concat]
      exact hbrought.nodup
    · rw [cameIn_concat]
      exact hbrought.ascending
    · rintro key ⟨⟩
      exact ⟨hbrought.matched key (by simp [broughtBy]), hbrought.stored key (by simp [broughtBy])⟩
    · rintro ⟨⟩ hpast key hmatched hstored
      obtain ⟨stem, hstem, hreach⟩ := hreach key hmatched
      have hcame := (hcovers hpast (by simp)).mem_came (ha.spent.1 rfl) hmatched hstored hstem hreach
      rwa [broughtBy, List.append_nil] at hcame
    · rintro err ⟨⟩
      exact (ha.spent.2 err rfl).2
    · rintro hover answer ⟨⟩
      exact (ha.of_spent (h.spent hover)).1

/-- Whatever happens, the stream answers what it owes. -/
theorem Tracked.run (hpages : Pages keysOf reach cursor fetch)
    (hreach : ∀ key, Matched ps key → ∃ stem ∈ ranges ps, reach stem key)
    (effect : κ → ω → ω) (acts : List (HostAct κ))
    (h : Tracked keysOf reach cursor fetch ps opening past w s) :
    Tracked keysOf reach cursor fetch ps opening
      (past ++ moments effect (workOn fetch) acts (w, s))
      (afterwards effect (workOn fetch) acts (w, s)).1
      (afterwards effect (workOn fetch) acts (w, s)).2 := by
  induction acts generalizing past w s with
  | nil =>
    rw [moments, List.append_nil]
    exact h
  | cons a acts ih =>
    have hstep : Tracked keysOf reach cursor fetch ps opening
        (past ++ [(act effect (workOn fetch) a (w, s)).1])
        (act effect (workOn fetch) a (w, s)).2.1 (act effect (workOn fetch) a (w, s)).2.2 := by
      cases a with
      | call c => exact h.call (effect c w)
      | pull budget =>
        obtain ⟨hw, ha⟩ := untilAnswer_run fetch budget s w
        have hpull := h.pull hpages hreach ha
        show Tracked _ _ _ _ _ _
          (past ++ [⟨((untilAnswer (workOn fetch) budget s).run w).2, some _⟩])
          ((untilAnswer (workOn fetch) budget s).run w).2 _
        rw [hw]
        exact hpull
    rw [moments, List.append_cons]
    exact ih hstep

/-- A failing fetch is the answer of the pull it was made for. -/
theorem untilAnswer_failed {stem : String} {after : Option String} {stems : List String}
    {err : Error} (hpage : s.page = []) (hasks : s.Asks stem after stems)
    (hfetch : fetch w stem after pageSize = .error err) (budget : Nat) :
    ((untilAnswer (workOn fetch) budget s).run w).1.1 = .failed err := by
  have hadvance : s.advance (fetch w) = (.failed err, { s with stems := [], resume := none }) := by
    rw [hasks.advance hpage, load, hfetch]
  have hwork : (workOn fetch s).run w = ((.failed err, { s with stems := [], resume := none }), w) :=
    congrArg (·, w) hadvance
  cases budget with
  | zero => rw [untilAnswer, hwork]
  | succ budget =>
    show ((if (s.advance (fetch w)).1 = .skip then untilAnswer (workOn fetch) budget _
      else pure (s.advance (fetch w)) : StateM ω _).run w).1.1 = _
    rw [if_neg (by rw [hadvance]; simp), hadvance]
    rfl

end History

/-! ## Streams of a store -/

section Streams

variable {fetch : ω → Fetch} {work : τ → StateM ω (ScanEvent × τ)} {f : KeyScan → τ}

/-- A stream that works as a scan does answers as the scan does. -/
theorem untilAnswer_of_work
    (hwork : ∀ s w, (work (f s)).run w =
      (((s.advance (fetch w)).1, f (s.advance (fetch w)).2), w))
    (budget : Nat) (s : KeyScan) (w : ω) :
    (untilAnswer work budget (f s)).run w =
      ((((untilAnswer (workOn fetch) budget s).run w).1.1,
        f ((untilAnswer (workOn fetch) budget s).run w).1.2),
        ((untilAnswer (workOn fetch) budget s).run w).2) := by
  induction budget generalizing s with
  | zero => exact hwork s w
  | succ budget ih =>
    have hrun : (untilAnswer work (budget + 1) (f s)).run w =
        (if ((work (f s)).run w).1.1 = .skip then untilAnswer work budget ((work (f s)).run w).1.2
          else pure ((work (f s)).run w).1 : StateM ω _).run ((work (f s)).run w).2 := rfl
    have hscan : (untilAnswer (workOn fetch) (budget + 1) s).run w =
        (if (s.advance (fetch w)).1 = .skip then untilAnswer (workOn fetch) budget (s.advance (fetch w)).2
          else pure (s.advance (fetch w)) : StateM ω _).run w := rfl
    rw [hrun, hscan, hwork]
    dsimp only
    split
    · exact ih _
    · rfl

theorem moments_of_work
    (hwork : ∀ s w, (work (f s)).run w =
      (((s.advance (fetch w)).1, f (s.advance (fetch w)).2), w))
    (effect : κ → ω → ω) (acts : List (HostAct κ)) (s : KeyScan) (w : ω) :
    moments effect work acts (w, f s) = moments effect (workOn fetch) acts (w, s) ∧
      afterwards effect work acts (w, f s) =
        ((afterwards effect (workOn fetch) acts (w, s)).1,
          f (afterwards effect (workOn fetch) acts (w, s)).2) := by
  induction acts generalizing s w with
  | nil => exact ⟨rfl, rfl⟩
  | cons a acts ih =>
    have hact : act effect work a (w, f s) = ((act effect (workOn fetch) a (w, s)).1,
        (act effect (workOn fetch) a (w, s)).2.1, f (act effect (workOn fetch) a (w, s)).2.2) := by
      cases a with
      | call c => rfl
      | pull budget =>
        simp only [act]
        rw [untilAnswer_of_work hwork]
    obtain ⟨hmoments, hafterwards⟩ :=
      ih (act effect (workOn fetch) a (w, s)).2.2 (act effect (workOn fetch) a (w, s)).2.1
    refine ⟨?_, ?_⟩
    · rw [moments, moments, hact, hmoments]
    · show afterwards effect work acts (act effect work a (w, f s)).2 = _
      rw [hact]
      exact hafterwards

end Streams

/-- A pull with enough of a budget is answered. -/
def Answering (effect : κ → ω → ω) (work : τ → StateM ω (ScanEvent × τ)) (at_ : ω × τ) : Prop :=
  ∃ enough, ∀ budget, enough ≤ budget →
    (act effect work (.pull budget) at_).1.answer ≠ some .skip

/-- Pages of a store that changes give a stream that answers what it owes. -/
theorem Pages.history {keysOf : ω → List String} {cursor : String → String → Prop}
    {fetch : ω → Fetch}
    (hpages : Pages keysOf (fun stem key => Key.startsWith key stem = true) cursor fetch)
    (effect : κ → ω → ω) (ps : List KeyPattern) (opening : ω) (acts : List (HostAct κ)) :
    Faithful keysOf fetch ps opening (moments effect (workOn fetch) acts (opening, start ps)) ∧
      Answering effect (workOn fetch) (afterwards effect (workOn fetch) acts (opening, start ps)) := by
  have hstart : Tracked keysOf (fun stem key => Key.startsWith key stem = true) cursor fetch ps
      opening [] opening (start ps) := tracked_start ps opening
  have htracked := hstart.run hpages (fun _ => exists_range) effect acts
  generalize hat : afterwards effect (workOn fetch) acts (opening, start ps) = at_ at htracked
  refine ⟨htracked.faithful, at_.2.left (keysOf at_.1), fun budget hbudget hskip => ?_⟩
  exact untilAnswer_ne_skip hpages htracked.present htracked.brought hbudget (Option.some.inj hskip)

/-- Whatever calls come between the pulls of a stream of keys, on a store in memory or over any
pages of what is stored at the moment, it answers what it owes: each key that matches and is stored
all the time once, others at most once and only if they were stored, then the end and nothing else.
A pull in which a fetch fails is answered with the error. -/
theorem changing_history :
    (∀ (m : Memory) (patterns : List String) (ps : List KeyPattern),
      KeyPattern.parseAll patterns = .ok ps →
      ∃ stream : KeyStream,
        (Backend.keys patterns : Access Memory KeyStream).run.run m = (.ok stream, m) ∧
        ∀ acts : List (HostAct WriteCall),
          Faithful (fun m : Memory => m.entries.keys)
            (fun m stem after limit => .ok (m.page stem after limit)) ps m
            (moments WriteCall.effect Backend.advance acts (m, stream)) ∧
          (∀ x ∈ moments WriteCall.effect Backend.advance acts (m, stream),
            ∀ err, x.answer ≠ some (.failed err)) ∧
          Answering WriteCall.effect Backend.advance
            (afterwards WriteCall.effect Backend.advance acts (m, stream))) ∧
    ∀ (ω κ : Type) (keysOf : ω → List String) (cursor : String → String → Prop)
      (fetch : ω → Fetch),
      Pages keysOf (fun stem key => Key.startsWith key stem = true) cursor fetch →
      ∀ (effect : κ → ω → ω) (ps : List KeyPattern) (opening : ω) (acts : List (HostAct κ)),
        Faithful keysOf fetch ps opening
          (moments effect (workOn fetch) acts (opening, start ps)) ∧
        Answering effect (workOn fetch)
          (afterwards effect (workOn fetch) acts (opening, start ps)) ∧
        ∀ (now : ω) (s : KeyScan),
          afterwards effect (workOn fetch) acts (opening, start ps) = (now, s) →
          ∀ (stem : String) (after : Option String) (stems : List String) (err : Error),
            s.page = [] → s.Asks stem after stems → fetch now stem after pageSize = .error err →
            ∀ budget, (act effect (workOn fetch) (.pull budget) (now, s)).1.answer =
              some (.failed err) := by
  refine ⟨fun m patterns ps hread => ⟨.ofScan (start ps), ?_, fun acts => ?_⟩, ?_⟩
  · show (Backend.openScan patterns : Access Memory KeyStream).run.run m = _
    rw [Backend.openScan, hread]
    rfl
  · have hwork : ∀ (s : KeyScan) (m : Memory),
        (Backend.advance (KeyStream.ofScan s) : StateM Memory _).run m =
          (((s.advance fun stem after limit => .ok (m.page stem after limit)).1,
            KeyStream.ofScan (s.advance fun stem after limit => .ok (m.page stem after limit)).2), m) :=
      fun _ _ => rfl
    obtain ⟨hmoments, hafterwards⟩ := moments_of_work hwork WriteCall.effect acts (start ps) m
    obtain ⟨hfaithful, hanswering⟩ := pages_memory.history WriteCall.effect ps m acts
    rw [hmoments, hafterwards]
    refine ⟨hfaithful, fun x hx err herr => ?_, ?_⟩
    · obtain ⟨before, later, hms⟩ := List.append_of_mem hx
      obtain ⟨world, answer⟩ := x
      obtain rfl : answer = some (.failed err) := herr
      obtain ⟨⟨_, _, hfetch⟩, -⟩ := hfaithful.failed before world err later hms
      cases hfetch
    · obtain ⟨enough, henough⟩ := hanswering
      refine ⟨enough, fun budget hbudget hskip => henough budget hbudget ?_⟩
      rw [← hskip]
      simp only [act]
      rw [untilAnswer_of_work hwork]
  · intro ω κ keysOf cursor fetch hpages effect ps opening acts
    obtain ⟨hfaithful, hanswering⟩ := hpages.history effect ps opening acts
    refine ⟨hfaithful, hanswering, ?_⟩
    rintro now s - stem after stems err hpage hasks hfetch budget
    exact congrArg some (untilAnswer_failed hpage hasks hfetch budget)

/-- A store with two keys, of which the second goes while the first is handed out. -/
theorem changing_history_delete :
    KeyPattern.parseAll [">"] = .ok [⟨[], true⟩] ∧
    (∃ stream : KeyStream,
      (Backend.keys [">"] : Access Memory KeyStream).run.run
        ((Memory.empty.write "a" (.text "1")).write "b" (.text "2")) =
        (.ok stream, (Memory.empty.write "a" (.text "1")).write "b" (.text "2")) ∧
      Faithful (fun m : Memory => m.entries.keys)
        (fun m stem after limit => .ok (m.page stem after limit)) [⟨[], true⟩]
        ((Memory.empty.write "a" (.text "1")).write "b" (.text "2"))
        (moments WriteCall.effect Backend.advance
          [.pull 3, .call (.delete "b"), .pull 3, .pull 3]
          ((Memory.empty.write "a" (.text "1")).write "b" (.text "2"), stream))) ∧
    Pages (fun m : Memory => m.entries.keys) (fun stem key => Key.startsWith key stem = true)
      (fun stem key => Key.startsWith key stem = true)
      (fun m stem after limit => .ok (m.page stem after limit)) ∧
    Faithful (fun m : Memory => m.entries.keys)
      (fun m stem after limit => .ok (m.page stem after limit)) [⟨[], true⟩] Memory.empty
      (moments (fun (next : Memory) _ => next)
        (workOn fun (m : Memory) stem after limit => .ok (m.page stem after limit))
        [.call (Memory.empty.write "a" (.text "1")), .pull 3, .pull 3]
        (Memory.empty, start [⟨[], true⟩])) := by
  have hread : KeyPattern.parseAll [">"] = .ok [⟨[], true⟩] := by decide
  obtain ⟨stream, hopen, hhistory⟩ := changing_history.1
    ((Memory.empty.write "a" (.text "1")).write "b" (.text "2")) [">"] [⟨[], true⟩] hread
  exact ⟨hread, ⟨stream, hopen, (hhistory _).1⟩, pages_memory,
    (changing_history.2 Memory Memory _ _ _ pages_memory (fun next _ => next) _ Memory.empty _).1⟩

end KeyScan

end PropertyGraph
