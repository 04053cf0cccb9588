/-
Whether improving a plan comes to an end. A rule goes on behind the first step of what it put in, so
one that puts in more steps than it takes out may be led on by its own work
(`PlanRule.doubling_endless`). That is the only way not to end: an improvement goes on for ever exactly
if one of its rules grows the plan again and again, and it ends in one look for each step where no
replacement that keeps the type is longer than its window (`PlanRule.sweepAll?_ends`).
-/
import Mathlib
import PropertyGraph.Plan.Rule

namespace PropertyGraph

namespace PlanRule

variable {r : PlanRule} {rules : List PlanRule} {steps front : List PlannedStep} {fuel n : Nat}

/-! ## One window after the other -/

/-- The steps behind the first one, once the rule has looked at the window in front. -/
def behind? (r : PlanRule) (steps : List PlannedStep) : Option (List PlannedStep) :=
  if steps.length < r.window then none
  else match (r.replaceFront steps).1 with
    | [] => none
    | _ :: rest => some rest

/-- The steps the rule has in front of it when it has looked at so many windows. -/
def ahead? (r : PlanRule) : Nat → List PlannedStep → Option (List PlannedStep)
  | 0, steps => some steps
  | n + 1, steps => (r.behind? steps).bind (r.ahead? n)

/-- At this window, the rule puts in more steps than it takes out. -/
def GrowsAt (r : PlanRule) (n : Nat) (steps : List PlannedStep) : Prop :=
  ∃ front, r.ahead? n steps = some front ∧ r.window ≤ front.length ∧
    front.length < (r.replaceFront front).1.length

/-- No replacement that keeps the type of its window is longer. -/
def StaysWithin (r : PlanRule) : Prop :=
  ∀ window replacement, window.length = r.window → r.replace window = some replacement →
    lastOutput? replacement = lastOutput? window → replacement.length ≤ r.window

theorem sweep?_succ (r : PlanRule) (fuel : Nat) (steps : List PlannedStep) :
    r.sweep? (fuel + 1) steps = none ↔ ∃ rest, r.behind? steps = some rest ∧
      r.sweep? fuel rest = none := by
  simp only [sweep?, behind?]
  by_cases hlen : steps.length < r.window
  · simp [hlen]
  · rw [if_neg hlen, if_neg hlen]
    cases hfront : r.replaceFront steps with
    | mk found notices =>
      cases found with
      | nil => simp
      | cons step rest => simp

/-- A sweep is not at its end while it has steps in front of it. -/
theorem sweep?_eq_none : r.sweep? fuel steps = none ↔ ∃ front, r.ahead? fuel steps = some front := by
  induction fuel generalizing steps with
  | zero => simp [sweep?, ahead?]
  | succ fuel ih =>
    rw [sweep?_succ, ahead?]
    cases r.behind? steps with
    | none => simp
    | some rest => simp [ih]

theorem ahead?_add (r : PlanRule) (n m : Nat) (steps : List PlannedStep) :
    r.ahead? (n + m) steps = (r.ahead? n steps).bind (r.ahead? m) := by
  induction n generalizing steps with
  | zero => simp [ahead?]
  | succ n ih =>
    rw [Nat.add_right_comm, ahead?, ahead?]
    cases r.behind? steps with
    | none => rfl
    | some rest => exact ih rest

theorem length_behind? {rest : List PlannedStep} (h : r.behind? steps = some rest) :
    r.window ≤ steps.length ∧ rest.length + 1 = (r.replaceFront steps).1.length := by
  rw [behind?] at h
  split at h
  · cases h
  · rename_i hlen
    refine ⟨Nat.le_of_not_lt hlen, ?_⟩
    split at h
    · cases h
    · rename_i hfront
      cases h
      rw [hfront, List.length_cons]

/-- A rule that does not grow the plan has fewer steps in front of it each time. -/
theorem length_ahead? (hnever : ∀ k, ¬ r.GrowsAt k steps) (h : r.ahead? n steps = some front) :
    front.length + n ≤ steps.length := by
  induction n generalizing steps with
  | zero =>
    cases h
    simp
  | succ n ih =>
    rw [ahead?] at h
    cases hrest : r.behind? steps with
    | none =>
      rw [hrest] at h
      cases h
    | some rest =>
      rw [hrest] at h
      obtain ⟨hwindow, hlen⟩ := length_behind? hrest
      have hfirst : (r.replaceFront steps).1.length ≤ steps.length :=
        Nat.le_of_not_lt fun hlt => hnever 0 ⟨steps, rfl, hwindow, hlt⟩
      have hrestNever : ∀ k, ¬ r.GrowsAt k rest := by
        rintro k ⟨front', hahead, hgrows⟩
        exact hnever (k + 1) ⟨front', by rw [ahead?, hrest]; exact hahead, hgrows⟩
      have := ih hrestNever h
      omega

/-- A sweep goes on for ever exactly if it grows the plan again and again. -/
theorem sweep?_endless :
    (∀ fuel, r.sweep? fuel steps = none) ↔ ∀ n, ∃ k, n ≤ k ∧ r.GrowsAt k steps := by
  constructor
  · intro h n
    obtain ⟨front, hfront⟩ := sweep?_eq_none.1 (h n)
    by_contra hnone
    -- it never grows what is in front of it then, so no more windows than steps are left
    have hnever : ∀ k, ¬ r.GrowsAt k front := by
      rintro k ⟨front', hahead, hgrows⟩
      exact hnone ⟨n + k, Nat.le_add_right n k, front',
        by rw [ahead?_add, hfront]; exact hahead, hgrows⟩
    obtain ⟨front', hfront'⟩ := sweep?_eq_none.1 (h (n + (front.length + 1)))
    rw [ahead?_add, hfront] at hfront'
    have := length_ahead? hnever hfront'
    omega
  · intro h fuel
    obtain ⟨k, hk, front, hfront, -⟩ := h fuel
    rw [sweep?_eq_none]
    obtain ⟨m, rfl⟩ := Nat.exists_eq_add_of_le hk
    rw [ahead?_add] at hfront
    cases hn : r.ahead? fuel steps with
    | none =>
      rw [hn] at hfront
      cases hfront
    | some found => exact ⟨found, rfl⟩

theorem NeverGrows.staysWithin (h : r.NeverGrows) : r.StaysWithin :=
  fun window replacement hlen hreplace _ => hlen ▸ h window replacement hreplace

theorem StaysWithin.length_replaceFront_le (h : r.StaysWithin) (hwindow : r.window ≤ steps.length) :
    (r.replaceFront steps).1.length ≤ steps.length := by
  have htake : (steps.take r.window).length = r.window := List.length_take_of_le hwindow
  simp only [replaceFront]
  split
  · exact Nat.le_refl _
  · rename_i replacement hreplace
    split
    · rename_i hkeeps
      have := h _ _ htake hreplace (beq_iff_eq.1 hkeeps)
      simp only [List.length_append, List.length_drop]
      omega
    · exact Nat.le_refl _

/-- A rule that stays within its windows looks at no more of them than there are steps. -/
theorem StaysWithin.isSome_sweep? (h : r.StaysWithin) (hfuel : steps.length < fuel) :
    (r.sweep? fuel steps).isSome := by
  rw [Option.isSome_iff_ne_none]
  intro hnone
  obtain ⟨front, hfront⟩ := sweep?_eq_none.1 hnone
  have hnever : ∀ k, ¬ r.GrowsAt k steps := by
    rintro k ⟨front, -, hwindow, hgrows⟩
    exact absurd hgrows (Nat.not_lt.2 (h.length_replaceFront_le hwindow))
  have := length_ahead? hnever hfront
  omega

theorem StaysWithin.length_sweep?_le (h : r.StaysWithin) {found : List PlannedStep × List Notice}
    (hfound : r.sweep? fuel steps = some found) : found.1.length ≤ steps.length := by
  induction fuel generalizing steps found with
  | zero => cases hfound
  | succ fuel ih =>
    rw [sweep?] at hfound
    split at hfound
    · cases hfound
      exact Nat.le_refl _
    · rename_i hlen
      have hfirst := h.length_replaceFront_le (Nat.le_of_not_lt hlen)
      split at hfound
      · cases hfound
        exact Nat.zero_le _
      · rename_i hfront
        obtain ⟨rest, hrest, rfl⟩ := Option.map_eq_some_iff.1 hfound
        have := ih hrest
        rw [hfront] at hfirst
        simp only [List.length_cons] at hfirst ⊢
        omega

theorem StaysWithin.exists_run? (h : r.StaysWithin) (hfuel : steps.length < fuel) :
    ∃ found, r.run? fuel steps = some found ∧ found.1.length ≤ steps.length := by
  rw [run?]
  split
  · exact ⟨_, rfl, Nat.le_refl _⟩
  · obtain ⟨found, hfound⟩ := Option.isSome_iff_exists.1 (h.isSome_sweep? hfuel)
    exact ⟨found, hfound, h.length_sweep?_le hfound⟩

/-! ## One rule after the other -/

theorem sweep?_of_le {found : List PlannedStep × List Notice} {fuel' : Nat}
    (h : r.sweep? fuel steps = some found) (hle : fuel ≤ fuel') :
    r.sweep? fuel' steps = some found := by
  induction fuel generalizing steps found fuel' with
  | zero => cases h
  | succ fuel ih =>
    obtain ⟨fuel', rfl⟩ : ∃ m, fuel' = m + 1 := ⟨fuel' - 1, by omega⟩
    rw [sweep?] at h ⊢
    split
    · rename_i hlen
      rwa [if_pos hlen] at h
    · rename_i hlen
      rw [if_neg hlen] at h
      split at h
      · exact h
      · obtain ⟨more, hmore, rfl⟩ := Option.map_eq_some_iff.1 h
        rw [ih hmore (by omega)]
        rfl

theorem run?_of_le {found : List PlannedStep × List Notice} {fuel' : Nat}
    (h : r.run? fuel steps = some found) (hle : fuel ≤ fuel') :
    r.run? fuel' steps = some found := by
  rw [run?] at h ⊢
  split
  · rename_i hzero
    rwa [if_pos hzero] at h
  · rename_i hzero
    rw [if_neg hzero] at h
    exact sweep?_of_le h hle

theorem sweepAll?_cons {found : List PlannedStep × List Notice} (h : r.run? fuel steps = some found)
    (rules : List PlanRule) : sweepAll? fuel (r :: rules) steps =
      (sweepAll? fuel rules found.1).map fun rest => (rest.1, found.2 ++ rest.2) := by
  rw [sweepAll?, h]
  cases hrest : sweepAll? fuel rules found.1 with
  | none => simp [hrest]
  | some rest => simp [hrest]

theorem sweepAll?_of_le {found : List PlannedStep × List Notice} {fuel' : Nat}
    (h : sweepAll? fuel rules steps = some found) (hle : fuel ≤ fuel') :
    sweepAll? fuel' rules steps = some found := by
  induction rules generalizing steps found with
  | nil => exact h
  | cons r rules ih =>
    cases hrun : r.run? fuel steps with
    | none =>
      rw [sweepAll?, hrun] at h
      cases h
    | some first =>
      rw [sweepAll?_cons hrun, Option.map_eq_some_iff] at h
      obtain ⟨rest, hrest, rfl⟩ := h
      rw [sweepAll?_cons (run?_of_le hrun hle), ih hrest]
      rfl

/-- The rules before it come to an end, and the rule grows the plan they leave again and again. -/
def Endless (r : PlanRule) (before : List PlanRule) (steps : List PlannedStep) : Prop :=
  r.window ≠ 0 ∧ ∃ fuel found, sweepAll? fuel before steps = some found ∧
    ∀ n, ∃ k, n ≤ k ∧ r.GrowsAt k found.1

theorem run?_endless :
    (∀ fuel, r.run? fuel steps = none) ↔ r.window ≠ 0 ∧ ∀ n, ∃ k, n ≤ k ∧ r.GrowsAt k steps := by
  rw [← sweep?_endless]
  by_cases hzero : r.window = 0
  · simp [run?, hzero]
  · simp [run?, hzero]

theorem endless_cons {first : PlanRule} {before : List PlanRule}
    {found : List PlannedStep × List Notice} (h : first.run? fuel steps = some found) :
    r.Endless (first :: before) steps ↔ r.Endless before found.1 := by
  refine and_congr_right fun _ => ⟨?_, ?_⟩
  · rintro ⟨fuel', all, hall, hgrows⟩
    have hmore := sweepAll?_of_le hall (Nat.le_max_right fuel fuel')
    rw [sweepAll?_cons (run?_of_le h (Nat.le_max_left fuel fuel')), Option.map_eq_some_iff] at hmore
    obtain ⟨rest, hrest, rfl⟩ := hmore
    exact ⟨_, rest, hrest, hgrows⟩
  · rintro ⟨fuel', rest, hrest, hgrows⟩
    refine ⟨max fuel fuel', (rest.1, found.2 ++ rest.2), ?_, hgrows⟩
    rw [sweepAll?_cons (run?_of_le h (Nat.le_max_left fuel fuel')),
      sweepAll?_of_le hrest (Nat.le_max_right fuel fuel')]
    rfl

theorem sweepAll?_endless : (∀ fuel, sweepAll? fuel rules steps = none) ↔
    ∃ before r after, rules = before ++ r :: after ∧ r.Endless before steps := by
  induction rules generalizing steps with
  | nil =>
    refine iff_of_false (fun h => by cases h 0) ?_
    rintro ⟨before, r, after, hrules, -⟩
    simp at hrules
  | cons first rules ih =>
    by_cases hrun : ∀ fuel, first.run? fuel steps = none
    · -- it does not come to the rules behind
      refine iff_of_true (fun fuel => by rw [sweepAll?, hrun fuel]; rfl) ?_
      obtain ⟨hzero, hgrows⟩ := run?_endless.1 hrun
      exact ⟨[], first, rules, rfl, hzero, 0, (steps, []), rfl, hgrows⟩
    · obtain ⟨fuel, hsome⟩ := not_forall.1 hrun
      obtain ⟨found, hfound⟩ := Option.ne_none_iff_exists'.1 hsome
      have hbehind : (∀ fuel, sweepAll? fuel (first :: rules) steps = none) ↔
          ∀ fuel, sweepAll? fuel rules found.1 = none := by
        constructor
        · intro h fuel'
          by_contra hne
          obtain ⟨rest, hrest⟩ := Option.ne_none_iff_exists'.1 hne
          have hnone := h (max fuel fuel')
          rw [sweepAll?_cons (run?_of_le hfound (Nat.le_max_left fuel fuel')),
            sweepAll?_of_le hrest (Nat.le_max_right fuel fuel')] at hnone
          cases hnone
        · intro h fuel'
          by_contra hne
          obtain ⟨all, hall⟩ := Option.ne_none_iff_exists'.1 hne
          have hmore := sweepAll?_of_le hall (Nat.le_max_right fuel fuel')
          rw [sweepAll?_cons (run?_of_le hfound (Nat.le_max_left fuel fuel')),
            h (max fuel fuel')] at hmore
          cases hmore
      rw [hbehind, ih]
      constructor
      · rintro ⟨before, r, after, rfl, hr⟩
        exact ⟨first :: before, r, after, rfl, (endless_cons hfound).2 hr⟩
      · rintro ⟨before, r, after, hrules, hr⟩
        cases before with
        | nil =>
          obtain ⟨rfl, -⟩ := List.cons.inj hrules
          obtain ⟨hzero, fuel', _, ⟨rfl⟩, hgrows⟩ := hr
          exact absurd (run?_endless.2 ⟨hzero, hgrows⟩) hrun
        | cons b before =>
          obtain ⟨rfl, rfl⟩ := List.cons.inj hrules
          exact ⟨before, r, after, rfl, (endless_cons hfound).1 hr⟩

theorem exists_sweepAll? (h : ∀ r ∈ rules, r.StaysWithin) (hfuel : steps.length < fuel) :
    ∃ found, sweepAll? fuel rules steps = some found := by
  induction rules generalizing steps with
  | nil => exact ⟨_, rfl⟩
  | cons r rules ih =>
    obtain ⟨first, hrun, hlen⟩ := (h r List.mem_cons_self).exists_run? hfuel
    obtain ⟨rest, hrest⟩ := ih (fun r hr => h r (List.mem_cons_of_mem _ hr))
      (Nat.lt_of_le_of_lt hlen hfuel)
    rw [sweepAll?_cons hrun, hrest]
    exact ⟨_, rfl⟩

/-- Rules of any windows and replacements improve a plan in finitely many looks, unless one of them
grows what the rules before it leave again and again; and in no more looks, for each rule, than the
plan has steps, if no replacement that keeps the type of its window is longer than the window. -/
theorem sweepAll?_ends (rules : List PlanRule) (steps : List PlannedStep) :
    ((∀ fuel, sweepAll? fuel rules steps = none) ↔
      ∃ before r after, rules = before ++ r :: after ∧ r.Endless before steps) ∧
    ((∀ r ∈ rules, r.StaysWithin) →
      ∃ found, ∀ fuel, steps.length < fuel → sweepAll? fuel rules steps = some found) := by
  refine ⟨sweepAll?_endless, fun h => ?_⟩
  obtain ⟨found, hfound⟩ := exists_sweepAll? h (Nat.lt_succ_self steps.length)
  exact ⟨found, fun fuel hfuel => sweepAll?_of_le hfound hfuel⟩

/-- The rules that a host can add end together on a count of the vertices of a label. -/
theorem sweepAll?_ends_all : (∀ r ∈ Rule.all.map (·.1), r.StaysWithin) ∧
    ∃ steps, Chain.resolve
        [⟨.vertices, []⟩, ⟨.has, [.str "label", .str "person"]⟩, ⟨.count, []⟩] = .ok steps ∧
      ∃ found, ∀ fuel, steps.length < fuel → sweepAll? fuel (Rule.all.map (·.1)) steps = some found := by
  have hwithin : ∀ r ∈ Rule.all.map (·.1), r.StaysWithin := by
    intro r hr
    obtain ⟨rule, -, rfl⟩ := List.mem_map.1 hr
    exact NeverGrows.staysWithin rule.2
  refine ⟨hwithin, _, rfl, ?_⟩
  exact (sweepAll?_ends (Rule.all.map (·.1)) _).2 hwithin

/-- Puts the steps of its window there twice, which keeps their type. -/
def doubling : PlanRule := ⟨"doubling", 1, fun steps => some (steps ++ steps)⟩

theorem sweep?_doubling (fuel : Nat) (s : PlannedStep) (rest : List PlannedStep) :
    doubling.sweep? fuel (s :: rest) = none := by
  induction fuel generalizing s rest with
  | zero => rfl
  | succ fuel ih =>
    have hfront : doubling.replaceFront (s :: rest) = (s :: s :: rest, []) := by
      simp [replaceFront, doubling, lastOutput?]
    rw [sweep?, if_neg (by simp [doubling]), hfront]
    dsimp only
    rw [ih]
    rfl

/-- Once it has put a step there twice, what is in front of it is that step again. -/
theorem doubling_endless : ∃ steps, Chain.resolve [⟨.vertices, []⟩] = .ok steps ∧
    ∀ fuel, sweepAll? fuel [doubling] steps = none := by
  refine ⟨_, rfl, fun fuel => ?_⟩
  rw [sweepAll?, run?, if_neg (by decide), sweep?_doubling]
  rfl

end PlanRule

namespace Optimizer

theorem sweepAll?_foldl (rules : List SafeRule) {steps : List PlannedStep} {fuel : Nat}
    (hfuel : steps.length < fuel) (notices : List Notice) :
    (sweepAll? fuel (rules.map (·.1)) steps).map (fun rest => (rest.1, notices ++ rest.2)) =
      some (rules.foldl (fun (steps, notices) r =>
        let (steps, more) := r.apply steps
        (steps, notices ++ more)) (steps, notices)) := by
  induction rules generalizing steps notices with
  | nil => simp [sweepAll?]
  | cons r rules ih =>
    obtain ⟨first, hfirst, hlen⟩ := r.2.staysWithin.exists_run? (Nat.lt_succ_self steps.length)
    have happly : r.apply steps = first := Option.get_of_eq_some _ hfirst
    have hrest := ih (Nat.lt_of_le_of_lt hlen hfuel) (notices ++ first.2)
    rw [List.map_cons, PlanRule.sweepAll?_cons (PlanRule.run?_of_le hfirst hfuel), Option.map_map]
    simp only [List.foldl_cons, happly, ← hrest, Function.comp_def, List.append_assoc]

/-- What an optimizer makes of a plan is what its rules make of it, one after the other. -/
theorem sweepAll?_improve (o : Optimizer) {steps : List PlannedStep} {fuel : Nat}
    (hfuel : steps.length < fuel) :
    sweepAll? fuel (o.rules.map (·.1)) steps = some (o.improve steps) := by
  rw [improve, ← sweepAll?_foldl o.rules hfuel []]
  simp only [List.nil_append, Option.map_id']

end Optimizer

end PropertyGraph
