/-
What any rules leave of a plan. A rule may replace whatever it likes by whatever it likes; where
the replacement ends in the type of its window, so does the plan, and where it does not, nothing
changes. So whichever windows rules are shown, among them those that their own replacements and
those of other rules make, the plan of a chain ends in the type that the grammar gives the chain,
and each of its steps is one of the chain or was put in the place of a window that ended in the
same type (`PlanRule.sweepAll?_keeps`).
-/
import PropertyGraph.Proofs.GrowingRules
import PropertyGraph.Proofs.SoundRules

namespace PropertyGraph

namespace Chain

/-- The type that calls lead to from a type, by the grammar. -/
def type? (state : ResultType) : Chain → Option ResultType
  | [] => some state
  | call :: rest => (state.rule? call.operation).bind fun rule => type? rule.output rest

end Chain

namespace PlanRule

variable {r : PlanRule} {rules : List PlanRule} {fuel n : Nat}
  {steps rest window replacement : List PlannedStep} {s : PlannedStep}
  {found : List PlannedStep × List Notice}

/-- At its `n`-th look at a plan, the rule puts a replacement in the place of a window, which ends
in the same type. -/
def PutsIn (r : PlanRule) (n : Nat) (steps window replacement : List PlannedStep) : Prop :=
  ∃ front, r.ahead? n steps = some front ∧ window = front.take r.window ∧
    r.Replaces window replacement

/-- Whatever the rule has for a window ends in another type. -/
def Retypes (r : PlanRule) : Prop :=
  ∀ window replacement, window.length = r.window → r.replace window = some replacement →
    lastOutput? replacement ≠ lastOutput? window

/-! ## The type a plan ends in -/

theorem output_eq (steps : List PlannedStep) :
    Plan.output ⟨steps⟩ = (lastOutput? steps).getD .graph := rfl

@[simp]
theorem lastOutput?_append (front behind : List PlannedStep) :
    lastOutput? (front ++ behind) = (lastOutput? behind).or (lastOutput? front) := by
  cases h : behind.getLast? <;> simp [lastOutput?, h]

theorem lastOutput?_eq_none : lastOutput? steps = none ↔ steps = [] := by
  simp [lastOutput?]

theorem lastOutput?_cons (s : PlannedStep) (rest : List PlannedStep) :
    lastOutput? (s :: rest) = (lastOutput? rest).or (some s.output) :=
  lastOutput?_append [s] rest

/-- A look at a window either leaves the plan alone or replaces the window. -/
theorem replaceFront_cases (hlen : r.window ≤ steps.length) :
    (r.replaceFront steps).1 = steps ∨ ∃ replacement, r.Replaces (steps.take r.window) replacement ∧
      (r.replaceFront steps).1 = replacement ++ steps.drop r.window := by
  simp only [replaceFront]
  split
  · exact .inl rfl
  · rename_i replacement hreplace
    split
    · rename_i hkeeps
      exact .inr ⟨replacement, ⟨List.length_take_of_le hlen, hreplace, beq_iff_eq.1 hkeeps⟩, rfl⟩
    · exact .inl rfl

theorem lastOutput?_replaceFront (hlen : r.window ≤ steps.length) :
    lastOutput? (r.replaceFront steps).1 = lastOutput? steps := by
  rcases replaceFront_cases hlen with hsame | ⟨replacement, hreplaces, hput⟩
  · rw [hsame]
  · rw [hput, lastOutput?_append, hreplaces.output, ← lastOutput?_append, List.take_append_drop]

theorem lastOutput?_sweep? (h : r.sweep? fuel steps = some found) :
    lastOutput? found.1 = lastOutput? steps := by
  induction fuel generalizing steps found with
  | zero => cases h
  | succ fuel ih =>
    rw [sweep?] at h
    split at h
    · cases h
      rfl
    · rename_i hlen
      have hfront := lastOutput?_replaceFront (Nat.le_of_not_lt hlen)
      split at h
      · rename_i hnil
        cases h
        rw [← hfront, hnil]
      · rename_i hcons
        obtain ⟨more, hmore, rfl⟩ := Option.map_eq_some_iff.1 h
        rw [hcons] at hfront
        rw [← hfront, lastOutput?_cons, lastOutput?_cons, ih hmore]

theorem lastOutput?_run? (h : r.run? fuel steps = some found) :
    lastOutput? found.1 = lastOutput? steps := by
  rw [run?] at h
  split at h
  · cases h
    rfl
  · exact lastOutput?_sweep? h

theorem lastOutput?_sweepAll? (h : sweepAll? fuel rules steps = some found) :
    lastOutput? found.1 = lastOutput? steps := by
  induction rules generalizing steps found with
  | nil =>
    cases h
    rfl
  | cons r rules ih =>
    cases hrun : r.run? fuel steps with
    | none =>
      rw [sweepAll?, hrun] at h
      cases h
    | some first =>
      rw [sweepAll?_cons hrun, Option.map_eq_some_iff] at h
      obtain ⟨more, hmore, rfl⟩ := h
      exact (ih hmore).trans (lastOutput?_run? hrun)

/-! ## Where the steps of a plan come from -/

/-- What comes of a step further on comes of the plan. -/
theorem PutsIn.behind (hbehind : r.behind? steps = some rest)
    (h : r.PutsIn n rest window replacement) : r.PutsIn (n + 1) steps window replacement := by
  obtain ⟨front, hahead, hwindow⟩ := h
  exact ⟨front, by rw [ahead?, hbehind]; exact hahead, hwindow⟩

theorem mem_replaceFront (hlen : r.window ≤ steps.length) (hs : s ∈ (r.replaceFront steps).1) :
    s ∈ steps ∨ ∃ n window replacement, r.PutsIn n steps window replacement ∧ s ∈ replacement := by
  rcases replaceFront_cases hlen with hsame | ⟨replacement, hreplaces, hput⟩
  · exact .inl (hsame ▸ hs)
  · rw [hput, List.mem_append] at hs
    rcases hs with hs | hs
    · exact .inr ⟨0, _, replacement, ⟨steps, rfl, rfl, hreplaces⟩, hs⟩
    · exact .inl (List.mem_of_mem_drop hs)

theorem mem_sweep? (h : r.sweep? fuel steps = some found) (hs : s ∈ found.1) :
    s ∈ steps ∨ ∃ n window replacement, r.PutsIn n steps window replacement ∧ s ∈ replacement := by
  induction fuel generalizing steps found with
  | zero => cases h
  | succ fuel ih =>
    rw [sweep?] at h
    split at h
    · cases h
      exact .inl hs
    · rename_i hlen
      have hfront := fun {t} => mem_replaceFront (s := t) (Nat.le_of_not_lt hlen)
      split at h
      · cases h
        cases hs
      · rename_i first rest notices hcons
        obtain ⟨more, hmore, rfl⟩ := Option.map_eq_some_iff.1 h
        have hbehind : r.behind? steps = some rest := by rw [behind?, if_neg hlen, hcons]
        rw [hcons] at hfront
        rcases List.mem_cons.1 hs with rfl | hs
        · exact hfront List.mem_cons_self
        · rcases ih hmore hs with hs | ⟨n, window, replacement, hputs, hs⟩
          · exact hfront (List.mem_cons_of_mem _ hs)
          · exact .inr ⟨n + 1, window, replacement, hputs.behind hbehind, hs⟩

theorem mem_run? (h : r.run? fuel steps = some found) (hs : s ∈ found.1) :
    s ∈ steps ∨ ∃ n window replacement, r.PutsIn n steps window replacement ∧ s ∈ replacement := by
  rw [run?] at h
  split at h
  · cases h
    exact .inl hs
  · exact mem_sweep? h hs

/-- One of the rules, run on what the rules before it left, puts the step in. -/
def Supplied (rules : List PlanRule) (steps : List PlannedStep) (s : PlannedStep) : Prop :=
  ∃ before r after, rules = before ++ r :: after ∧
    ∃ fuel left, sweepAll? fuel before steps = some left ∧
      ∃ n window replacement, r.PutsIn n left.1 window replacement ∧ s ∈ replacement

/-- What is supplied behind a first rule. -/
theorem Supplied.cons {first : List PlannedStep × List Notice}
    (hfirst : r.run? fuel steps = some first) (h : Supplied rules first.1 s) :
    Supplied (r :: rules) steps s := by
  obtain ⟨before, r', after, rfl, fuel', left, hleft, hputs⟩ := h
  refine ⟨r :: before, r', after, rfl, max fuel fuel', (left.1, first.2 ++ left.2), ?_, hputs⟩
  rw [sweepAll?_cons (run?_of_le hfirst (Nat.le_max_left fuel fuel')),
    sweepAll?_of_le hleft (Nat.le_max_right fuel fuel')]
  rfl

theorem mem_sweepAll? (h : sweepAll? fuel rules steps = some found) (hs : s ∈ found.1) :
    s ∈ steps ∨ Supplied rules steps s := by
  induction rules generalizing steps found with
  | nil =>
    cases h
    exact .inl hs
  | cons r rules ih =>
    cases hrun : r.run? fuel steps with
    | none =>
      rw [sweepAll?, hrun] at h
      cases h
    | some first =>
      rw [sweepAll?_cons hrun, Option.map_eq_some_iff] at h
      obtain ⟨more, hmore, rfl⟩ := h
      rcases ih hmore hs with hs | hsupplied
      · exact (mem_run? hrun hs).imp_right fun hputs =>
          ⟨[], r, rules, rfl, fuel, (steps, []), rfl, hputs⟩
      · exact .inr (hsupplied.cons hrun)

/-! ## Rules that the type check always stops -/

theorem Retypes.replaceFront (h : r.Retypes) (hlen : r.window ≤ steps.length) :
    ∃ notices, r.replaceFront steps = (steps, notices) ∧
      ∀ notice ∈ notices, notice = .ruleSkipped r.name := by
  simp only [PlanRule.replaceFront]
  split
  · exact ⟨[], rfl, by simp⟩
  · rename_i replacement hreplace
    have hretypes := h _ _ (List.length_take_of_le hlen) hreplace
    rw [if_neg (by simpa using hretypes)]
    exact ⟨_, rfl, by simp⟩

theorem Retypes.sweep? (h : r.Retypes) (hfuel : steps.length < fuel) :
    ∃ notices, r.sweep? fuel steps = some (steps, notices) ∧
      ∀ notice ∈ notices, notice = .ruleSkipped r.name := by
  induction fuel generalizing steps with
  | zero => omega
  | succ fuel ih =>
    rw [PlanRule.sweep?]
    split
    · exact ⟨[], rfl, by simp⟩
    · rename_i hlen
      obtain ⟨notices, hfront, hskipped⟩ := h.replaceFront (Nat.le_of_not_lt hlen)
      rw [hfront]
      cases steps with
      | nil => exact ⟨notices, rfl, hskipped⟩
      | cons first rest =>
        have hrest : rest.length < fuel := by simpa using hfuel
        obtain ⟨more, hmore, hskipped'⟩ := ih hrest
        refine ⟨notices ++ more, by simp [hmore], ?_⟩
        simp only [List.mem_append]
        rintro notice (hnotice | hnotice)
        · exact hskipped notice hnotice
        · exact hskipped' notice hnotice

theorem Retypes.run? (h : r.Retypes) (hfuel : steps.length < fuel) :
    ∃ notices, r.run? fuel steps = some (steps, notices) ∧
      ∀ notice ∈ notices, notice = .ruleSkipped r.name := by
  rw [PlanRule.run?]
  split
  · exact ⟨[], rfl, by simp⟩
  · exact h.sweep? hfuel

end PlanRule

/-! ## The type of a chain -/

namespace Chain

theorem type?_of_resolveFrom {chain : Chain} {state : ResultType} {steps : List PlannedStep}
    (h : resolveFrom state chain = .ok steps) :
    chain.type? state = some ((PlanRule.lastOutput? steps).getD state) := by
  induction chain generalizing state steps with
  | nil =>
    cases h
    rfl
  | cons call rest ih =>
    obtain ⟨rule, hrule, h⟩ := bind_eq_ok.1 h
    obtain ⟨step, -, h⟩ := bind_eq_ok.1 h
    obtain ⟨others, hothers, h⟩ := bind_eq_ok.1 h
    cases h
    rw [type?, resolve_eq_ok hrule, PlanRule.lastOutput?_cons]
    cases hlast : PlanRule.lastOutput? others <;> simp [ih hothers, hlast]

theorem names_of_resolveFrom {chain : Chain} {state : ResultType} {steps : List PlannedStep}
    (h : resolveFrom state chain = .ok steps) :
    steps.map (·.name) = chain.map (·.operation.name) := by
  induction chain generalizing state steps with
  | nil =>
    cases h
    rfl
  | cons call rest ih =>
    obtain ⟨rule, -, h⟩ := bind_eq_ok.1 h
    obtain ⟨step, -, h⟩ := bind_eq_ok.1 h
    obtain ⟨others, hothers, h⟩ := bind_eq_ok.1 h
    cases h
    rw [List.map_cons, List.map_cons, ih hothers]

/-- The last step that a chain resolves to is that of the last call, and yields the type of the
chain. -/
theorem exists_last_of_resolve {chain : Chain} {steps : List PlannedStep}
    (h : chain.resolve = .ok steps) :
    ∃ call ∈ chain.getLast?, ∃ last ∈ steps.getLast?, last.name = call.operation.name ∧
      chain.type? .graph = some last.output := by
  obtain ⟨first, rest, rfl, -⟩ := walks_of_resolve h
  obtain ⟨_, -, h⟩ := bind_eq_ok.1 h
  obtain ⟨found, hfound, h⟩ := bind_eq_ok.1 h
  cases h
  have hnames := congrArg List.getLast? (names_of_resolveFrom hfound)
  have htype := type?_of_resolveFrom hfound
  rw [List.getLast?_map, List.getLast?_map] at hnames
  obtain ⟨last, hlast⟩ : ∃ last, (first :: rest).getLast? = some last := ⟨_, List.getLast?_cons⟩
  rw [PlanRule.lastOutput?, hlast] at htype
  rw [hlast] at hnames
  obtain ⟨call, hcall, hname⟩ := Option.map_eq_some_iff.1 hnames.symm
  exact ⟨call, hcall, last, by rw [List.getLast?_cons_cons]; exact hlast, hname.symm, htype⟩

end Chain

namespace PlanRule

/-- **What any rules leave of a plan.** Let a chain resolve to a plan, and let rules of any windows
and replacements, among them such as see their own work again, come to an end on it. What they
leave is not empty and ends in the type of the last call, which is the one the grammar gives the
chain. Each step of it is one that the chain resolved to or one that a rule put in the place of a
window that ended in the same type, at some look at what the rules before it had left. A rule
whose replacements all end in another type than their windows comes to an end on any plan, leaves
it as it is, and notes nothing but that it was skipped. -/
theorem sweepAll?_keeps {chain : Chain} {resolved : List PlannedStep}
    (hresolve : chain.resolve = .ok resolved) (rules : List PlanRule) :
    (∀ fuel found, sweepAll? fuel rules resolved = some found →
      found.1 ≠ [] ∧
      (∃ call ∈ chain.getLast?, ∃ last ∈ resolved.getLast?, last.name = call.operation.name ∧
        Plan.output ⟨found.1⟩ = last.output ∧ chain.type? .graph = some last.output) ∧
      ∀ s ∈ found.1, s ∈ resolved ∨ Supplied rules resolved s) ∧
    ∀ r : PlanRule, r.Retypes → ∀ steps, ∀ fuel, steps.length < fuel →
      ∃ notices, r.run? fuel steps = some (steps, notices) ∧
        ∀ notice ∈ notices, notice = .ruleSkipped r.name := by
  refine ⟨fun fuel found hfound => ?_, fun r hretypes steps fuel hfuel => hretypes.run? hfuel⟩
  obtain ⟨call, hcall, last, hlast, hname, htype⟩ := Chain.exists_last_of_resolve hresolve
  have hresolved : lastOutput? resolved = some last.output := by
    rw [lastOutput?, Option.mem_def.1 hlast]
    rfl
  have hkept := (lastOutput?_sweepAll? hfound).trans hresolved
  refine ⟨fun hnil => ?_, ⟨call, hcall, last, hlast, hname, ?_, htype⟩,
    fun s hs => mem_sweepAll? hfound hs⟩
  · rw [lastOutput?_eq_none.2 hnil] at hkept
    cases hkept
  · rw [output_eq, hkept]
    rfl

/-- Puts a limit behind a count, which grows the plan. -/
def limitingCounts : PlanRule where
  name := "limiting-counts"
  window := 1
  replace := fun
    | [s] =>
      if s.step = .count then some [s, ⟨"limit", [.nat 1], .value, .value, .limit 1⟩] else none
    | _ => none

theorem retypes_typeChanging : Rule.typeChanging.1.Retypes := by
  intro window replacement hlen hreplace
  obtain ⟨s, rfl⟩ := List.length_eq_one_iff.1 hlen
  simp only [Rule.typeChanging, Rule.onEachStep, Option.map_eq_some_iff,
    Option.ite_none_right_eq_some] at hreplace
  obtain ⟨step, ⟨hvertex, hstep⟩, rfl⟩ := hreplace
  cases hstep
  simp [lastOutput?, beq_iff_eq.1 hvertex]

/-- Rules of which one changes types, one erases, one looks at nothing, one shortens the plan and
one grows it. -/
def motley : List PlanRule :=
  [Rule.typeChanging.1, Rule.erase.1, Rule.zeroWindow.1, Rule.vertexLabelScan.1, limitingCounts]

/-- How many people there are. -/
def countPeople : Chain :=
  [⟨.vertices, []⟩, ⟨.has, [.str "label", .str "person"]⟩, ⟨.count, []⟩]

/-- What they leave of its plan. -/
def countPeoplePlan : List PlannedStep :=
  [.root, ⟨"labelScan", [.str "person"], .graph, .vertex, .verticesWithLabel "person"⟩,
    ⟨"count", [], .vertex, .value, .count⟩, ⟨"limit", [.nat 1], .value, .value, .limit 1⟩]

theorem sweepAll?_keeps_motley : ∃ resolved, countPeople.resolve = .ok resolved ∧
    ∃ notices, sweepAll? 10 motley resolved = some (countPeoplePlan, notices) ∧
      Plan.output ⟨countPeoplePlan⟩ = .value ∧ countPeople.type? .graph = some .value ∧
      (∀ s ∈ countPeoplePlan, s ∈ resolved ∨ Supplied motley resolved s) ∧
      Rule.typeChanging.1.Retypes ∧
      ∃ notices, Rule.typeChanging.1.run? 10 countPeoplePlan = some (countPeoplePlan, notices) ∧
        ∀ notice ∈ notices, notice = .ruleSkipped "type-changing" := by
  obtain ⟨resolved, hresolve⟩ : ∃ resolved, countPeople.resolve = .ok resolved := ⟨_, rfl⟩
  obtain ⟨notices, hfound⟩ : ∃ notices, sweepAll? 10 motley resolved = some (countPeoplePlan, notices) := by
    cases hresolve
    exact ⟨_, rfl⟩
  obtain ⟨hkeeps, hretypes⟩ := sweepAll?_keeps hresolve motley
  obtain ⟨-, ⟨-, -, last, -, -, houtput, htype⟩, hmem⟩ := hkeeps 10 _ hfound
  refine ⟨resolved, hresolve, notices, hfound, rfl, ?_, hmem, retypes_typeChanging,
    hretypes _ retypes_typeChanging countPeoplePlan 10 (by decide)⟩
  rw [htype, ← houtput]
  rfl

end PlanRule

end PropertyGraph
