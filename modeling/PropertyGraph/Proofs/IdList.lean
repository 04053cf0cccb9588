/-
Stored lists of ids read back as what was written: `ids?_idList`, for any list of any
strings, as the text of a value reads back (`Json.parse?_text`).
-/
import Mathlib
import PropertyGraph.Graph.Adjacency
import PropertyGraph.Proofs.JsonText

namespace PropertyGraph

namespace Json

/-- Strings can be read back, and nothing nests in them. -/
theorem readableItems_strings (ss : List String) :
    readableItems (ss.map .str) = true ∧ depthItems (ss.map .str) = 0 := by
  induction ss with
  | nil => exact ⟨rfl, rfl⟩
  | cons s ss ih => simpa [readableItems, readable, depthItems, depth] using ih

/-- A list of strings reads back from its text. -/
theorem parse?_strings (ss : List String) : parse? (strings ss).text = some (strings ss) := by
  obtain ⟨hread, hdepth⟩ := readableItems_strings ss
  refine parse?_text ⟨by rw [strings, readable, hread], ?_⟩
  rw [strings, depth, hdepth]
  decide

end Json

namespace Graph

/-- A stored list of ids reads back. -/
theorem ids?_idList (ids : List String) : (idList ids).ids? = some ids := by
  have hmap : (ids.map Json.str).mapM Json.asString? = some ids := by
    induction ids with
    | nil => rfl
    | cons id ids ih => simp [List.mapM_cons, Json.asString?, ih]
  have hjson : (idList ids).json? = some (Json.strings ids) := Json.parse?_strings ids
  rw [Blob.ids?, hjson]
  exact hmap

end Graph

end PropertyGraph
