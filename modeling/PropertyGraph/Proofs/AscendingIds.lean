/-
Ids in order. Ids are handed out in ascending order and elements are only ever put last or taken
out, so the ids of a graph ascend in the order its elements were created, whatever operations made
it (`Multigraph.Ascending.history`).
-/
import PropertyGraph.Proofs.RecordOps

namespace PropertyGraph

namespace Multigraph

/-- The ids of the elements of each kind ascend, and are among those handed out. -/
structure Ascending (ids : Nat → String) (s : Multigraph × Nat) : Prop where
  ascending : ∀ kind, (s.1.ids kind).Pairwise fun a b => compare a b = .lt
  born : ∀ kind id, id ∈ s.1.ids kind → ∃ i < s.2, ids i = id

variable {ids : Nat → String} {s : Multigraph × Nat} {g g' : Multigraph}

/-! ## The ids that changes leave -/

theorem ids_addVertex (g : Multigraph) (v : Vertex) (kind : ElementKind) :
    (g.addVertex v).ids kind = g.ids kind ++ if kind = .vertex then [v.id] else [] := by
  cases kind <;> simp [Multigraph.ids, addVertex]

theorem ids_addEdge (g : Multigraph) (x : Edge) (kind : ElementKind) :
    (g.addEdge x).ids kind = g.ids kind ++ if kind = .edge then [x.id] else [] := by
  cases kind <;> simp [Multigraph.ids, addEdge]

theorem ids_removeEdges_sublist (g : Multigraph) (gone : List String) (kind : ElementKind) :
    ((g.removeEdges gone).ids kind).Sublist (g.ids kind) := by
  cases kind with
  | vertex => exact .refl _
  | edge => exact List.filter_sublist.map _

theorem ids_dropVertex_sublist (g : Multigraph) (id : String) (kind : ElementKind) :
    ((g.dropVertex id).ids kind).Sublist (g.ids kind) := by
  cases kind with
  | vertex => exact List.filter_sublist.map _
  | edge => exact g.ids_removeEdges_sublist _ .edge

/-! ## Ids in order -/

namespace Ascending

theorem empty (ids : Nat → String) (n : Nat) : Ascending ids (.empty, n) where
  ascending kind := by cases kind <;> exact .nil
  born kind id hid := by cases kind <;> simp [Multigraph.ids, Multigraph.empty] at hid

/-- Where elements are only taken out, the ids that are left ascend. -/
theorem sublist (h : Ascending ids s) (hsub : ∀ kind, (g.ids kind).Sublist (s.1.ids kind)) :
    Ascending ids (g, s.2) where
  ascending kind := (h.ascending kind).sublist (hsub kind)
  born kind id hid := h.born kind id ((hsub kind).subset hid)

/-- The next id is above all ids there are, so ids ascend when an element gets it. -/
theorem append (h : Ascending ids s) (hids : GoodIds ids (s.2 + 1))
    (hnew : ∀ kind, ∃ new, g.ids kind = s.1.ids kind ++ new ∧ (new = [] ∨ new = [ids s.2])) :
    Ascending ids (g, s.2 + 1) where
  ascending kind := by
    obtain ⟨new, hg, hone⟩ := hnew kind
    rw [hg, List.pairwise_append]
    refine ⟨h.ascending kind, ?_, fun a ha b hb => ?_⟩
    · rcases hone with rfl | rfl
      · exact .nil
      · exact List.pairwise_singleton _ _
    · obtain rfl : b = ids s.2 := by
        rcases hone with rfl | rfl
        · cases hb
        · exact List.mem_singleton.1 hb
      obtain ⟨i, hi, rfl⟩ := h.born kind a ha
      exact hids.ascending s.2 (by omega) i hi
  born kind id hid := by
    obtain ⟨new, hg, hone⟩ := hnew kind
    rw [hg, List.mem_append] at hid
    rcases hid with hid | hid
    · obtain ⟨i, hi, he⟩ := h.born kind id hid
      exact ⟨i, by omega, he⟩
    · rcases hone with rfl | rfl
      · cases hid
      · exact ⟨s.2, by omega, (List.mem_singleton.1 hid).symm⟩

theorem step (h : Ascending ids s) {op : RecordOp} (hids : GoodIds ids (Multigraph.step ids s op).2) :
    Ascending ids (Multigraph.step ids s op) := by
  cases op with
  | createVertex label =>
    simp only [Multigraph.step] at hids ⊢
    split at hids
    · rename_i hlabel
      rw [if_pos hlabel]
      refine h.append hids fun kind => ⟨_, s.1.ids_addVertex _ kind, ?_⟩
      cases kind <;> simp
    · rename_i hlabel
      rwa [if_neg hlabel]
  | createEdge label source target =>
    simp only [Multigraph.step] at hids ⊢
    split at hids
    · rename_i hnew
      rw [if_pos hnew]
      refine h.append hids fun kind => ⟨_, s.1.ids_addEdge _ kind, ?_⟩
      cases kind <;> simp
    · rename_i hnew
      rwa [if_neg hnew]
  | setProperty kind id key value =>
    simp only [Multigraph.step]
    split
    · exact h.sublist fun _ => .refl _
    · exact h
  | dropEdge id => exact h.sublist (s.1.ids_removeEdges_sublist [id])
  | dropVertex id => exact h.sublist (s.1.ids_dropVertex_sublist id)
  | dropAll => exact .empty ids s.2

/-- Whatever operations ran, the ids of the elements ascend. -/
theorem history (h : Ascending ids s) {ops : List RecordOp}
    (hids : GoodIds ids (Multigraph.history ids ops s).2) :
    Ascending ids (Multigraph.history ids ops s) := by
  induction ops generalizing s with
  | nil => exact h
  | cons op ops ih => exact ih (h.step (hids.mono (Multigraph.le_history ids ops _))) hids

/-- All ids have one length. -/
theorem length_id (h : Ascending ids s) (hids : GoodIds ids s.2) {kind : ElementKind} {id : String}
    (hid : id ∈ s.1.ids kind) : id.toList.length = 32 := by
  obtain ⟨i, hi, rfl⟩ := h.born kind id hid
  exact (hids.wellFormed i hi).1

/-- The ids of the edges at a scope ascend. -/
theorem edgesAt (h : Ascending ids s) (p : Scope) :
    ((s.1.edgesAt p).map (·.id)).Pairwise fun a b => compare a b = .lt :=
  (h.ascending .edge).sublist (List.filter_sublist.map _)

end Ascending

end Multigraph

end PropertyGraph
