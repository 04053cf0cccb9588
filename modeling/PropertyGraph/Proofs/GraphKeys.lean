/-
Dropping a whole graph where deletes fail. The keys that go are told from all others by their first
two tokens alone (`Key.InGraph`), whatever else the store holds. The scan for them brings each of
them once, though its four ranges lie close together, so every one is asked to go exactly once: those
whose delete fails stay, and so does everything that is no key of a graph (`Engine.dropAll_flaky`).
-/
import PropertyGraph.Proofs.FlakyStore

namespace PropertyGraph

open PropertyGraph.Graph

/-! ## Keys of a graph -/

namespace Key

/-- A key of a graph: its first token names a kind of record, and a second one is there and not
empty. -/
def InGraph (key : String) : Prop :=
  ∃ root ∈ ["nodes", "edges", "node", "edge"], ∃ t rest, tokens key = root :: t :: rest ∧ t ≠ ""

end Key

/-- The patterns of a whole graph match the keys of a graph and no others. -/
theorem graphPatterns_accept {key : String} :
    (∃ p ∈ graphPatterns, p.accepts key = true) ↔ Key.InGraph key := by
  simp only [graphPatterns, Key.InGraph, List.mem_cons, List.not_mem_nil, or_false,
    exists_eq_or_imp, exists_eq_left]
  have hbelow : ∀ root, (KeyPattern.below root).accepts key = true ↔
      ∃ t rest, Key.tokens key = root :: t :: rest ∧ t ≠ "" := fun root =>
    KeyPattern.matchTokens_below (l := [root])
  simp only [hbelow]

instance : DecidablePred Key.InGraph := fun _ => decidable_of_iff _ graphPatterns_accept

/-- The records of a property and of an edge are keys of a graph, a key of another kind is none, and
neither is one whose second token is missing or empty. -/
example : Key.InGraph "node.a.property.name" ∧ Key.InGraph "edges.b" ∧ ¬ Key.InGraph "nodes" ∧
    ¬ Key.InGraph "node..a" ∧ ¬ Key.InGraph "nodesx.a" := by decide

variable {σ : Type} [Backend σ] [LawfulBackend σ]

/-- The keys that go with a whole graph. -/
def Engine.doomed (e : Engine σ) : List String :=
  (KeyScan.start graphPatterns).brings ((KeyScan.start graphPatterns).pending e.keys)

theorem Engine.nodup_doomed (e : Engine σ) : e.doomed.Nodup := KeyScan.nodup_brings rfl _

theorem Engine.mem_doomed {e : Engine σ} {key : String} :
    key ∈ e.doomed ↔ key ∈ e.keys ∧ Key.InGraph key := by
  rw [doomed, KeyScan.mem_brings_start (by decide) fun p hp => (graphPatterns_ranged p hp).1,
    graphPatterns_accept]

/-! ## Deletes on schedule -/

deriving instance DecidableEq for DeleteCall

namespace Flaky

/-- The deletes of some keys, in order, where so many were asked for before. -/
def scheduled (fails : Nat → Bool) : Nat → List String → List DeleteCall
  | _, [] => []
  | n, key :: keys => ⟨key, fails n⟩ :: scheduled fails (n + 1) keys

variable {fails : Nat → Bool} {n : Nat} {keys : List String}

theorem map_key_scheduled : (scheduled fails n keys).map (·.key) = keys := by
  induction keys generalizing n with
  | nil => rfl
  | cons key keys ih => exact congrArg (key :: ·) ih

theorem getElem?_scheduled {i : Nat} {call : DeleteCall}
    (h : (scheduled fails n keys)[i]? = some call) : call.failed = fails (n + i) := by
  induction keys generalizing n i with
  | nil => cases h
  | cons key keys ih =>
    cases i with
    | zero =>
      obtain rfl : ⟨key, fails n⟩ = call := Option.some.inj h
      rfl
    | succ i =>
      rw [ih h]
      congr 1
      omega

/-- Of distinct keys each is asked to go once, so a delete of it is made or fails. -/
theorem mem_scheduled (hnodup : keys.Nodup) {key : String} :
    DeleteCall.mk key false ∈ scheduled fails n keys ↔
      key ∈ keys ∧ DeleteCall.mk key true ∉ scheduled fails n keys := by
  induction keys generalizing n with
  | nil => simp [scheduled]
  | cons k keys ih =>
    obtain ⟨hk, hnodup⟩ := List.nodup_cons.1 hnodup
    have hlater : ∀ failed, DeleteCall.mk k failed ∉ scheduled fails (n + 1) keys := by
      intro failed hmem
      have hkey := List.mem_map_of_mem (f := DeleteCall.key) hmem
      rw [map_key_scheduled] at hkey
      exact hk hkey
    simp only [scheduled, List.mem_cons, DeleteCall.mk.injEq]
    by_cases heq : key = k
    · subst heq
      simp only [hlater, or_false, true_and, true_or]
      cases fails n <;> simp
    · simp [heq, ih hnodup]

end Flaky

/-- A delete that is asked for on schedule. -/
theorem Engine.deleteQuietly_scheduled (key : String) (e : Engine (Flaky σ)) :
    ((deleteQuietly key).run e).2.store =
      { e.store with
        store := if e.store.fails e.store.deletes.length then e.store.store
          else LawfulBackend.erase key e.store.store
        deletes := ⟨key, e.store.fails e.store.deletes.length⟩ :: e.store.deletes } := by
  have hrun := Flaky.delete_run key e.store
  rw [deleteQuietly, quietly, Run.bind_run, call_run, hrun]
  cases hfails : e.store.fails e.store.deletes.length with
  | true => rfl
  | false =>
    rw [if_neg (by simp), if_neg (by simp)]
    show ((quietly key () (call (Flaky.inside (Backend.delete key)))).run
      { e with store := { e.store with deletes := ⟨key, false⟩ :: e.store.deletes } }).2.store = _
    rw [Steady.quietly (.call _), quietly_ok (delete_run key _)]
    rfl

/-- Deletes that are asked for on schedule take away the keys whose delete is made. -/
theorem Engine.deleteAll_scheduled (keys : List String) (e : Engine (Flaky σ)) :
    let asked := Flaky.scheduled e.store.fails e.store.deletes.length keys
    let e' := ((keys.forM deleteQuietly).run e).2
    e'.store.deletes = asked.reverse ++ e.store.deletes ∧
      ∀ key, (LawfulBackend.entries e'.store.store).get? key =
        if DeleteCall.mk key false ∈ asked then none
        else (LawfulBackend.entries e.store.store).get? key := by
  induction keys generalizing e with
  | nil => exact ⟨rfl, fun key => rfl⟩
  | cons k keys ih =>
    have hfirst := deleteQuietly_scheduled k e
    obtain ⟨hdeletes, hentries⟩ := ih ((deleteQuietly k).run e).2
    simp only [hfirst, List.length_cons] at hdeletes hentries
    simp only [Flaky.scheduled, List.reverse_cons, List.append_assoc, List.singleton_append]
    refine ⟨hdeletes, fun key => (hentries key).trans ?_⟩
    simp only [List.mem_cons, DeleteCall.mk.injEq]
    by_cases hlater : DeleteCall.mk key false ∈
        Flaky.scheduled e.store.fails (e.store.deletes.length + 1) keys
    · simp [hlater]
    · rw [if_neg hlater]
      cases e.store.fails e.store.deletes.length with
      | true => simp [hlater]
      | false =>
        by_cases hkey : key = k
        · subst hkey
          simp [LawfulBackend.entries_erase]
        · simp [LawfulBackend.entries_erase, SortedMap.get?_erase_of_ne _ hkey, hkey, hlater]

/-! ## Dropping everything -/

/-- No failing delete is in the way of the scan, so every key of the graph is asked to go. -/
theorem Engine.dropAll_asks (e : Engine σ) (fails : Nat → Bool) :
    (dropAll : Attempt (Flaky σ) Unit).run.run (e.flaky fails) =
      (.ok (), ((e.doomed.forM deleteQuietly).run (e.flaky fails)).2) := by
  have hscan : (keysDespite "graph" allPatterns : Attempt (Flaky σ) _).run.run (e.flaky fails) =
      (.ok e.doomed, e.flaky fails) := by
    rw [Steady.keysDespite]
    exact congrArg (fun ran : Except Error (List String) × Engine σ => (ran.1,
      (e.flaky fails).onward ran.2)) (keysDespite_run parseAll_allPatterns (by decide)
        graphPatterns_ranged "graph" e)
  rw [dropAll]
  exact Attempt.bind_ok hscan _

/-- Dropping a whole graph out of a store of any contents, where any deletes fail: it comes to its
end, and asks each key of a graph to go exactly once. These are gone but for those whose delete
failed, and every other key has the entry it had. -/
theorem Engine.dropAll_flaky (e : Engine σ) (fails : Nat → Bool) :
    let e' := ((dropAll : Attempt (Flaky σ) Unit).run.run (e.flaky fails)).2
    ((dropAll : Attempt (Flaky σ) Unit).run.run (e.flaky fails)).1 = .ok () ∧
      ∃ asked : List DeleteCall, e'.store.deletes = asked.reverse ∧
        (asked.map (·.key)).Nodup ∧
        (∀ key, key ∈ asked.map (·.key) ↔ key ∈ e.keys ∧ Key.InGraph key) ∧
        (∀ n call, asked[n]? = some call → call.failed = fails n) ∧
        ∀ key, (LawfulBackend.entries e'.store.store).get? key =
          if Key.InGraph key ∧ DeleteCall.mk key true ∉ asked then none
          else (LawfulBackend.entries e.store).get? key := by
  intro e'
  have hrun := dropAll_asks e fails
  obtain ⟨hdeletes, hentries⟩ := deleteAll_scheduled e.doomed (e.flaky fails)
  have he' : e' = ((e.doomed.forM deleteQuietly).run (e.flaky fails)).2 := congrArg Prod.snd hrun
  rw [← he'] at hdeletes hentries
  refine ⟨congrArg Prod.fst hrun, Flaky.scheduled fails 0 e.doomed, ?_, ?_, fun key => ?_,
    fun n call hcall => ?_, fun key => ?_⟩
  · exact hdeletes.trans (List.append_nil _)
  · rw [Flaky.map_key_scheduled]
    exact e.nodup_doomed
  · rw [Flaky.map_key_scheduled, mem_doomed]
  · simpa using Flaky.getElem?_scheduled hcall
  · refine (hentries key).trans ?_
    show (if DeleteCall.mk key false ∈ Flaky.scheduled fails 0 e.doomed then none
      else (LawfulBackend.entries e.store).get? key) = _
    simp only [Flaky.mem_scheduled e.nodup_doomed, mem_doomed]
    by_cases hstored : key ∈ e.keys
    · simp [hstored]
    · have hnone : (LawfulBackend.entries e.store).get? key = none := by
        rw [keys, SortedMap.mem_keys_iff] at hstored
        simpa using hstored
      simp [hnone]

end PropertyGraph
