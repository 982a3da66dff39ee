import Formula.Sampling
import Mathlib.Data.List.Sort

/-!
# Workers

A worker's session differs from the session it was copied from in the binding of the
sampled variable and in the result alone, and a visit overwrites the first before it
evaluates. So every visit has the outcome of its position taken by itself, and the
order of the indices puts the outcomes of any shares in one and the same list.
-/

namespace Formula

namespace Sampling

/-- The outcome at a position, taken by itself: the tree under the bindings of the session,
with the sampled variable at the position. -/
def outcomeAt (config : Sampling) (session : Session) (tree : Expression)
    (position : Float) : Except Failure Float :=
  tree.evaluate session.registry (session.bindings.insert config.target position)

/-- The samples when every position is taken by itself. -/
def pointwise (config : Sampling) (session : Session) (tree : Expression) : Samples :=
  let outcomes := config.positions.map (config.outcomeAt session tree)
  { positions := config.positions
    values := outcomes.map fun outcome => outcome.toOption.getD config.fallback
    failures := .ofOutcomes outcomes }

/-- A session that any history of visits may have made of a copy. -/
structure IsWorker (config : Sampling) (session worker : Session) : Prop where
  root : worker.root? = session.root?
  registry : worker.registry = session.registry
  bindings : ∀ position, worker.bindings.insert config.target position =
    session.bindings.insert config.target position

variable {config : Sampling} {session worker : Session} {tree : Expression}

theorem IsWorker.copy (config : Sampling) (session : Session) :
    IsWorker config session session :=
  ⟨rfl, rfl, fun _ => rfl⟩

/-! ## One visit -/

theorem visit_session (config : Sampling) (session : Session) (index : Nat) :
    ∃ result, (config.visit session index).1 =
      { session.set config.target (config.position index) with result := result } := by
  simp only [visit, Session.eval]
  cases (session.set config.target (config.position index)).value with
  | ok value => exact ⟨value, rfl⟩
  | error failure => exact ⟨session.result, rfl⟩

theorem visit_outcome (config : Sampling) (session : Session) (index : Nat) :
    (config.visit session index).2 =
      (session.set config.target (config.position index)).value := by
  simp only [visit, Session.eval]
  cases (session.set config.target (config.position index)).value <;> rfl

theorem IsWorker.visit (h : IsWorker config session worker) (index : Nat) :
    IsWorker config session (config.visit worker index).1 := by
  rcases visit_session config worker index with ⟨result, hvisit⟩
  rw [hvisit]
  refine ⟨h.root, h.registry, fun position => ?_⟩
  simp only [Session.set, Table.insert_insert, h.bindings]

theorem IsWorker.outcome (h : IsWorker config session worker)
    (hroot : session.root? = some tree) (index : Nat) :
    (config.visit worker index).2 =
      config.outcomeAt session tree (config.position index) := by
  have hworker : (worker.set config.target (config.position index)).root? = some tree :=
    h.root.trans hroot
  rw [visit_outcome, Session.value, hworker]
  simp only [Session.set, h.registry, h.bindings, outcomeAt]

/-! ## One share -/

theorem work_cons (config : Sampling) (worker : Session) (index : Nat) (share : List Nat) :
    config.work worker (index :: share) =
      (index, (config.visit worker index).2) ::
        config.work (config.visit worker index).1 share := rfl

theorem IsWorker.work (h : IsWorker config session worker)
    (hroot : session.root? = some tree) (share : List Nat) :
    config.work worker share =
      share.map fun index =>
        (index, config.outcomeAt session tree (config.position index)) := by
  induction share generalizing worker with
  | nil => rfl
  | cons index share ih =>
      rw [work_cons, List.map_cons, h.outcome hroot index, ih (h.visit index)]

/-! ## All shares -/

theorem mergeSort_of_perm_range {indices : List Nat} {count : Nat}
    (h : indices.Perm (List.range count)) :
    indices.mergeSort (fun a b => a ≤ b) = List.range count := by
  have hperm := (List.mergeSort_perm indices fun a b => a ≤ b).trans h
  exact hperm.eq_of_sortedLE List.sortedLE_mergeSort (List.sortedLT_range count).sortedLE

theorem outcomes_eq (hroot : session.root? = some tree) {shares : List (List Nat)}
    (h : shares.flatten.Perm (List.range config.count)) :
    config.outcomes session shares =
      config.positions.map (config.outcomeAt session tree) := by
  have hwork : shares.flatMap (config.work session) =
      shares.flatten.map fun index =>
        (index, config.outcomeAt session tree (config.position index)) := by
    rw [List.map_flatten, List.flatMap_def]
    congr 1
    exact List.map_congr_left fun share _ => (IsWorker.copy config session).work hroot share
  have hsort : (shares.flatMap (config.work session)).mergeSort (fun a b => a.1 ≤ b.1) =
      (List.range config.count).map fun index =>
        (index, config.outcomeAt session tree (config.position index)) := by
    rw [hwork, ← mergeSort_of_perm_range h]
    refine (List.map_mergeSort ?_).symm
    intro a _ b _
    rfl
  rw [outcomes, hsort, positions, List.map_map, List.map_map]
  rfl

theorem sampleShared_of_perm (hroot : session.root? = some tree) {shares : List (List Nat)}
    (h : shares.flatten.Perm (List.range config.count)) :
    config.sampleShared session shares = .ok (config.pointwise session tree) := by
  simp only [sampleShared, hroot, outcomes_eq hroot h, pointwise]

/-- One worker that visits every index in turn gives the outcomes of the single positions. -/
theorem sample_eq_pointwise (hroot : session.root? = some tree) :
    config.sample session = .ok (config.pointwise session tree) :=
  sampleShared_of_perm hroot (by rw [List.flatten_singleton])

/-- However the indices are shared out, sampling a session that holds a tree gives at every
position the outcome of the position taken by itself. So no two ways to share them out differ
in anything. -/
theorem sampleShared_eq_pointwise (config : Sampling) (session : Session)
    (tree : Expression) (hroot : session.root? = some tree) (shares : List (List Nat))
    (hshares : shares.flatten.Perm (List.range config.count)) :
    config.sampleShared session shares = .ok (config.pointwise session tree) ∧
      ∀ others : List (List Nat), others.flatten.Perm (List.range config.count) →
        config.sampleShared session others = config.sampleShared session shares := by
  have hsamples := sampleShared_of_perm hroot hshares
  refine ⟨hsamples, fun others hothers => ?_⟩
  rw [sampleShared_of_perm hroot hothers, hsamples]

/-- A session that holds the tree of `x / x`, which has no value at zero. -/
def selfQuotient : Session :=
  { Session.ofRegistry .empty with
      text := "x / x", root? := some (.binary .divide (.var "x") (.var "x")) }

/-- Of the positions `-1`, `0` and `1` one worker fails at the second and then goes on. -/
theorem sampleShared_selfQuotient :
    selfQuotient.root? = some (.binary .divide (.var "x") (.var "x")) ∧
      [[1, 2], [0]].flatten.Perm (List.range 3) ∧
      sampleShared ⟨"x", -1, 2, 3, 9⟩ selfQuotient [[1, 2], [0]] =
        .ok (pointwise ⟨"x", -1, 2, 3, 9⟩ selfQuotient (.binary .divide (.var "x") (.var "x"))) := by
  have hroot : selfQuotient.root? = some (.binary .divide (.var "x") (.var "x")) := rfl
  have hshares : [[1, 2], [0]].flatten.Perm (List.range 3) := by decide
  exact ⟨hroot, hshares,
    (sampleShared_eq_pointwise ⟨"x", -1, 2, 3, 9⟩ selfQuotient _ hroot _ hshares).1⟩

end Sampling

end Formula
