import Formula.Proofs.Session.History
import Formula.Proofs.Table.Sorted

/-!
# Descriptions of sessions

A session is described by its text, its result and the view of its bindings. The steps
that bind keep the first two, and what they make of the view shows no trace of their order.
-/

namespace Formula

namespace Step

/-- The step binds a variable, binds one that is absent, or removes one. -/
def Binds : Step → Prop
  | .set .. | .setIfAbsent .. | .unset .. => True
  | _ => False

/-- The value that a step leaves a name with, from the one it had. -/
def rebound (name : String) (old? : Option Float) : Step → Option Float
  | .set other value => if name = other then some value else old?
  | .setIfAbsent other value => if name = other then old?.or (some value) else old?
  | .unset other => if name = other then none else old?
  | _ => old?

end Step

namespace Session

variable {step : Step} {steps : List Step}

/-- The session after steps in turn. -/
def run (session : Session) (steps : List Step) : Session :=
  steps.foldl (fun session step => (session.perform step).1) session

/-! ## Binding steps -/

/-- What is left of a session by binding steps, which make `view` of its bindings. -/
structure Rebinds (session later : Session) (view : String → Option Float) : Prop where
  text : later.text = session.text
  result : later.result = session.result
  bindings : ∀ name, later.bindings.get? name = view name

theorem rebinds_perform (session : Session) (h : step.Binds) :
    Rebinds session (session.perform step).1
      fun name => step.rebound name (session.bindings.get? name) := by
  cases step with
  | set other value =>
      refine ⟨rfl, rfl, fun name => ?_⟩
      simp only [perform, set, Table.get?_insert, Step.rebound]
  | setIfAbsent other value =>
      refine ⟨rfl, rfl, fun name => ?_⟩
      simp only [perform, setIfAbsent, Table.get?_insertIfAbsent, Step.rebound]
      split
      · subst name
        cases session.bindings.get? other <;> rfl
      · rfl
  | unset other =>
      refine ⟨rfl, rfl, fun name => ?_⟩
      simp only [perform, unset, Table.get?_erase, Step.rebound]
  | parse | eval | addParsedVariable | addConstant | addFunction => exact h.elim

theorem rebinds_run (session : Session) (h : ∀ step ∈ steps, step.Binds) :
    Rebinds session (session.run steps)
      fun name => steps.foldl (Step.rebound name) (session.bindings.get? name) := by
  induction steps generalizing session with
  | nil => exact ⟨rfl, rfl, fun _ => rfl⟩
  | cons step steps ih =>
      obtain ⟨hstep, hsteps⟩ := List.forall_mem_cons.1 h
      have hfirst := rebinds_perform session hstep
      have hrest := ih (session.perform step).1 hsteps
      refine ⟨hrest.text.trans hfirst.text, hrest.result.trans hfirst.result, fun name => ?_⟩
      rw [run, List.foldl_cons, List.foldl_cons, ← hfirst.bindings name]
      exact hrest.bindings name

/-! ## Descriptions -/

/-- Sessions with one text, one result and one view of the bindings are described alike. -/
theorem describe_congr {first second : Session} (htext : first.text = second.text)
    (hresult : first.result = second.result)
    (hview : ∀ name, first.bindings.get? name = second.bindings.get? name) :
    first.describe = second.describe := by
  rw [describe, describe, htext, hresult, Table.sorted_congr hview]

/-- The description of a session shows the text, the bindings and the result, whatever steps
led there. Binding steps keep text and result, and the value of a name is what they make of it
in turn. Sessions that they bring to one view are described alike. A description lists every
bound name once, with its value, in rising order of the UTF-8 bytes of the names, and these
come out of sorting the names from any order. -/
theorem describe_canonical :
    (∀ (session : Session) (steps : List Step), (∀ step ∈ steps, step.Binds) →
        Rebinds session (session.run steps)
          fun name => steps.foldl (Step.rebound name) (session.bindings.get? name)) ∧
      (∀ (first second : Session) (steps others : List Step),
        (∀ step ∈ steps, step.Binds) → (∀ step ∈ others, step.Binds) →
        first.text = second.text → first.result = second.result →
        (∀ name, (first.run steps).bindings.get? name = (second.run others).bindings.get? name) →
        (first.run steps).describe = (second.run others).describe) ∧
      ∀ session : Session, ∃ listing : List (String × Float),
        session.describe = "Expr \"" ++ session.text ++ "\""
            ++ String.join (listing.map fun binding =>
              ", " ++ binding.1 ++ " = " ++ Decimal.plain binding.2)
            ++ " => " ++ Decimal.plain session.result ∧
          (∀ name value, (name, value) ∈ listing ↔ session.bindings.get? name = some value) ∧
          (listing.Pairwise fun first second => Text.bytes first.1 < Text.bytes second.1) ∧
          ∀ names : List String, names.Nodup →
            (∀ name, name ∈ names ↔ (session.bindings.get? name).isSome = true) →
            (names.mergeSort fun first second => Text.bytes first ≤ Text.bytes second) =
              listing.map Prod.fst := by
  refine ⟨fun session _ => rebinds_run session, ?_, fun session => ?_⟩
  · intro first second steps others hsteps hothers htext hresult hview
    have hfirst := rebinds_run first hsteps
    have hsecond := rebinds_run second hothers
    refine describe_congr ?_ ?_ hview
    · rw [hfirst.text, hsecond.text, htext]
    · rw [hfirst.result, hsecond.result, hresult]
  · refine ⟨session.bindings.sorted, rfl, session.bindings.mem_sorted_iff, ?_, ?_⟩
    · exact session.bindings.pairwise_sorted.imp fun h => Text.bytes_strictMono h
    · exact fun names hnodup hmem => session.bindings.mergeSort_names hnodup hmem

/-- Bound at once, or after other values and with a name that is removed again. -/
theorem describe_canonical_rebound :
    (standard.run [.set "b" 2, .set "a" 1]).describe = "Expr \"\", a = 1, b = 2 => 0" ∧
      (standard.run [.set "b" 2, .set "a" 1]).describe =
        (standard.run [.setIfAbsent "a" 1, .set "c" 0, .set "b" 3, .unset "c", .set "b" 2,
          .setIfAbsent "b" 4]).describe := by
  have hlisting : (standard.run [.set "b" 2, .set "a" 1]).bindings.sorted =
      [("a", 1), ("b", 2)] := by
    change List.mergeSort [("b", (2 : Float)), ("a", 1)] _ = _
    simp [List.mergeSort, List.MergeSort.Internal.splitInTwo]
  constructor
  · rw [describe, hlisting]
    decide +kernel
  refine describe_canonical.2.1 standard standard _ _ ?_ ?_ rfl rfl fun name => ?_
  · simp [Step.Binds]
  · simp [Step.Binds]
  · simp only [run, perform, set, setIfAbsent, unset, standard, ofRegistry, List.foldl_cons,
      List.foldl_nil, Table.get?_insert, Table.get?_insertIfAbsent, Table.get?_erase,
      Table.get?_empty]
    by_cases ha : name = "a"
    · simp [ha]
    by_cases hb : name = "b"
    · simp [hb]
    · simp [ha, hb]

end Session

end Formula
