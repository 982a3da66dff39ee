/-!
# Traced computations

A computation that may fail and that notes events on its way. `Traced.Ensures` is what
holds of every event, also of those before a failure, and of the value at the end.
-/

namespace Formula

/-- The events of a computation in their order, and its result. -/
structure Traced (Event ε α : Type) where
  events : List Event
  result : Except ε α

namespace Traced

variable {Event ε α β : Type}

/-- A result without any event. -/
def ofResult (result : Except ε α) : Traced Event ε α :=
  ⟨[], result⟩

def fail (failure : ε) : Traced Event ε α :=
  ofResult (.error failure)

/-- A computation with one event ahead of its own. -/
def noting (event : Event) (run : Traced Event ε α) : Traced Event ε α :=
  ⟨event :: run.events, run.result⟩

/-- Go on with the value of a computation, after the events that led to it. -/
def andThen (run : Traced Event ε α) (next : α → Traced Event ε β) : Traced Event ε β :=
  match run.result with
  | .error failure => ⟨run.events, .error failure⟩
  | .ok value => ⟨run.events ++ (next value).events, (next value).result⟩

instance : Monad (Traced Event ε) where
  pure value := ofResult (.ok value)
  bind := andThen

/-! ## Results -/

@[simp] theorem result_ofResult (result : Except ε α) :
    (ofResult result : Traced Event ε α).result = result := rfl

@[simp] theorem result_pure (value : α) :
    (pure value : Traced Event ε α).result = .ok value := rfl

@[simp] theorem result_fail (failure : ε) :
    (fail failure : Traced Event ε α).result = .error failure := rfl

@[simp] theorem result_noting (event : Event) (run : Traced Event ε α) :
    (noting event run).result = run.result := rfl

@[simp] theorem result_bind (run : Traced Event ε α) (next : α → Traced Event ε β) :
    (run >>= next).result = run.result >>= fun value => (next value).result := by
  change (andThen run next).result = _
  unfold andThen
  cases run.result <;> rfl

theorem result_bind_of_ok {run : Traced Event ε α} {value : α} (h : run.result = .ok value)
    {next : α → Traced Event ε β} : (run >>= next).result = (next value).result := by
  rw [result_bind, h]
  rfl

/-! ## What a computation ensures -/

/-- Every event is legal, and the value, where there is one, satisfies the postcondition. -/
structure Ensures (run : Traced Event ε α) (legal : Event → Prop) (post : α → Prop) :
    Prop where
  events : ∀ event ∈ run.events, legal event
  result : ∀ value, run.result = .ok value → post value

namespace Ensures

variable {legal : Event → Prop} {post : α → Prop} {target : β → Prop}
  {run : Traced Event ε α}

theorem ofResult {result : Except ε α} (h : ∀ value, result = .ok value → post value) :
    (Traced.ofResult result : Traced Event ε α).Ensures legal post where
  events event hmem := by cases hmem
  result := h

theorem fail (failure : ε) : (Traced.fail failure : Traced Event ε α).Ensures legal post :=
  ofResult fun value h => by cases h

theorem pure {value : α} (h : post value) :
    (Pure.pure value : Traced Event ε α).Ensures legal post :=
  ofResult fun other hother => by
    cases hother
    exact h

theorem noting {event : Event} (hevent : legal event) (h : run.Ensures legal post) :
    (Traced.noting event run).Ensures legal post where
  events := List.forall_mem_cons.2 ⟨hevent, h.events⟩
  result := h.result

theorem bind {next : α → Traced Event ε β} (h : run.Ensures legal post)
    (hnext : ∀ value, post value → (next value).Ensures legal target) :
    (run >>= next).Ensures legal target := by
  change (andThen run next).Ensures legal target
  unfold andThen
  split
  · exact ⟨h.events, fun value hvalue => by cases hvalue⟩
  · rename_i value hvalue
    have hrest := hnext value (h.result value hvalue)
    exact ⟨List.forall_mem_append.2 ⟨h.events, hrest.events⟩, hrest.result⟩

end Ensures

end Traced

end Formula
