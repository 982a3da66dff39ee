import Formula.Proofs.Reading.Cursor
import Formula.Proofs.Reading.Suffix

/-!
# Progress

The procedures with a cursor read what the reader of token lists reads, within bounds:
no more levels below a procedure than tokens are left where it starts, and no more
rounds of a loop. A procedure is right as soon as those it starts are, and it starts them
on shorter tails, so the levels are counted down by the tokens left.
-/

namespace Formula

namespace Cursor

/-- The cursor at which a tail of the tokens starts. -/
def position (tokens rest : List Token) : Nat :=
  tokens.length - rest.length

/-- A reading that leaves a tail of the tokens, as the passage up to that tail. -/
def passage {α : Type} {bound : Nat} (tokens : List Token) (reading : Reading α bound) :
    Passage α :=
  ⟨reading.value, reading.names, position tokens reading.rest⟩

/-- The result of a run that reads as a reader of lists does. -/
def outcome {α : Type} {bound : Nat} (tokens : List Token) :
    Except Failure (Reading α bound) → Except Halt (Passage α)
  | .ok reading => .ok (passage tokens reading)
  | .error failure => .error (.failed failure)

/-! ## Tails of the tokens -/

section

variable {tokens rest : List Token}

theorem isSome_afterKind?_iff {kind : TokenKind} :
    (Token.afterKind? kind rest).isSome = true ↔ rest.head?.map Token.kind = some kind := by
  cases rest with
  | nil => simp [Token.afterKind?, Token.after?]
  | cons token rest =>
      by_cases hkind : token.kind = kind <;> simp [Token.afterKind?, Token.after?, hkind]

theorem getElem?_position (h : rest <:+ tokens) : tokens[position tokens rest]? = rest.head? := by
  obtain ⟨front, rfl⟩ := h
  simp [position, List.getElem?_append_right, List.head?_eq_getElem?]

theorem kindAt_position (h : rest <:+ tokens) :
    kindAt tokens (position tokens rest) = rest.head?.map Token.kind := by
  rw [kindAt, getElem?_position h]

theorem position_cons {token : Token} (h : token :: rest <:+ tokens) :
    position tokens (token :: rest) + 1 = position tokens rest := by
  have hlength := h.length_le
  simp only [position, List.length_cons] at hlength ⊢
  omega

theorem position_lt {list : List Token} (h : list <:+ tokens)
    (hshorter : rest.length < list.length) : position tokens list < position tokens rest := by
  have hlength := h.length_le
  simp only [position]
  omega

theorem position_lt_cons {token : Token} (h : token :: rest <:+ tokens) :
    position tokens (token :: rest) < position tokens rest :=
  position_lt h (Nat.lt_succ_self _)

theorem position_mono {list : List Token} (h : rest <:+ list) :
    position tokens list ≤ position tokens rest := by
  have hlength := h.length_le
  simp only [position]
  omega

theorem position_drop {cursor : Nat} (h : cursor ≤ tokens.length) :
    position tokens (tokens.drop cursor) = cursor := by
  rw [position, List.length_drop]
  omega

end

section

variable {registry : Registry} {tokens : List Token} {α : Type} {bound : Nat}

theorem outcome_ok_bind {β : Type} (reading : Reading α bound)
    (next : Passage α → Except Halt β) :
    (outcome tokens (.ok reading) >>= next) = next (passage tokens reading) := rfl

theorem withFactorial_passage (reading : Reading Expression bound)
    (h : reading.rest <:+ tokens) :
    withFactorial tokens (passage tokens reading) = passage tokens reading.withFactorial := by
  rcases reading with ⟨value, names, rest, hshorter⟩
  simp only [withFactorial, passage, getElem?_position h]
  cases rest with
  | nil => rfl
  | cons token rest =>
      by_cases hmark : token.isOperator Token.factorialMark = true
      · simp [Reading.withFactorial, Token.after?, hmark, position_cons h]
      · simp [Reading.withFactorial, Token.after?, hmark]

theorem result_closed (reading : Reading α bound) (h : reading.rest <:+ tokens) :
    (closed tokens (passage tokens reading)).result = outcome tokens reading.closed := by
  rcases reading with ⟨value, names, rest, hshorter⟩
  simp only [closed, passage, kindAt_position h]
  cases rest with
  | nil => rfl
  | cons token rest =>
      by_cases hkind : token.kind = .closing
      · simp [Reading.closed, Token.afterKind?, Token.after?, hkind, outcome, passage,
          position_cons h]
      · simp [Reading.closed, Token.afterKind?, Token.after?, hkind, outcome, refuse]

end

end Cursor

/-! ## The reading of a call -/

namespace Reading

/-- Read a call of a name whose arguments start the token list. -/
def call (registry : Registry) (name : String) (inner : List Token) :
    Except Failure (Reading Expression inner.length) :=
  if !registry.containsFunction name then .error (.unknownFunction name)
  else if (Token.afterKind? .closing inner).isSome then .error (.noArguments name)
  else
    match arguments registry inner with
    | .error failure => .error failure
    | .ok args =>
        match args.closed with
        | .error failure => .error failure
        | .ok args =>
            match countFailure? registry name args.value.length with
            | some failure => .error failure
            | none => .ok ⟨.call name args.value, args.names, args.rest, args.shorter⟩

theorem closed_widen {α : Type} {bound limit : Nat} (reading : Reading α bound)
    (h : bound ≤ limit) :
    (reading.widen h).closed = reading.closed.map fun closed => closed.widen h := by
  simp only [closed, widen]
  cases Token.afterKind? .closing reading.rest <;> rfl

theorem operand_call_eq {registry : Registry} {name opening : String} {inner : List Token} :
    operand registry (⟨.name, name⟩ :: ⟨.opening, opening⟩ :: inner) =
      (call registry name inner).map fun reading =>
        withFactorial (reading.widen (by simp only [List.length_cons]; omega)) := by
  rw [operand]
  simp only [Token.afterKind?_cons_self, call]
  split
  · rfl
  split
  · rfl
  cases arguments registry inner with
  | error failure => rfl
  | ok args =>
      simp only [called, closed_widen]
      cases args.closed with
      | error failure => rfl
      | ok args =>
          simp only [Except.map, widen]
          cases countFailure? registry name args.value.length <;> rfl

theorem call_suffix {registry : Registry} {name : String} {inner : List Token}
    {reading : Reading Expression inner.length} (h : call registry name inner = .ok reading) :
    reading.rest <:+ inner := by
  unfold call at h
  split at h
  · cases h
  split at h
  · cases h
  split at h
  · cases h
  rename_i args hargs
  split at h
  · cases h
  rename_i closed hclosed
  obtain ⟨-, -, text, hrest⟩ := closed_eq_ok hclosed
  have hsuffix := arguments_suffix hargs
  rw [hrest] at hsuffix
  split at h
  · cases h
  · cases h
    exact (List.suffix_cons _ _).trans hsuffix

end Reading

namespace Cursor

variable {registry : Registry} {tokens : List Token} {below : Runner} {bound : Nat}

/-! ## Procedures over right ones -/

/-- A runner that reads as the reader of lists does, further on than `origin`. -/
structure Faithful (registry : Registry) (tokens : List Token) (below : Runner)
    (origin : Nat) : Prop where
  operation : ∀ floor rest, rest <:+ tokens → origin < position tokens rest →
    (below ⟨.operation floor, position tokens rest⟩).result =
      outcome tokens (Reading.operation registry floor rest)
  operand : ∀ rest, rest <:+ tokens → origin < position tokens rest →
    (below ⟨.operand, position tokens rest⟩).result =
      outcome tokens (Reading.operand registry rest)
  call : ∀ name token inner, token :: inner <:+ tokens →
    origin < position tokens (token :: inner) →
    (below ⟨.call name, position tokens (token :: inner)⟩).result =
      outcome tokens (Reading.call registry name inner)

theorem result_start {caller callee : Activation} :
    (start below caller callee).result = (below callee).result := rfl

section

variable {text : String} {rest : List Token}

theorem result_operand_number (hlist : ⟨.number, text⟩ :: rest <:+ tokens) :
    (operand registry tokens below (position tokens (⟨.number, text⟩ :: rest))).result =
      outcome tokens (Reading.operand registry (⟨.number, text⟩ :: rest)) := by
  have hrest : rest <:+ tokens := (List.suffix_cons _ _).trans hlist
  rw [operand, getElem?_position hlist, Reading.operand]
  simp only [List.head?_cons, position_cons hlist]
  cases Decimal.read? text.toList with
  | none => rfl
  | some value =>
      exact congrArg Except.ok
        (withFactorial_passage ⟨.number value, [], rest, Nat.lt_succ_self _⟩ hrest)

theorem result_operand_leaf (hlist : ⟨.name, text⟩ :: rest <:+ tokens)
    (huncalled : ∀ token ∈ rest.head?, token.kind ≠ .opening) :
    (operand registry tokens below (position tokens (⟨.name, text⟩ :: rest))).result =
      outcome tokens (Reading.operand registry (⟨.name, text⟩ :: rest)) := by
  have hrest : rest <:+ tokens := (List.suffix_cons _ _).trans hlist
  have hkind : rest.head?.map Token.kind ≠ some .opening := by
    intro h
    obtain ⟨token, htoken, hopening⟩ := Option.map_eq_some_iff.1 h
    exact huncalled token htoken hopening
  have hnone := Token.afterKind?_eq_none_iff.2 huncalled
  rw [operand, getElem?_position hlist, Reading.operand]
  simp only [List.head?_cons, position_cons hlist, kindAt_position hrest, hkind, if_false, hnone]
  exact congrArg Except.ok (withFactorial_passage ⟨_, _, rest, Nat.lt_succ_self _⟩ hrest)

theorem result_operand_call {opening : String} {inner : List Token}
    (hlist : ⟨.name, text⟩ :: ⟨.opening, opening⟩ :: inner <:+ tokens)
    (h : Faithful registry tokens below
      (position tokens (⟨.name, text⟩ :: ⟨.opening, opening⟩ :: inner))) :
    (operand registry tokens below
        (position tokens (⟨.name, text⟩ :: ⟨.opening, opening⟩ :: inner))).result =
      outcome tokens
        (Reading.operand registry (⟨.name, text⟩ :: ⟨.opening, opening⟩ :: inner)) := by
  have hrest : ⟨.opening, opening⟩ :: inner <:+ tokens := (List.suffix_cons _ _).trans hlist
  have hfurther := position_lt_cons hlist
  rw [operand, getElem?_position hlist, Reading.operand_call_eq]
  simp only [List.head?_cons, position_cons hlist, kindAt_position hrest, Option.map_some,
    if_true, Traced.result_bind, result_start, h.call text _ inner hrest hfurther]
  cases hcall : Reading.call registry text inner with
  | error failure => rfl
  | ok reading =>
      have hinner := (Reading.call_suffix hcall).trans ((List.suffix_cons _ _).trans hrest)
      have hwider : inner.length ≤ inner.length + 2 := Nat.le_add_right _ 2
      exact congrArg Except.ok (withFactorial_passage (reading.widen hwider) hinner)

theorem result_operand_opening (hlist : ⟨.opening, text⟩ :: rest <:+ tokens)
    (h : Faithful registry tokens below (position tokens (⟨.opening, text⟩ :: rest))) :
    (operand registry tokens below (position tokens (⟨.opening, text⟩ :: rest))).result =
      outcome tokens (Reading.operand registry (⟨.opening, text⟩ :: rest)) := by
  have hrest : rest <:+ tokens := (List.suffix_cons _ _).trans hlist
  have hfurther := position_lt_cons hlist
  rw [operand, getElem?_position hlist, Reading.operand]
  simp only [List.head?_cons, position_cons hlist, kindAt_position hrest, isSome_afterKind?_iff]
  split
  · rfl
  · simp only [Traced.result_bind, result_start, h.operation 0 rest hrest hfurther]
    cases hinner : Reading.operation registry 0 rest with
    | error failure => rfl
    | ok inner =>
        have hsuffix := (Reading.operation_suffix hinner).trans hrest
        exact result_closed (inner.widen (Nat.le_succ _)) hsuffix

theorem result_operand_operator (hlist : ⟨.operator, text⟩ :: rest <:+ tokens)
    (h : Faithful registry tokens below (position tokens (⟨.operator, text⟩ :: rest))) :
    (operand registry tokens below (position tokens (⟨.operator, text⟩ :: rest))).result =
      outcome tokens (Reading.operand registry (⟨.operator, text⟩ :: rest)) := by
  have hrest : rest <:+ tokens := (List.suffix_cons _ _).trans hlist
  have hfurther := position_lt_cons hlist
  rw [operand, getElem?_position hlist, Reading.operand]
  simp only [List.head?_cons, position_cons hlist]
  split
  · cases Reading.countFailure? registry Token.minusMark 1 with
    | some failure => rfl
    | none =>
        simp only [Traced.result_bind, result_start, h.operand rest hrest hfurther]
        cases Reading.operand registry rest <;> rfl
  · split <;> rfl

end

theorem result_operand {list : List Token} (hlist : list <:+ tokens)
    (h : Faithful registry tokens below (position tokens list)) :
    (operand registry tokens below (position tokens list)).result =
      outcome tokens (Reading.operand registry list) := by
  match list with
  | [] =>
      rw [operand, getElem?_position hlist, Reading.operand]
      rfl
  | ⟨.number, text⟩ :: rest => exact result_operand_number hlist
  | [⟨.name, text⟩] => exact result_operand_leaf hlist (by simp)
  | ⟨.name, text⟩ :: ⟨kind, opening⟩ :: inner =>
      by_cases hkind : kind = .opening
      · subst hkind
        exact result_operand_call hlist h
      · exact result_operand_leaf hlist (by simpa using hkind)
  | ⟨.opening, text⟩ :: rest => exact result_operand_opening hlist h
  | ⟨.operator, text⟩ :: rest => exact result_operand_operator hlist h
  | ⟨.closing, text⟩ :: rest | ⟨.separator, text⟩ :: rest | ⟨.function, text⟩ :: rest =>
      rw [operand, getElem?_position hlist, Reading.operand]
      rfl

theorem result_operators_nil {caller : Activation} {floor rounds : Nat} {value : Expression}
    {names : List String} {shorter : ([] : List Token).length < bound} :
    (operators tokens below caller floor rounds
        (passage tokens ⟨value, names, [], shorter⟩)).result =
      outcome tokens (Reading.operators registry floor ⟨value, names, [], shorter⟩) := by
  have hend : continuation tokens floor (position tokens []) = .ok none := by
    rw [continuation, getElem?_position (List.nil_suffix)]
    rfl
  rw [operators.eq_def, Reading.operators]
  simp only [passage, hend]
  rfl

theorem result_operators_cons {caller : Activation} {floor rounds : Nat} {value : Expression}
    {names : List String} {token : Token} {rest : List Token}
    {shorter : (token :: rest).length < bound} (hlist : token :: rest <:+ tokens)
    (hstart : caller.start < position tokens (token :: rest))
    (h : Faithful registry tokens below caller.start)
    (hnext : ∀ next : Reading Expression bound, next.rest <:+ rest →
      (operators tokens below caller floor rounds (passage tokens next)).result =
        outcome tokens (Reading.operators registry floor next)) :
    (operators tokens below caller floor (rounds + 1)
        (passage tokens ⟨value, names, token :: rest, shorter⟩)).result =
      outcome tokens (Reading.operators registry floor
        ⟨value, names, token :: rest, shorter⟩) := by
  have hrest : rest <:+ tokens := (List.suffix_cons _ _).trans hlist
  have hfurther := Nat.lt_trans hstart (position_lt_cons hlist)
  rw [operators.eq_def, Reading.operators]
  simp only [passage, continuation, getElem?_position hlist, List.head?_cons,
    position_cons hlist, getElem?_position hrest]
  by_cases hkind : token.kind = .operator
  · by_cases hmark : token.text = Token.factorialMark
    · by_cases hfloor : Reading.factorialPrecedence ≤ floor
      · simp [hkind, hmark, hfloor, outcome, passage]
      · simp [hkind, hmark, hfloor, outcome, refuse]
    · cases hsymbol : Operator.ofSymbol? token.text with
      | none => simp [hkind, hmark, outcome, refuse]
      | some operator =>
          by_cases hfloor : operator.precedence ≤ floor
          · simp [hkind, hmark, hfloor, outcome, passage]
          · cases rest with
            | nil => simp [hkind, hmark, hfloor, outcome, refuse]
            | cons other rest =>
                simp only [hkind, hmark, hfloor, ne_eq, not_true_eq_false, if_false,
                  List.head?_cons, Option.isNone_some, List.isEmpty_cons, Bool.false_eq_true,
                  Traced.result_bind, result_start,
                  h.operation operator.precedence (other :: rest) hrest hfurther]
                cases hright : Reading.operation registry operator.precedence (other :: rest) with
                | error failure => rfl
                | ok right =>
                    exact hnext ⟨.binary operator value right.value, right.names ++ names,
                      right.rest, Nat.lt_trans right.shorter (Nat.lt_of_succ_lt shorter)⟩
                      (Reading.operation_suffix hright)
  · simp [hkind, outcome, passage]

theorem result_operators {caller : Activation} {floor rounds : Nat}
    {left : Reading Expression bound} (hlist : left.rest <:+ tokens)
    (hstart : caller.start < position tokens left.rest) (hrounds : left.rest.length ≤ rounds)
    (h : Faithful registry tokens below caller.start) :
    (operators tokens below caller floor rounds (passage tokens left)).result =
      outcome tokens (Reading.operators registry floor left) := by
  induction rounds generalizing left with
  | zero =>
      obtain ⟨value, names, rest, shorter⟩ := left
      obtain rfl : rest = [] := List.length_eq_zero_iff.1 (Nat.le_zero.1 hrounds)
      exact result_operators_nil
  | succ rounds ih =>
      obtain ⟨value, names, rest, shorter⟩ := left
      cases rest with
      | nil => exact result_operators_nil
      | cons token rest =>
          refine result_operators_cons hlist hstart h fun next hnext => ?_
          have hsuffix := hnext.trans (List.suffix_cons token rest)
          have hlength := hnext.length_le
          simp only [List.length_cons] at hrounds
          exact ih (hsuffix.trans hlist) (Nat.lt_of_lt_of_le hstart (position_mono hsuffix))
            (by omega)

theorem result_operation {floor : Nat} {list : List Token} (hlist : list <:+ tokens)
    (h : Faithful registry tokens below (position tokens list)) :
    (operation registry tokens below floor (position tokens list)).result =
      outcome tokens (Reading.operation registry floor list) := by
  rw [operation, getElem?_position hlist, Reading.operation]
  cases list with
  | nil =>
      rw [Reading.operand]
      rfl
  | cons token rest =>
      simp only [List.head?_cons, Option.isNone_some, Bool.false_eq_true, if_false,
        Traced.result_bind, Traced.result_noting, result_operand hlist h]
      cases hleft : Reading.operand registry (token :: rest) with
      | error failure => rfl
      | ok left =>
          have hsuffix := (Reading.operand_suffix hleft).trans hlist
          have hbound := hsuffix.length_le
          refine result_operators hsuffix (position_lt hlist left.shorter) ?_ h
          simp only [passage, position]
          omega

theorem result_arguments {caller : Activation} {rounds : Nat} {list : List Token}
    (hlist : list <:+ tokens) (hstart : caller.start < position tokens list)
    (hrounds : list.length ≤ rounds) (h : Faithful registry tokens below caller.start) :
    (arguments tokens below caller rounds (position tokens list)).result =
      outcome tokens (Reading.arguments registry list) := by
  induction rounds generalizing list with
  | zero =>
      obtain rfl : list = [] := List.length_eq_zero_iff.1 (Nat.le_zero.1 hrounds)
      rw [arguments, Reading.arguments, Reading.operation, Reading.operand]
      simp only [Traced.result_bind, result_start, h.operation 0 [] hlist hstart]
      rw [Reading.operation, Reading.operand]
      rfl
  | succ rounds ih =>
      rw [arguments, Reading.arguments]
      simp only [Traced.result_bind, result_start, h.operation 0 list hlist hstart]
      cases hfirst : Reading.operation registry 0 list with
      | error failure => rfl
      | ok first =>
          have hsuffix := (Reading.operation_suffix hfirst).trans hlist
          obtain ⟨value, names, rest, shorter⟩ := first
          simp only [outcome_ok_bind, passage, kindAt_position hsuffix]
          cases rest with
          | nil => rfl
          | cons token more =>
              have hmore : more <:+ tokens := (List.suffix_cons _ _).trans hsuffix
              by_cases hkind : token.kind = .separator
              · have hrest := ih hmore
                  (Nat.lt_trans (Nat.lt_trans hstart (position_lt hlist shorter))
                    (position_lt_cons hsuffix))
                  (by simp only [List.length_cons] at shorter; omega)
                simp only [List.head?_cons, Option.map_some, hkind, if_true,
                  position_cons hsuffix, Traced.result_bind, hrest, Token.afterKind?,
                  Token.after?, beq_self_eq_true]
                cases Reading.arguments registry more <;> rfl
              · simp [hkind, Token.afterKind?, Token.after?, outcome, passage]

theorem result_call {name : String} {token : Token} {inner : List Token}
    (hlist : token :: inner <:+ tokens)
    (h : Faithful registry tokens below (position tokens (token :: inner))) :
    (call registry tokens below name (position tokens (token :: inner))).result =
      outcome tokens (Reading.call registry name inner) := by
  have hinner : inner <:+ tokens := (List.suffix_cons _ _).trans hlist
  rw [call, Reading.call]
  simp only [position_cons hlist, kindAt_position hinner, isSome_afterKind?_iff]
  split
  · rfl
  split
  · rfl
  have hrounds : inner.length ≤ tokens.length - position tokens (token :: inner) := by
    have hlength := hlist.length_le
    simp only [position, List.length_cons] at hlength ⊢
    omega
  simp only [Traced.result_bind]
  rw [result_arguments hinner (position_lt_cons hlist) hrounds h]
  cases hargs : Reading.arguments registry inner with
  | error failure => rfl
  | ok args =>
      have hsuffix := (Reading.arguments_suffix hargs).trans hinner
      simp only [outcome_ok_bind, result_closed args hsuffix]
      cases args.closed with
      | error failure => rfl
      | ok args =>
          simp only [outcome_ok_bind, passage]
          cases Reading.countFailure? registry name args.value.length <;> rfl

/-! ## Levels -/

/-- A level for each token that is left, and the procedures started on them are right. -/
theorem faithful_run {levels origin : Nat} (hlevels : tokens.length - origin ≤ levels) :
    Faithful registry tokens (run registry tokens levels) origin := by
  induction levels generalizing origin with
  | zero =>
      have hend (rest : List Token) : ¬ origin < position tokens rest := by
        simp only [position]
        omega
      exact ⟨fun _ rest _ hlt => (hend rest hlt).elim, fun rest _ hlt => (hend rest hlt).elim,
        fun _ _ _ _ hlt => (hend _ hlt).elim⟩
  | succ levels ih =>
      have hinner {rest : List Token} (hlt : origin < position tokens rest) :
          Faithful registry tokens (run registry tokens levels) (position tokens rest) :=
        ih (by omega)
      exact ⟨fun floor rest hrest hlt => result_operation hrest (hinner hlt),
        fun rest hrest hlt => result_operand hrest (hinner hlt),
        fun name token inner hrest hlt => result_call hrest (hinner hlt)⟩

section

variable {cursor levels : Nat}

theorem result_run_operation (hlevels : tokens.length - cursor ≤ levels) (floor : Nat) :
    (run registry tokens (levels + 1) ⟨.operation floor, cursor⟩).result =
      outcome tokens (Reading.operation registry floor (tokens.drop cursor)) := by
  change (operation registry tokens (run registry tokens levels) floor cursor).result = _
  by_cases hcursor : cursor ≤ tokens.length
  · have hposition := position_drop hcursor
    have hbelow : Faithful registry tokens (run registry tokens levels) cursor :=
      faithful_run hlevels
    rw [← hposition] at hbelow
    rw [← result_operation (List.drop_suffix cursor tokens) hbelow, hposition]
  · rw [operation, List.getElem?_eq_none (by omega), List.drop_eq_nil_of_le (by omega),
      Reading.operation, Reading.operand]
    rfl

theorem result_run_operand (hlevels : tokens.length - cursor ≤ levels) :
    (run registry tokens (levels + 1) ⟨.operand, cursor⟩).result =
      outcome tokens (Reading.operand registry (tokens.drop cursor)) := by
  change (operand registry tokens (run registry tokens levels) cursor).result = _
  by_cases hcursor : cursor ≤ tokens.length
  · have hposition := position_drop hcursor
    have hbelow : Faithful registry tokens (run registry tokens levels) cursor :=
      faithful_run hlevels
    rw [← hposition] at hbelow
    rw [← result_operand (List.drop_suffix cursor tokens) hbelow, hposition]
  · rw [operand, List.getElem?_eq_none (by omega), List.drop_eq_nil_of_le (by omega),
      Reading.operand]
    rfl

/-- Past the end of the tokens, a call still starts an operation: that takes a level. -/
theorem result_run_call_past (hcursor : tokens.length ≤ cursor) (name : String) :
    (run registry tokens (levels + 2) ⟨.call name, cursor⟩).result =
      outcome tokens (Reading.call registry name []) := by
  have hrounds : tokens.length - cursor = 0 := by omega
  have hkind : kindAt tokens (cursor + 1) = none := by
    rw [kindAt, List.getElem?_eq_none (by omega), Option.map_none]
  have hoperation : (run registry tokens (levels + 1) ⟨.operation 0, cursor + 1⟩).result =
      .error (.failed .endOfTokens) := by
    change (operation registry tokens (run registry tokens levels) 0 (cursor + 1)).result = _
    rw [operation, List.getElem?_eq_none (by omega)]
    rfl
  change (call registry tokens (run registry tokens (levels + 1)) name cursor).result = _
  rw [call, Reading.call, hrounds, hkind, arguments, Reading.arguments, Reading.operation,
    Reading.operand]
  split
  · rfl
  · simp only [reduceCtorEq, if_false, Traced.result_bind, result_start, hoperation]
    rfl

theorem result_run_call (hlevels : tokens.length - (cursor + 1) < levels) (name : String) :
    (run registry tokens (levels + 1) ⟨.call name, cursor⟩).result =
      outcome tokens (Reading.call registry name (tokens.drop (cursor + 1))) := by
  by_cases hcursor : cursor < tokens.length
  · have hsuffix := List.drop_suffix cursor tokens
    have hposition := position_drop (Nat.le_of_lt hcursor)
    rw [List.drop_eq_getElem_cons hcursor] at hsuffix hposition
    have hbelow : Faithful registry tokens (run registry tokens levels) cursor :=
      faithful_run (by omega)
    rw [← hposition] at hbelow
    change (call registry tokens (run registry tokens levels) name cursor).result = _
    rw [← result_call hsuffix hbelow, hposition]
  · obtain ⟨fewer, rfl⟩ := Nat.exists_eq_add_one_of_ne_zero (Nat.ne_zero_of_lt hlevels)
    rw [List.drop_eq_nil_of_le (by omega)]
    exact result_run_call_past (by omega) name

end

/-- Whatever the tokens and the registry, a procedure that succeeds leaves its cursor further
on and within the list, and starts others further on than itself, but for the first operand of
an operation. With as many levels below it as tokens are left from its cursor on, for a call
one at least, and as many rounds in each loop, it reads what the reader of lists reads there:
neither levels nor rounds run out. -/
theorem procedures_progress (registry : Registry) (tokens : List Token) :
    (∀ levels activation,
      (∀ passage, (run registry tokens levels activation).result = .ok passage →
        activation.start < passage.cursor ∧ passage.cursor ≤ tokens.length) ∧
      ∀ nesting ∈ (run registry tokens levels activation).events, nesting.Forward) ∧
    ∀ cursor levels,
      (tokens.length - cursor ≤ levels →
        (∀ floor, (run registry tokens (levels + 1) ⟨.operation floor, cursor⟩).result =
          outcome tokens (Reading.operation registry floor (tokens.drop cursor))) ∧
        (run registry tokens (levels + 1) ⟨.operand, cursor⟩).result =
          outcome tokens (Reading.operand registry (tokens.drop cursor))) ∧
      (tokens.length - (cursor + 1) < levels →
        ∀ name, (run registry tokens (levels + 1) ⟨.call name, cursor⟩).result =
          outcome tokens (Reading.call registry name (tokens.drop (cursor + 1)))) := by
  refine ⟨fun levels activation => ?_, fun cursor levels => ⟨fun hlevels => ⟨?_, ?_⟩, ?_⟩⟩
  · have hadvances := advances_run registry tokens levels activation
    exact ⟨hadvances.result, hadvances.events⟩
  · exact result_run_operation hlevels
  · exact result_run_operand hlevels
  · exact result_run_call

/-- The negative of a group: operation, operand, operand, operation, operand. -/
theorem procedures_progress_group :
    let tokens : List Token :=
      [⟨.operator, "-"⟩, ⟨.opening, "("⟩, ⟨.name, "x"⟩, ⟨.closing, ")"⟩]
    let whole := run .empty tokens 5 ⟨.operation 0, 0⟩
    whole.events.map (fun nesting => (nesting.caller.start, nesting.callee.start)) =
        [(0, 0), (0, 1), (1, 2), (2, 2)] ∧
      (∀ nesting ∈ whole.events, nesting.Forward) ∧
      whole.result = outcome tokens (Reading.operation .empty 0 tokens) :=
  ⟨by decide +kernel, ((procedures_progress _ _).1 _ _).2,
    (((procedures_progress _ _).2 0 4).1 (by decide)).1 0⟩

end Cursor

end Formula
