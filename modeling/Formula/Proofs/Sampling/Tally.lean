import Formula.Proofs.Sampling.Workers
import Mathlib.Data.List.Induction

/-!
# The account of failures

A tally is built one outcome after the other. What it says of the outcomes so far is a
record, `Accounts`, which every step keeps: each counter counts one class of failures, and
the failure that is kept is the first. The samples of a session account for the outcomes
at their own positions.
-/

namespace Formula

namespace FailureTally

/-! ## Outcomes that failed -/

/-- The failure of an outcome. -/
def failure? : Except Failure Float → Option Failure
  | .ok _ => none
  | .error failure => some failure

/-- Whether an outcome failed with a code among the given ones. -/
def failsWith (codes : FailureCode → Bool) (outcome : Except Failure Float) : Bool :=
  (failure? outcome).any fun failure => codes failure.code

/-- The codes that a tally counts together. -/
def isOther : FailureCode → Bool
  | .divisionByZero | .infinite | .notANumber => false
  | _ => true

/-- Whether an outcome failed. -/
def fails (outcome : Except Failure Float) : Bool :=
  (failure? outcome).isSome

theorem failsWith_eq_true_iff {codes : FailureCode → Bool} {outcome : Except Failure Float} :
    failsWith codes outcome = true ↔
      ∃ failure, outcome = .error failure ∧ codes failure.code = true := by
  cases outcome with
  | ok value => simp [failsWith, failure?]
  | error failure => simp [failsWith, failure?]

theorem failure?_eq_none_iff {outcome : Except Failure Float} :
    failure? outcome = none ↔ ∃ value, outcome = .ok value := by
  cases outcome with
  | ok value => simp [failure?]
  | error failure => simp [failure?]

theorem failure?_eq_some_iff {outcome : Except Failure Float} {failure : Failure} :
    failure? outcome = some failure ↔ outcome = .error failure := by
  cases outcome with
  | ok value => simp [failure?]
  | error other => simp [failure?]

/-! ## What a tally says -/

variable {tally : FailureTally} {outcomes : List (Except Failure Float)}

/-- What a tally says of the outcomes that it was made of. -/
structure Accounts (tally : FailureTally) (outcomes : List (Except Failure Float)) : Prop where
  divisionByZero : tally.divisionByZero = outcomes.countP (failsWith (· == .divisionByZero))
  infinite : tally.infinite = outcomes.countP (failsWith (· == .infinite))
  notANumber : tally.notANumber = outcomes.countP (failsWith (· == .notANumber))
  other : tally.other = outcomes.countP (failsWith isOther)
  first : tally.first? = outcomes.findSome? failure?

/-! ## One more outcome -/

/-- A failure raises the counter of its class, and it is kept if it is the first. -/
theorem record_eq (tally : FailureTally) (failure : Failure) :
    tally.record failure =
      { divisionByZero :=
          tally.divisionByZero + if failure.code == .divisionByZero then 1 else 0
        infinite := tally.infinite + if failure.code == .infinite then 1 else 0
        notANumber := tally.notANumber + if failure.code == .notANumber then 1 else 0
        other := tally.other + if isOther failure.code then 1 else 0
        first? := tally.first?.or (some failure) } := by
  unfold record
  cases failure.code <;> rfl

theorem countP_failsWith_append_ok (codes : FailureCode → Bool)
    (outcomes : List (Except Failure Float)) (value : Float) :
    (outcomes ++ [Except.ok value]).countP (failsWith codes) =
      outcomes.countP (failsWith codes) := by
  rw [List.countP_append]
  rfl

theorem countP_failsWith_append_error (codes : FailureCode → Bool)
    (outcomes : List (Except Failure Float)) (failure : Failure) :
    (outcomes ++ [Except.error failure]).countP (failsWith codes) =
      outcomes.countP (failsWith codes) + if codes failure.code then 1 else 0 := by
  rw [List.countP_append, List.countP_singleton]
  rfl

/-- An outcome that did not fail leaves the account as it is. -/
theorem Accounts.append_ok (h : Accounts tally outcomes) (value : Float) :
    Accounts tally (outcomes ++ [.ok value]) where
  divisionByZero := by rw [countP_failsWith_append_ok, h.divisionByZero]
  infinite := by rw [countP_failsWith_append_ok, h.infinite]
  notANumber := by rw [countP_failsWith_append_ok, h.notANumber]
  other := by rw [countP_failsWith_append_ok, h.other]
  first := by
    rw [List.findSome?_append, h.first]
    exact Option.or_none.symm

theorem Accounts.append_error (h : Accounts tally outcomes) (failure : Failure) :
    Accounts (tally.record failure) (outcomes ++ [.error failure]) where
  divisionByZero := by rw [record_eq, countP_failsWith_append_error, h.divisionByZero]
  infinite := by rw [record_eq, countP_failsWith_append_error, h.infinite]
  notANumber := by rw [record_eq, countP_failsWith_append_error, h.notANumber]
  other := by rw [record_eq, countP_failsWith_append_error, h.other]
  first := by
    rw [record_eq, List.findSome?_append, h.first]
    rfl

/-- The tally of any outcomes accounts for them. -/
theorem accounts_ofOutcomes (outcomes : List (Except Failure Float)) :
    Accounts (ofOutcomes outcomes) outcomes := by
  induction outcomes using List.reverseRecOn with
  | nil => exact ⟨rfl, rfl, rfl, rfl, rfl⟩
  | append_singleton outcomes outcome ih =>
      rw [ofOutcomes, List.foldl_append]
      cases outcome with
      | ok value => exact ih.append_ok value
      | error failure => exact ih.append_error failure

/-! ## Totals -/

/-- Every code is in exactly one of the four classes. -/
theorem one_class (code : FailureCode) :
    1 = (if code == .divisionByZero then 1 else 0) + (if code == .infinite then 1 else 0) +
      (if code == .notANumber then 1 else 0) + if isOther code then 1 else 0 := by
  cases code <;> rfl

theorem countP_fails (outcomes : List (Except Failure Float)) :
    outcomes.countP fails =
      outcomes.countP (failsWith (· == .divisionByZero)) +
        outcomes.countP (failsWith (· == .infinite)) +
        outcomes.countP (failsWith (· == .notANumber)) + outcomes.countP (failsWith isOther) := by
  induction outcomes with
  | nil => rfl
  | cons outcome outcomes ih =>
      have hclass : (if fails outcome then 1 else 0) =
          (if failsWith (· == .divisionByZero) outcome then 1 else 0) +
            (if failsWith (· == .infinite) outcome then 1 else 0) +
            (if failsWith (· == .notANumber) outcome then 1 else 0) +
            if failsWith isOther outcome then 1 else 0 := by
        cases outcome with
        | ok value => rfl
        | error failure => exact one_class failure.code
      simp only [List.countP_cons, ih, hclass]
      omega

theorem Accounts.total (h : Accounts tally outcomes) : tally.total = outcomes.countP fails := by
  rw [FailureTally.total, countP_fails, h.divisionByZero, h.infinite, h.notANumber, h.other]

theorem Accounts.isEmpty_iff (h : Accounts tally outcomes) :
    tally.isEmpty = true ↔ ∀ outcome ∈ outcomes, ∃ value, outcome = .ok value := by
  rw [isEmpty, beq_iff_eq, h.total, List.countP_eq_zero]
  simp only [fails, Option.not_isSome_iff_eq_none, failure?_eq_none_iff]

theorem Accounts.first?_eq_none_iff (h : Accounts tally outcomes) :
    tally.first? = none ↔ ∀ outcome ∈ outcomes, ∃ value, outcome = .ok value := by
  rw [h.first, List.findSome?_eq_none_iff]
  simp only [failure?_eq_none_iff]

theorem summary?_eq_none_iff (tally : FailureTally) :
    tally.summary? = none ↔
      tally.divisionByZero = 0 ∧ tally.infinite = 0 ∧ tally.notANumber = 0 := by
  unfold summary?
  split
  · simp only [reduceCtorEq, false_iff]
    omega
  · split
    · simp only [reduceCtorEq, false_iff]
      omega
    · split
      · simp only [reduceCtorEq, false_iff]
        omega
      · simp only [true_iff]
        omega

/-- There is a line to show as soon as one failure has a class of its own. -/
theorem Accounts.summary?_eq_none_iff (h : Accounts tally outcomes) :
    tally.summary? = none ↔
      ∀ outcome ∈ outcomes, ∀ failure, outcome = .error failure → isOther failure.code = true := by
  rw [FailureTally.summary?_eq_none_iff, h.divisionByZero, h.infinite, h.notANumber,
    List.countP_eq_zero, List.countP_eq_zero, List.countP_eq_zero]
  simp only [failsWith_eq_true_iff]
  constructor
  · rintro ⟨hdivision, hinfinite, hnan⟩ outcome hmem failure rfl
    cases hcode : failure.code with
    | divisionByZero => exact absurd ⟨failure, rfl, by rw [hcode]; rfl⟩ (hdivision _ hmem)
    | infinite => exact absurd ⟨failure, rfl, by rw [hcode]; rfl⟩ (hinfinite _ hmem)
    | notANumber => exact absurd ⟨failure, rfl, by rw [hcode]; rfl⟩ (hnan _ hmem)
    | _ => rfl
  · intro hother
    have hnone : ∀ code : FailureCode, isOther code = false → ∀ outcome ∈ outcomes,
        ¬ ∃ failure, outcome = .error failure ∧ (failure.code == code) = true := by
      rintro code hcode outcome hmem ⟨failure, heq, hfailure⟩
      have := hother outcome hmem failure heq
      rw [beq_iff_eq.1 hfailure, hcode] at this
      cases this
    exact ⟨hnone _ rfl, hnone _ rfl, hnone _ rfl⟩

/-- The first failure of a list of outcomes is that of the least index that failed. -/
theorem findSome?_map_range {outcome : Nat → Except Failure Float} {count : Nat}
    {failure : Failure} :
    ((List.range count).map outcome).findSome? failure? = some failure ↔
      ∃ index < count, outcome index = .error failure ∧
        ∀ earlier < index, ∃ value, outcome earlier = .ok value := by
  rw [List.findSome?_map, List.range_eq_range', List.findSome?_eq_some_iff]
  constructor
  · rintro ⟨before, index, after, hrange, hindex, hbefore⟩
    rcases List.range'_eq_append_iff.1 hrange with ⟨length, hle, rfl, hafter⟩
    rcases List.range'_eq_cons_iff.1 hafter.symm with ⟨rfl, hlt, -⟩
    refine ⟨_, by omega, failure?_eq_some_iff.1 hindex, fun earlier hearlier => ?_⟩
    exact failure?_eq_none_iff.1 (hbefore earlier (by simpa using hearlier))
  · rintro ⟨index, hlt, hindex, hearlier⟩
    refine ⟨List.range' 0 index, index, List.range' (index + 1) (count - index - 1), ?_,
      failure?_eq_some_iff.2 hindex, fun earlier hmem => ?_⟩
    · refine List.range'_eq_append_iff.2 ⟨index, by omega, rfl, ?_⟩
      exact (List.range'_eq_cons_iff.2 ⟨by omega, by omega, rfl⟩).symm
    · exact failure?_eq_none_iff.2 (hearlier earlier (by simpa using hmem))

end FailureTally

open FailureTally

/-! ## The samples of a session -/

/-- What samples say of the outcomes at their indices. -/
structure Samples.AccountFor (samples : Samples) (count : Nat)
    (outcome : Nat → Except Failure Float) : Prop where
  length_positions : samples.positions.length = count
  length_values : samples.values.length = count
  divisionByZero : samples.failures.divisionByZero =
    (List.range count).countP fun index => failsWith (· == .divisionByZero) (outcome index)
  infinite : samples.failures.infinite =
    (List.range count).countP fun index => failsWith (· == .infinite) (outcome index)
  notANumber : samples.failures.notANumber =
    (List.range count).countP fun index => failsWith (· == .notANumber) (outcome index)
  other : samples.failures.other =
    (List.range count).countP fun index => failsWith isOther (outcome index)
  total : samples.failures.total =
    (List.range count).countP fun index => fails (outcome index)
  total_le : samples.failures.total ≤ count
  first : ∀ failure, samples.failures.first? = some failure ↔
    ∃ index < count, outcome index = .error failure ∧
      ∀ earlier < index, ∃ value, outcome earlier = .ok value
  first_none : samples.failures.first? = none ↔
    ∀ index < count, ∃ value, outcome index = .ok value
  isEmpty : samples.failures.isEmpty = true ↔
    ∀ index < count, ∃ value, outcome index = .ok value
  summary_none : samples.failures.summary? = none ↔
    ∀ index < count, ∀ failure, outcome index = .error failure → isOther failure.code = true

namespace Sampling

variable {config : Sampling} {session : Session} {tree : Expression}

/-- Samples taken point by point account for the outcomes at their points. -/
theorem accountFor_pointwise (config : Sampling) (session : Session) (tree : Expression) :
    (config.pointwise session tree).AccountFor config.count
      fun index => config.outcomeAt session tree (config.position index) := by
  have houtcomes : config.positions.map (config.outcomeAt session tree) =
      (List.range config.count).map
        fun index => config.outcomeAt session tree (config.position index) := by
    rw [positions, List.map_map]
    rfl
  have h := accounts_ofOutcomes ((List.range config.count).map
    fun index => config.outcomeAt session tree (config.position index))
  have hlength : config.positions.length = config.count := by
    rw [positions, List.length_map, List.length_range]
  have hvalues : (config.pointwise session tree).values.length = config.count := by
    rw [pointwise, List.length_map, List.length_map, hlength]
  have hfailures : (config.pointwise session tree).failures =
      .ofOutcomes ((List.range config.count).map
        fun index => config.outcomeAt session tree (config.position index)) := by
    rw [pointwise, houtcomes]
  have htotal := h.total
  rw [List.countP_map] at htotal
  constructor
  case length_positions => exact hlength
  case length_values => exact hvalues
  case total_le =>
    rw [hfailures, htotal]
    exact List.countP_le_length.trans_eq (List.length_range)
  all_goals rw [hfailures]
  case divisionByZero => rw [h.divisionByZero, List.countP_map]; rfl
  case infinite => rw [h.infinite, List.countP_map]; rfl
  case notANumber => rw [h.notANumber, List.countP_map]; rfl
  case other => rw [h.other, List.countP_map]; rfl
  case total => exact htotal
  case first => exact fun failure => h.first ▸ findSome?_map_range
  case first_none => rw [h.first?_eq_none_iff]; simp
  case isEmpty => rw [h.isEmpty_iff]; simp
  case summary_none => rw [h.summary?_eq_none_iff]; simp

/-- Sampling fails, with the code of malformed formulas, exactly when the session holds no
tree. With a tree it gives as many positions and values as asked for, and however the indices
are shared out, the samples account for the outcomes at the positions. -/
theorem sampleShared_accounts (config : Sampling) (session : Session)
    (shares : List (List Nat)) (hshares : shares.flatten.Perm (List.range config.count)) :
    ((∃ failure, config.sampleShared session shares = .error failure ∧
        failure.code = .malformed) ↔ session.root? = none) ∧
      ∀ tree, session.root? = some tree →
        ∃ samples, config.sampleShared session shares = .ok samples ∧
          (∀ index < config.count, samples.positions[index]? = some (config.position index)) ∧
          samples.AccountFor config.count
            fun index => config.outcomeAt session tree (config.position index) := by
  constructor
  · cases hroot : session.root? with
    | none =>
        refine iff_of_true ⟨.nothingParsed, ?_, rfl⟩ rfl
        simp only [sampleShared, hroot]
    | some tree =>
        rw [sampleShared_of_perm hroot hshares]
        simp only [reduceCtorEq, false_and, exists_false]
  · intro tree hroot
    refine ⟨config.pointwise session tree, sampleShared_of_perm hroot hshares, ?_,
      accountFor_pointwise config session tree⟩
    intro index hindex
    rw [pointwise, positions, List.getElem?_map, List.getElem?_range hindex, Option.map_some]

/-- Of the positions `-1`, `0` and `1` of `x / x` the second fails, whoever visits it. -/
theorem sampleShared_accounts_selfQuotient :
    [[1, 2], [0]].flatten.Perm (List.range 3) ∧
      ∃ samples, sampleShared ⟨"x", -1, 2, 3, 9⟩ selfQuotient [[1, 2], [0]] = .ok samples ∧
        samples.AccountFor 3 fun index =>
          outcomeAt ⟨"x", -1, 2, 3, 9⟩ selfQuotient
            (.binary .divide (.var "x") (.var "x")) (position ⟨"x", -1, 2, 3, 9⟩ index) := by
  have hshares : [[1, 2], [0]].flatten.Perm (List.range 3) := by decide
  obtain ⟨samples, hsamples, -, haccount⟩ :=
    (sampleShared_accounts ⟨"x", -1, 2, 3, 9⟩ selfQuotient _ hshares).2 _ rfl
  exact ⟨hshares, samples, hsamples, haccount⟩

end Sampling

end Formula
