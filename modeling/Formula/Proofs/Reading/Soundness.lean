import Formula.Proofs.Expression.Nodes
import Formula.Proofs.Reading.Inversion

/-!
# What is read follows the grammar

A successful reading takes a phrase of the grammar off the head of the tokens, and
the variables it met are the leaves of the phrase's tree.

The loop over operators carries the strength of the phrase read so far. It starts at
a factor and falls to the strength of each operator in turn, because the right
operand before it has taken everything stronger.
-/

namespace Formula

namespace Grammar

variable {registry : Registry}

theorem Layer.weaken {strong weak : Nat} {tokens : List Token} {tree : Expression}
    (h : Layer registry strong tokens tree) (hle : weak ≤ strong) :
    Layer registry weak tokens tree := by
  rcases Nat.exists_eq_add_of_le hle with ⟨gap, rfl⟩
  induction gap with
  | zero => exact h
  | succ gap ih => exact ih (.single h) (by omega)

theorem Layer.var {strength : Nat} {name : String} (unknown : registry.constant? name = none)
    (hle : strength ≤ 4) : Layer registry strength [⟨.name, name⟩] (.var name) :=
  Layer.weaken (.factor (.plain (.var unknown))) hle

end Grammar

namespace Reading

open Grammar

variable {registry : Registry}

/-- A primary with the factorial mark that may follow it is a factor. -/
theorem Marked.factor {tree result : Expression} {taken tokens rest : List Token}
    (h : Marked tree tokens result rest) (primary : Primary registry taken tree) :
    ∃ all, taken ++ tokens = all ++ rest ∧ Factor registry all result ∧
      result.variableNames = tree.variableNames := by
  cases h with
  | factorial hmark =>
      refine ⟨taken ++ [Token.factorial], by simp [hmark], .factorial primary, ?_⟩
      simp
  | plain => exact ⟨taken, rfl, .plain primary, rfl⟩

theorem primary_leaf (name : String) :
    Primary registry [⟨.name, name⟩] (leaf registry name) := by
  unfold leaf
  split
  · exact .constant (by assumption)
  · exact .var (by assumption)

theorem leafNames_eq (name : String) :
    leafNames registry name = (leaf registry name).variableNames.reverse := by
  unfold leafNames leaf
  split <;> simp

theorem isLexeme_suffix {tokens taken rest : List Token} (h : tokens = taken ++ rest)
    (hlex : ∀ token ∈ tokens, token.IsLexeme) : ∀ token ∈ rest, token.IsLexeme := by
  subst h
  exact fun token htoken => hlex token (List.mem_append_right taken htoken)

mutual

theorem operandForm_sound (tokens : List Token) (hlex : ∀ token ∈ tokens, token.IsLexeme)
    {tree : Expression} {names : List String} {rest : List Token}
    (form : OperandForm registry tokens tree names rest) :
    ∃ taken, tokens = taken ++ rest ∧ Factor registry taken tree ∧
      names = tree.variableNames.reverse := by
  cases form with
  | @number text _ _ value _ hvalue hmarked =>
      have hnumeral : Token.IsNumeral text.toList := hlex ⟨.number, text⟩ (by simp)
      have hpoint : text ≠ "." := by
        intro heq
        subst heq
        cases Token.read?_point.symm.trans hvalue
      rw [Token.read?_of_isNumeral hnumeral fun h => hpoint (String.toList_inj.1 h)] at hvalue
      cases hvalue
      rcases hmarked.factor (.number hnumeral hpoint) with ⟨all, hall, hfactor, hvariables⟩
      exact ⟨all, hall, hfactor, by simp [hvariables]⟩
  | leaf huncalled hmarked =>
      rcases hmarked.factor (primary_leaf _) with ⟨all, hall, hfactor, hvariables⟩
      exact ⟨all, hall, hfactor, by rw [hvariables, leafNames_eq]⟩
  | @call name openText closeText inner after _ _ args hread hclose harity hmarked =>
      obtain ⟨taken, htaken, hargs, hnames⟩ := arguments_sound inner
        (fun token htoken => hlex token (by simp [htoken])) hread
      rw [hclose] at htaken
      have heq : openText = "(" := hlex ⟨.opening, openText⟩ (by simp)
      subst heq
      have heq : closeText = ")" := hlex ⟨.closing, closeText⟩ (by simp [htaken])
      subst heq
      rcases hmarked.factor (.call harity hargs) with ⟨all, hall, hfactor, hvariables⟩
      refine ⟨all, ?_, hfactor, by rw [hvariables, hnames, Expression.variableNames_call]⟩
      rw [← hall, htaken]
      simp [Token.openingMark, Token.closingMark]
  | @group openText closeText inner _ reading hread hclose =>
      obtain ⟨taken, htaken, hlayer, hnames, -⟩ := operation_sound 0 inner (by omega)
        (fun token htoken => hlex token (by simp [htoken])) hread
      rw [hclose] at htaken
      have heq : openText = "(" := hlex ⟨.opening, openText⟩ (by simp)
      subst heq
      have heq : closeText = ")" := hlex ⟨.closing, closeText⟩ (by simp [htaken])
      subst heq
      refine ⟨_, ?_, .group hlayer, hnames⟩
      rw [htaken]
      simp [Token.openingMark, Token.closingMark]
  | @negative inner reading hnegates hread =>
      obtain ⟨taken, htaken, hfactor, hnames⟩ := operandForm_sound inner
        (fun token htoken => hlex token (by simp [htoken])) (operandForm_of_ok hread)
      refine ⟨Token.minus :: taken, congrArg _ htaken, .negative hnegates hfactor, ?_⟩
      simpa using hnames
termination_by 3 * tokens.length

theorem operation_sound (floor : Nat) (tokens : List Token) (hfloor : floor ≤ 3)
    (hlex : ∀ token ∈ tokens, token.IsLexeme) {reading : Reading Expression tokens.length}
    (h : operation registry floor tokens = .ok reading) :
    ∃ taken, tokens = taken ++ reading.rest ∧
      Layer registry (floor + 1) taken reading.value ∧
      reading.names = reading.value.variableNames.reverse ∧ Halts floor reading.rest := by
  rcases operation_eq_ok h with ⟨left, hleft, hmore⟩
  obtain ⟨taken, htaken, hfactor, hnames⟩ :=
    operandForm_sound tokens hlex (operandForm_of_ok hleft)
  obtain ⟨more, hrest, hlayer, hmoreNames, hhalts⟩ := operators_sound floor left (by omega)
    (isLexeme_suffix htaken hlex) (.factor hfactor) hnames
    (fun operator _ _ => Nat.le_succ_of_le operator.layer_le_three) hmore
  exact ⟨taken ++ more, htaken.trans (by rw [hrest, List.append_assoc]), hlayer, hmoreNames,
    hhalts⟩
termination_by 3 * tokens.length + 1
decreasing_by
  · omega
  · have := left.shorter
    omega

theorem operators_sound {bound : Nat} (floor : Nat) (left : Reading Expression bound)
    {strength : Nat} (hfloor : floor < strength)
    (hlex : ∀ token ∈ left.rest, token.IsLexeme) {taken : List Token}
    (hlayer : Layer registry strength taken left.value)
    (hnames : left.names = left.value.variableNames.reverse) (hhalts : Halts strength left.rest)
    {reading : Reading Expression bound}
    (h : operators registry floor left = .ok reading) :
    ∃ more, left.rest = more ++ reading.rest ∧
      Layer registry (floor + 1) (taken ++ more) reading.value ∧
      reading.names = reading.value.variableNames.reverse ∧ Halts floor reading.rest := by
  rcases operators_eq_ok h with
    ⟨rfl, hstop⟩ | ⟨operator, after, right, hshorter, hrest, hlt, hright, hnext⟩
  · exact ⟨[], rfl, by simpa using hlayer.weaken hfloor, hnames, hstop⟩
  · have hlexAfter : ∀ token ∈ after, token.IsLexeme := fun token htoken =>
      hlex token (by simp [hrest, htoken])
    obtain ⟨rights, hafter, hsecond, hrightNames, hrightHalts⟩ := operation_sound
      operator.layer after operator.layer_le_three hlexAfter hright
    have hjoin := Layer.join (hlayer.weaken (hhalts operator after hrest)) hsecond
    obtain ⟨more, hmore, htree, htreeNames, htreeHalts⟩ := operators_sound floor
      ⟨.binary operator left.value right.value, right.names ++ left.names, right.rest,
        hshorter⟩ hlt (isLexeme_suffix hafter hlexAfter) hjoin
      (by simp [hnames, hrightNames]) hrightHalts hnext
    refine ⟨Token.ofOperator operator :: (rights ++ more), ?_, ?_, htreeNames, htreeHalts⟩
    · rw [hrest, hafter, hmore]
      simp
    · simpa using htree
termination_by 3 * left.rest.length
decreasing_by
  · simp only [hrest, List.length_cons]
    omega
  · have := right.shorter
    simp only [hrest, List.length_cons]
    omega

theorem arguments_sound (tokens : List Token) (hlex : ∀ token ∈ tokens, token.IsLexeme)
    {args : Reading (List Expression) tokens.length}
    (h : arguments registry tokens = .ok args) :
    ∃ taken, tokens = taken ++ args.rest ∧ Arguments registry taken args.value ∧
      args.names = (Expression.argumentNames args.value).reverse := by
  rcases arguments_eq_ok h with ⟨first, hfirst, hcases⟩
  obtain ⟨taken, htaken, hlayer, hnames, -⟩ :=
    operation_sound 0 tokens (by omega) hlex hfirst
  rcases hcases with ⟨hvalue, hargNames, hrest⟩ |
    ⟨text, more, others, hrest, hothers, hvalue, hargNames, hargRest⟩
  · refine ⟨taken, by rw [hrest, ← htaken], by rw [hvalue]; exact .last hlayer, ?_⟩
    simp [hargNames, hvalue, hnames]
  · have hlexRest := isLexeme_suffix htaken hlex
    rw [hrest] at htaken hlexRest
    have heq : text = "," := hlexRest ⟨.separator, text⟩ (by simp)
    subst heq
    obtain ⟨others', hmore, hargs, hothersNames⟩ := arguments_sound more
      (fun token htoken => hlexRest token (by simp [htoken])) hothers
    refine ⟨taken ++ Token.separatorMark :: others', ?_, ?_, ?_⟩
    · exact htaken.trans (by simp [Token.separatorMark, hargRest, ← hmore])
    · rw [hvalue]
      exact .more hlayer hargs
    · simp [hargNames, hvalue, hnames, hothersNames]
termination_by 3 * tokens.length + 2
decreasing_by
  · omega
  · have hshorter := first.shorter
    rw [hrest, List.length_cons] at hshorter
    omega

end

end Reading

end Formula
