import Formula.Proofs.Expression.Substitution
import Formula.Proofs.Reading.Whole
import Formula.Proofs.Token.Joined

/-!
# A group in the place of a name

A name that is neither a constant nor a function is read as one operand, and a group is
one operand too. So a phrase stays a phrase when a group takes the place of the name,
and its tree is the old one with the tree of the group in the place of the leaf. A
factorial mark is the one token that may follow the name but not the group.
-/

namespace Formula

open Expression

namespace Token

variable {name : String} {phrase : List Token}

/-- The tokens with a phrase in the place of every occurrence of a name. -/
def plug (name : String) (phrase tokens : List Token) : List Token :=
  tokens.flatMap fun token => if token = ⟨.name, name⟩ then phrase else [token]

@[simp] theorem plug_append (first second : List Token) :
    plug name phrase (first ++ second) = plug name phrase first ++ plug name phrase second :=
  List.flatMap_append

theorem plug_cons_name (tokens : List Token) :
    plug name phrase (⟨.name, name⟩ :: tokens) = phrase ++ plug name phrase tokens := by
  rw [plug, List.flatMap_cons, if_pos rfl, plug]

theorem plug_cons_of_ne {token : Token} (h : token ≠ ⟨.name, name⟩) (tokens : List Token) :
    plug name phrase (token :: tokens) = token :: plug name phrase tokens := by
  rw [plug, List.flatMap_cons, if_neg h, List.singleton_append, plug]

theorem plug_of_not_mem {tokens : List Token} (h : ⟨.name, name⟩ ∉ tokens) :
    plug name phrase tokens = tokens := by
  induction tokens with
  | nil => rfl
  | cons token tokens ih =>
      rw [plug_cons_of_ne (List.ne_of_not_mem_cons h).symm,
        ih (List.not_mem_of_not_mem_cons h)]

theorem plug_single_of_ne {token : Token} (h : token ≠ ⟨.name, name⟩) :
    plug name phrase [token] = [token] :=
  plug_of_not_mem (by simpa using h.symm)

@[simp] theorem plug_cons_operator (text : String) (tokens : List Token) :
    plug name phrase (⟨.operator, text⟩ :: tokens) =
      ⟨.operator, text⟩ :: plug name phrase tokens :=
  plug_cons_of_ne (by simp) tokens

@[simp] theorem plug_cons_opening (tokens : List Token) :
    plug name phrase (openingMark :: tokens) = openingMark :: plug name phrase tokens :=
  plug_cons_of_ne (by simp [openingMark]) tokens

@[simp] theorem plug_cons_separator (tokens : List Token) :
    plug name phrase (separatorMark :: tokens) = separatorMark :: plug name phrase tokens :=
  plug_cons_of_ne (by simp [separatorMark]) tokens

@[simp] theorem plug_closing : plug name phrase [closingMark] = [closingMark] :=
  plug_single_of_ne (by simp [closingMark])

/-- The name stands nowhere right before a factorial mark. -/
def Unmarked (name : String) (tokens : List Token) : Prop :=
  ¬ [⟨.name, name⟩, factorial] <:+: tokens

theorem Unmarked.within {tokens inner : List Token} (h : Unmarked name tokens)
    (hinner : inner <:+: tokens) : Unmarked name inner :=
  fun hmarked => h (hmarked.trans hinner)

theorem Unmarked.left {lefts rights : List Token} (h : Unmarked name (lefts ++ rights)) :
    Unmarked name lefts :=
  h.within (List.prefix_append _ _).isInfix

theorem Unmarked.right {lefts rights : List Token} {token : Token}
    (h : Unmarked name (lefts ++ token :: rights)) : Unmarked name rights :=
  h.within ((List.suffix_cons _ _).trans (List.suffix_append _ _)).isInfix

theorem unmarked_around {before after : List Token} (hbefore : ⟨.name, name⟩ ∉ before)
    (hafter : ⟨.name, name⟩ ∉ after) (hmark : after.head? ≠ some factorial) :
    Unmarked name (before ++ ⟨.name, name⟩ :: after) := by
  induction before with
  | nil =>
      intro h
      rcases List.infix_cons_iff.1 h with hstart | hlater
      · rcases (List.cons_prefix_cons.1 hstart).2 with ⟨rest, rfl⟩
        exact hmark rfl
      · exact hafter (hlater.mem List.mem_cons_self)
  | cons token before ih =>
      intro h
      rcases List.infix_cons_iff.1 h with hstart | hlater
      · exact hbefore (List.mem_cons.2 (.inl (List.cons_prefix_cons.1 hstart).1))
      · exact ih (List.not_mem_of_not_mem_cons hbefore) hlater

end Token

namespace Grammar

open Token

/-- A name that is read as a variable wherever it is read. -/
structure Free (registry : Registry) (name : String) : Prop where
  constant : registry.constant? name = none
  arity : registry.arity? name = none

variable {registry : Registry} {name : String} {phrase : List Token} {part : Expression}

theorem Free.ne_of_constant (h : Free registry name) {other : String} {value : Float}
    (known : registry.constant? other = some value) : other ≠ name :=
  ne_of_apply_ne registry.constant? (by simp [known, h.constant])

theorem Free.ne_of_arity (h : Free registry name) {other : String} {arity : Nat}
    (known : registry.arity? other = some arity) : other ≠ name :=
  ne_of_apply_ne registry.arity? (by simp [known, h.arity])

/-! ## Phrases with the name replaced -/

-- By induction on the derivation: only the leaf of the name changes its rule, and then
-- every rule above it that asks for a factor takes the phrase as well.
mutual

theorem primary_plug {tokens : List Token} {tree : Expression}
    (hfree : Free registry name) (hphrase : Factor registry phrase part)
    (h : Primary registry tokens tree) (hmark : Unmarked name tokens) :
    tokens = [⟨.name, name⟩] ∧ tree = .var name ∨
      Primary registry (plug name phrase tokens) (substitute (replacing name part) tree) := by
  match tokens, tree, h with
  | _, _, .number numeral point =>
      rw [plug_single_of_ne (by simp), substitute_number]
      exact .inr (.number numeral point)
  | _, _, @Primary.constant _ other _ known =>
      have hne := hfree.ne_of_constant known
      rw [plug_single_of_ne (by simpa using hne), substitute_number]
      exact .inr (.constant known)
  | _, _, @Primary.var _ other unknown =>
      by_cases hname : other = name
      · exact .inl ⟨by rw [hname], by rw [hname]⟩
      · rw [plug_single_of_ne (by simpa using hname), substitute_var, replacing, if_neg hname]
        exact .inr (.var unknown)
  | _, _, @Primary.call _ other inner args arity phrases =>
      have hne := hfree.ne_of_arity arity
      have hargs := arguments_plug hfree hphrase phrases
        (hmark.within ⟨[⟨.name, other⟩, openingMark], [closingMark], by simp⟩)
      rw [plug_cons_of_ne (by simpa using hne), plug_cons_opening, plug_append, plug_closing,
        substitute_call]
      exact .inr (.call (by rw [List.length_map, arity]) hargs)

theorem factor_plug {tokens : List Token} {tree : Expression}
    (hfree : Free registry name) (hphrase : Factor registry phrase part)
    (h : Factor registry tokens tree) (hmark : Unmarked name tokens) :
    Factor registry (plug name phrase tokens) (substitute (replacing name part) tree) := by
  match tokens, tree, h with
  | _, _, .plain inner =>
      rcases primary_plug hfree hphrase inner hmark with ⟨rfl, rfl⟩ | hinner
      · rw [plug_cons_name, substitute_var, replacing, if_pos rfl]
        simpa [plug] using hphrase
      · exact .plain hinner
  | _, _, .factorial inner =>
      rcases primary_plug hfree hphrase inner hmark.left with ⟨rfl, rfl⟩ | hinner
      · exact (hmark (List.infix_refl _)).elim
      · rw [plug_append, factorial, plug_single_of_ne (by simp)]
        exact .factorial hinner
  | _, _, .group inner =>
      have hinner := layer_plug hfree hphrase inner
        (hmark.within ⟨[openingMark], [closingMark], by simp⟩)
      rw [plug_cons_opening, plug_append, plug_closing]
      exact .group hinner
  | _, _, .negative negates inner =>
      have hinner := factor_plug hfree hphrase inner (hmark.within (List.suffix_cons _ _).isInfix)
      rw [minus, plug_cons_operator]
      exact .negative negates hinner

theorem layer_plug {strength : Nat} {tokens : List Token} {tree : Expression}
    (hfree : Free registry name) (hphrase : Factor registry phrase part)
    (h : Layer registry strength tokens tree) (hmark : Unmarked name tokens) :
    Layer registry strength (plug name phrase tokens)
      (substitute (replacing name part) tree) := by
  match strength, tokens, tree, h with
  | _, _, _, .factor inner => exact .factor (factor_plug hfree hphrase inner hmark)
  | _, _, _, .single inner => exact .single (layer_plug hfree hphrase inner hmark)
  | _, _, _, .join first second =>
      have hfirst := layer_plug hfree hphrase first hmark.left
      have hsecond := layer_plug hfree hphrase second hmark.right
      rw [plug_append, ofOperator_eq, plug_cons_operator, substitute_binary, ← ofOperator_eq]
      exact .join hfirst hsecond

theorem arguments_plug {tokens : List Token} {trees : List Expression}
    (hfree : Free registry name) (hphrase : Factor registry phrase part)
    (h : Arguments registry tokens trees) (hmark : Unmarked name tokens) :
    Arguments registry (plug name phrase tokens)
      (trees.map (substitute (replacing name part))) := by
  match tokens, trees, h with
  | _, _, .last only => exact .last (layer_plug hfree hphrase only hmark)
  | _, _, .more first rest =>
      have hfirst := layer_plug hfree hphrase first hmark.left
      have hrest := arguments_plug hfree hphrase rest hmark.right
      rw [plug_append, plug_cons_separator, List.map_cons]
      exact .more hfirst hrest

end

theorem layer_group_for_name {strength : Nat} {before inner after : List Token}
    {tree : Expression} (hfree : Free registry name) (hbefore : ⟨.name, name⟩ ∉ before)
    (hafter : ⟨.name, name⟩ ∉ after) (hmark : after.head? ≠ some factorial)
    (hpart : Layer registry 1 inner part)
    (h : Layer registry strength (before ++ ⟨.name, name⟩ :: after) tree) :
    Layer registry strength (before ++ openingMark :: (inner ++ closingMark :: after))
      (substitute (replacing name part) tree) := by
  have hplug := layer_plug hfree (.group hpart) h (unmarked_around hbefore hafter hmark)
  rw [plug_append, plug_of_not_mem hbefore, plug_cons_name, plug_of_not_mem hafter] at hplug
  simpa using hplug

/-! ## The leaves of the name -/

-- By induction on the derivation: a name that is read without a call is one leaf.
mutual

theorem count_primary {tokens : List Token} {tree : Expression}
    (hfree : Free registry name) (h : Primary registry tokens tree) :
    tree.variableNames.count name = tokens.count ⟨.name, name⟩ := by
  match tokens, tree, h with
  | _, _, .number numeral point => simp
  | _, _, @Primary.constant _ other _ known =>
      have hne := hfree.ne_of_constant known
      simp [hne]
  | _, _, @Primary.var _ other unknown => simp [List.count_singleton]
  | _, _, @Primary.call _ other inner args arity phrases =>
      have hne := hfree.ne_of_arity arity
      have hargs := count_arguments hfree phrases
      simp [hne, hargs, openingMark, closingMark]

theorem count_factor {tokens : List Token} {tree : Expression}
    (hfree : Free registry name) (h : Factor registry tokens tree) :
    tree.variableNames.count name = tokens.count ⟨.name, name⟩ := by
  match tokens, tree, h with
  | _, _, .plain inner => exact count_primary hfree inner
  | _, _, .factorial inner =>
      have hinner := count_primary hfree inner
      simp [hinner, factorial]
  | _, _, .group inner =>
      have hinner := count_layer hfree inner
      simp [hinner, openingMark, closingMark]
  | _, _, .negative negates inner =>
      have hinner := count_factor hfree inner
      simp [hinner, minus]

theorem count_layer {strength : Nat} {tokens : List Token} {tree : Expression}
    (hfree : Free registry name) (h : Layer registry strength tokens tree) :
    tree.variableNames.count name = tokens.count ⟨.name, name⟩ := by
  match strength, tokens, tree, h with
  | _, _, _, .factor inner => exact count_factor hfree inner
  | _, _, _, .single inner => exact count_layer hfree inner
  | _, _, _, .join first second =>
      have hfirst := count_layer hfree first
      have hsecond := count_layer hfree second
      simp [hfirst, hsecond, ofOperator_eq]

theorem count_arguments {tokens : List Token} {trees : List Expression}
    (hfree : Free registry name) (h : Arguments registry tokens trees) :
    (argumentNames trees).count name = tokens.count ⟨.name, name⟩ := by
  match tokens, trees, h with
  | _, _, .last only => simpa using count_layer hfree only
  | _, _, .more first rest =>
      have hfirst := count_layer hfree first
      have hrest := count_arguments hfree rest
      simp [hfirst, hrest, separatorMark]

end

end Grammar

/-! ## Texts -/

open Grammar

variable {registry : Registry}

/-- A text that is an expression, put in parentheses, is one operand wherever a fresh name is:
if the text with the name is read, then so is the text with the group, with the tree of the
group in the place of the one leaf of the name, and with the variables of both. -/
theorem Parsed.ofText_group_for_name {before inner after name : String} {part whole : Parsed}
    (hname : Token.IsName name.toList) (hconstant : registry.constant? name = none)
    (hfunction : registry.function? name = none)
    (hbefore : ⟨.name, name⟩ ∉ Token.ofText before)
    (hafter : ⟨.name, name⟩ ∉ Token.ofText after)
    (hmark : (Token.ofText after).head? ≠ some Token.factorial)
    (hpart : ofText registry inner = .ok part)
    (hwhole : ofText registry (before ++ " " ++ name ++ " " ++ after) = .ok whole) :
    whole.root.variableNames.count name = 1 ∧
      ∃ filled, ofText registry (before ++ "(" ++ inner ++ ")" ++ after) = .ok filled ∧
        filled.root = substitute (replacing name part.root) whole.root ∧
        ∀ other, filled.defaults.get? other =
          ((whole.defaults.erase name).get? other).or (part.defaults.get? other) := by
  have hfree : Free registry name :=
    ⟨hconstant, by rw [Registry.arity?, hfunction, Option.map_none]⟩
  have hlayer := layer_of_ofText hwhole
  rw [Token.ofText_around_name hname] at hlayer
  have hcount : whole.root.variableNames.count name = 1 := by
    rw [count_layer hfree hlayer]
    simp [List.count_eq_zero_of_not_mem hbefore, List.count_eq_zero_of_not_mem hafter]
  have hfilled : Layer registry 1 (Token.ofText (before ++ "(" ++ inner ++ ")" ++ after))
      (substitute (replacing name part.root) whole.root) := by
    rw [Token.ofText_around_group]
    exact layer_group_for_name hfree hbefore hafter hmark (layer_of_ofText hpart) hlayer
  have hread := ofTokens_of_layer hfilled
  refine ⟨hcount, _, hread, rfl, ?_⟩
  intro other
  have hmem : name ∈ whole.root.variableNames := List.count_pos_iff.1 (by omega)
  rw [get?_defaults_of_ofText hread, Table.get?_erase, get?_defaults_of_ofText hwhole,
    get?_defaults_of_ofText hpart]
  simp only [mem_variableNames_replacing hmem]
  by_cases heq : other = name
  · simp [heq]
  · by_cases hother : other ∈ whole.root.variableNames <;> simp [heq, hother]

/-- A registry with one function, of two arguments. -/
def summing : Registry :=
  Registry.empty.addFunction "sum" (.binary fun first second => first + second)

theorem Grammar.layer_var_summing {strength : Nat} (h : strength ≤ 4) (name : String) :
    Layer summing strength [⟨.name, name⟩] (.var name) :=
  Layer.var rfl h

/-- The group mentions the name itself, and stands in a call under a negation. -/
theorem Parsed.ofText_group_for_name_summing :
    ∃ filled, ofText summing ("-sum(y," ++ "(" ++ "x - y" ++ ")" ++ ") * z") = .ok filled ∧
      filled.root = .binary .multiply
        (.call "-" [.call "sum" [.var "y", .binary .subtract (.var "x") (.var "y")]])
        (.var "z") ∧
      filled.defaults.get? "x" = some 0 := by
  have hpart : Layer summing 1 (Token.ofText "x - y")
      (.binary .subtract (.var "x") (.var "y")) := by
    have htokens : Token.ofText "x - y" =
        [⟨.name, "x"⟩] ++ Token.ofOperator .subtract :: [⟨.name, "y"⟩] := by decide +kernel
    rw [htokens]
    have hfirst : Layer summing Operator.subtract.layer _ _ :=
      layer_var_summing (by decide) "x"
    exact .join hfirst (layer_var_summing (by decide) "y")
  have hcall : Factor summing
      (Token.minus :: ⟨.name, "sum"⟩ :: Token.openingMark ::
        (([⟨.name, "y"⟩] ++ Token.separatorMark :: [⟨.name, "x"⟩]) ++ [Token.closingMark]))
      (.call "-" [.call "sum" [.var "y", .var "x"]]) :=
    .negative (.inl rfl) (.plain (.call rfl
      (.more (layer_var_summing (by decide) _) (.last (layer_var_summing (by decide) _)))))
  have hwhole : Layer summing 1 (Token.ofText ("-sum(y," ++ " " ++ "x" ++ " " ++ ") * z"))
      (.binary .multiply (.call "-" [.call "sum" [.var "y", .var "x"]]) (.var "z")) := by
    have htokens : Token.ofText ("-sum(y," ++ " " ++ "x" ++ " " ++ ") * z") =
        (Token.minus :: ⟨.name, "sum"⟩ :: Token.openingMark ::
            (([⟨.name, "y"⟩] ++ Token.separatorMark :: [⟨.name, "x"⟩]) ++
              [Token.closingMark])) ++
          Token.ofOperator .multiply :: [⟨.name, "z"⟩] := by decide +kernel
    rw [htokens]
    have hfirst : Layer summing Operator.multiply.layer _ _ :=
      Layer.weaken (.factor hcall) (by decide)
    exact .single (.join hfirst (layer_var_summing (by decide) _))
  have hname : Token.IsName "x".toList := ⟨by decide, by simp⟩
  have hbefore : ⟨.name, "x"⟩ ∉ Token.ofText "-sum(y," := by decide +kernel
  have hafter : ⟨.name, "x"⟩ ∉ Token.ofText ") * z" := by decide +kernel
  have hmark : (Token.ofText ") * z").head? ≠ some Token.factorial := by decide +kernel
  obtain ⟨-, filled, hfilled, hroot, -⟩ :=
    ofText_group_for_name hname rfl rfl hbefore hafter hmark (ofTokens_of_layer hpart)
      (ofTokens_of_layer hwhole)
  have htree : filled.root = .binary .multiply
      (.call "-" [.call "sum" [.var "y", .binary .subtract (.var "x") (.var "y")]])
      (.var "z") := by simp [hroot, replacing]
  refine ⟨filled, hfilled, htree, ?_⟩
  rw [get?_defaults_of_ofText hfilled, htree]
  simp

end Formula
