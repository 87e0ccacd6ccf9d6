import ManagedC.Proofs.Emit.FunctionCode

/-!
# The parameters that functions are declared with

What is known about the parameters of a function comes from one parameter list. So each parameter has
a value, and a list that says explicitly that there are no parameters has none.
-/

namespace ManagedC

theorem ParameterDeclaration.isVoid_of_resolveAll {location : Location} :
    ∀ {ds : List ParameterDeclaration} {ps : List Parameter},
      resolveAll location ds = .ok ps → ∀ p ∈ ps, p.type.isVoid = false
  | [], ps, h, p, hp => by
    simp only [resolveAll] at h
    cases h
    cases hp
  | d :: ds, ps, h, p, hp => by
    simp only [resolveAll] at h
    obtain ⟨q, _, h⟩ := Except.bind_eq_ok.1 h
    cases hq : q.type.isVoid with
    | true =>
      rw [hq] at h
      cases h
    | false =>
      rw [hq] at h
      obtain ⟨qs, hqs, h⟩ := Except.bind_eq_ok.1 h
      cases h
      rcases List.mem_cons.1 hp with rfl | hp
      · exact hq
      · exact isVoid_of_resolveAll hqs p hp

/-- A parameter list is the explicitly empty one, or it is not said to be empty and its parameters
have values. -/
theorem ParameterList.resolve_eq_ok {location : Location} {list : ParameterList}
    {info : ParameterInfo} (h : list.resolve location = .ok info) :
    info = .void ∨ info.isVoid = false ∧ ∀ p ∈ info.parameters, p.type.isVoid = false := by
  obtain ⟨ds, ellipsis⟩ := list
  simp only [resolve] at h
  obtain ⟨isVoid, _, h⟩ := Except.bind_eq_ok.1 h
  cases isVoid with
  | true =>
    cases h
    exact .inl rfl
  | false =>
    obtain ⟨ps, hps, h⟩ := Except.bind_eq_ok.1 h
    cases h
    exact .inr ⟨rfl, ParameterDeclaration.isVoid_of_resolveAll hps⟩

/-- What is known about parameters comes from a list of them. -/
theorem DirectDeclarator.exists_list_of_derive {location : Location} :
    ∀ {d : DirectDeclarator} {base type : CType} {name : Option String} {info : ParameterInfo},
      d.derive location base = .ok (type, name, some info) →
      ∃ list : ParameterList, list.resolve location = .ok info
  | .identifier _, base, type, name, info, h => by
    simp only [derive] at h
    cases h
  | .unnamed, base, type, name, info, h => by
    simp only [derive] at h
    cases h
  | .array inner size, base, type, name, info, h => by
    simp only [derive] at h
    exact exists_list_of_derive h
  | .function inner none, base, type, name, info, h => by
    simp only [derive] at h
    split at h
    all_goals
      obtain ⟨_, _, h⟩ := Except.bind_eq_ok.1 h
      cases h
  | .function inner (some list), base, type, name, info, h => by
    simp only [derive] at h
    split at h
    all_goals
      obtain ⟨_, _, h⟩ := Except.bind_eq_ok.1 h
      obtain ⟨_, hlist, h⟩ := Except.bind_eq_ok.1 h
      cases h
      exact ⟨list, hlist⟩

theorem Declarator.exists_list_of_resolve {specifiers : List DeclarationSpecifier} {d : Declarator}
    {declared : Declared} {info : ParameterInfo} (h : d.resolve specifiers = .ok declared)
    (hinfo : declared.parameters = some info) :
    ∃ (location : Location) (list : ParameterList), list.resolve location = .ok info := by
  obtain ⟨pointers, direct, span⟩ := d
  simp only [resolve] at h
  obtain ⟨base, _, h⟩ := Except.bind_eq_ok.1 h
  obtain ⟨⟨type, name, parameters⟩, hd, h⟩ := Except.bind_eq_ok.1 h
  cases h
  obtain rfl : parameters = some info := hinfo
  exact ⟨_, DirectDeclarator.exists_list_of_derive hd⟩

namespace FunctionUnit

/-- The unit of a definition has the parameters that are declared, and its body. -/
theorem ofDefinition_eq_ok {d : FunctionDefinition} {u : FunctionUnit}
    (h : ofDefinition d = .ok u) : ∃ declared,
      d.declarator.resolve d.specifiers = .ok declared ∧ u.parameters = declared.parameters ∧
        d.body.toBody u.name = .ok u.body := by
  unfold ofDefinition at h
  obtain ⟨declared, hd, h⟩ := Except.bind_eq_ok.1 h
  refine ⟨declared, Except.mapError_eq_ok.1 hd, ?_⟩
  dsimp only at h
  split at h
  · cases h
  rename_i name hname
  by_cases hf : (!d.declarator.direct.isFunction) = true
  · rw [if_pos hf] at h
    cases h
  rw [if_neg hf] at h
  by_cases hc : declared.isConst = true
  · rw [if_pos hc] at h
    cases h
  rw [if_neg hc] at h
  by_cases hk : (!d.declarations.isEmpty) = true
  · rw [if_pos hk] at h
    cases h
  rw [if_neg hk] at h
  obtain ⟨body, hb, h⟩ := Except.bind_eq_ok.1 h
  cases h
  exact ⟨rfl, hb⟩

/-- The parameters of a function come from a list of them. -/
theorem exists_list_of_ofDefinition {d : FunctionDefinition} {u : FunctionUnit}
    {info : ParameterInfo} (h : ofDefinition d = .ok u) (hinfo : u.parameters = some info) :
    ∃ (location : Location) (list : ParameterList), list.resolve location = .ok info := by
  obtain ⟨declared, hd, hp, -⟩ := ofDefinition_eq_ok h
  exact Declarator.exists_list_of_resolve hd (hp.symm.trans hinfo)

/-- The parameters of a function have values. -/
theorem isVoid_of_ofDefinition {d : FunctionDefinition} {u : FunctionUnit}
    (h : ofDefinition d = .ok u) : ∀ p ∈ u.parameterList, p.type.isVoid = false := by
  intro p hp
  unfold parameterList at hp
  cases hi : u.parameters with
  | none =>
    rw [hi] at hp
    cases hp
  | some info =>
    rw [hi] at hp
    obtain ⟨location, list, hlist⟩ := exists_list_of_ofDefinition h hi
    rcases ParameterList.resolve_eq_ok hlist with rfl | ⟨-, hvalues⟩
    · cases hp
    · exact hvalues p hp

/-- An entry function needs a starter if and only if it has parameters. -/
theorem needsStarter_iff {d : FunctionDefinition} {u : FunctionUnit} {needed : Bool}
    (h : ofDefinition d = .ok u) (hneeds : EntryPoint.needsStarter u.parameters = .ok needed) :
    needed = true ↔ u.parameterList ≠ [] := by
  unfold parameterList
  unfold EntryPoint.needsStarter at hneeds
  cases hi : u.parameters with
  | none =>
    rw [hi] at hneeds
    cases hneeds
    simp
  | some info =>
    rw [hi] at hneeds
    dsimp only at hneeds
    obtain ⟨location, list, hlist⟩ := exists_list_of_ofDefinition h hi
    rcases ParameterList.resolve_eq_ok hlist with rfl | ⟨hvoid, -⟩
    · cases hneeds
      simp [ParameterInfo.void]
    · rw [if_neg (by simp [hvoid])] at hneeds
      split at hneeds
      · cases hneeds
      split at hneeds
      · rename_i count vector hparameters
        split at hneeds
        · cases hneeds
          simp [hparameters]
        · cases hneeds
      · cases hneeds

end FunctionUnit

end ManagedC
