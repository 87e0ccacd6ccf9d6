import ManagedC.Proofs.Declarations.Declarators
import ManagedC.Syntax.Construct

/-!
# Parameter lists

A parameter list declares a parameter for each of its declarations, in their order and with their names, or
says with the single word `void` that there are none. Main statements: a list is accepted exactly if it
declares something in this sense (`ParameterList.resolve_eq_ok_iff`), and what is known about the parameters
of a function is what its list declares (`Declarator.resolve_parameters`). A parameter with a function suffix
is refused if the suffix has a list. One without a list is taken for a parameter of the type that the function
returns (`Declarator.resolve_unlisted`).
-/

namespace ManagedC

open TypeSpecifier (Names)

/-! ## What declarators are made of -/

namespace DirectDeclarator

/-- The name, if there is one. -/
def name? : DirectDeclarator → Option String
  | .identifier name => some name
  | .unnamed => none
  | .array inner _ | .function inner _ => inner.name?

/-- The array suffixes behind a name, or behind the function suffix on it, as they are written. -/
def sizes : DirectDeclarator → List (Option UInt64)
  | .array inner size => inner.sizes ++ [size]
  | .identifier _ | .unnamed | .function _ _ => []

/-- The list of the function suffix, or none if the suffix has none, if there is a function suffix. -/
def function? : DirectDeclarator → Option (Option ParameterList)
  | .identifier _ | .unnamed => none
  | .array inner _ => inner.function?
  | .function _ list => some list

variable {location : Location}

@[simp] theorem name?_ofName (name : Option String) : (ofName name).name? = name := by
  cases name <;> rfl

@[simp] theorem sizes_ofName (name : Option String) : (ofName name).sizes = [] := by
  cases name <;> rfl

@[simp] theorem function?_ofName (name : Option String) : (ofName name).function? = none := by
  cases name <;> rfl

@[simp] theorem nestsFunction_ofName (name : Option String) : (ofName name).nestsFunction = false := by
  cases name <;> rfl

@[simp] theorem name?_withArrays (sizes : List (Option UInt64)) (core : DirectDeclarator) :
    (core.withArrays sizes).name? = core.name? := by
  induction sizes generalizing core with
  | nil => rfl
  | cons size sizes ih => exact ih (.array core size)

@[simp] theorem function?_withArrays (sizes : List (Option UInt64)) (core : DirectDeclarator) :
    (core.withArrays sizes).function? = core.function? := by
  induction sizes generalizing core with
  | nil => rfl
  | cons size sizes ih => exact ih (.array core size)

@[simp] theorem nestsFunction_withArrays (sizes : List (Option UInt64)) (core : DirectDeclarator) :
    (core.withArrays sizes).nestsFunction = core.nestsFunction := by
  induction sizes generalizing core with
  | nil => rfl
  | cons size sizes ih => exact ih (.array core size)

@[simp] theorem sizes_withArrays (sizes : List (Option UInt64)) (core : DirectDeclarator) :
    (core.withArrays sizes).sizes = core.sizes ++ sizes := by
  induction sizes generalizing core with
  | nil => exact (List.append_nil _).symm
  | cons size sizes ih =>
    rw [withArrays, ih, DirectDeclarator.sizes, List.append_assoc]
    rfl

/-- A function suffix on no other suffix is one on a name. -/
theorem exists_ofName : ∀ {inner : DirectDeclarator} {list : Option ParameterList},
    (function inner list).nestsFunction = false → ∃ name, inner = ofName name
  | .identifier name, _, _ => ⟨some name, rfl⟩
  | .unnamed, _, _ => ⟨none, rfl⟩

/-- What a direct declarator makes of a type: the array suffixes apply to it, and the list of a function suffix
is read. -/
theorem derive_eq_ok_iff {direct : DirectDeclarator} {type type' : CType} {name : Option String}
    {parameters : Option ParameterInfo} :
    direct.derive location type = .ok (type', name, parameters) ↔
      direct.nestsFunction = false ∧ type' = .arrays direct.sizes type ∧ name = direct.name? ∧
        match direct.function? with
        | some (some list) => ∃ info, list.resolve location = .ok info ∧ parameters = some info
        | _ => parameters = none := by
  cases hnests : direct.nestsFunction with
  | true => simp [derive_nestsFunction hnests]
  | false =>
    obtain ⟨core, sizes, rfl, hcore⟩ := exists_withArrays direct
    rw [derive_withArrays]
    rcases hcore with ⟨name', rfl⟩ | ⟨inner, list, rfl⟩
    · simp [derive_ofName, eq_comm]
    · rw [nestsFunction_withArrays] at hnests
      obtain ⟨name', rfl⟩ := exists_ofName hnests
      rw [derive_function]
      cases list with
      | none => simp [function?, DirectDeclarator.sizes, name?, eq_comm]
      | some list =>
        cases hlist : list.resolve location with
        | error e => simp [function?, hlist, Except.map]
        | ok info => simp [function?, hlist, DirectDeclarator.sizes, name?, Except.map, eq_comm]

end DirectDeclarator

namespace ParameterDeclaration

/-- The declarator, if one is written. -/
def declarator? : ParameterDeclaration → Option Declarator
  | .mk _ declarator => declarator

/-- The declared name, if there is one. -/
def name? (declaration : ParameterDeclaration) : Option String :=
  declaration.declarator?.bind (·.direct.name?)

/-- The declarator of the parameter has a function suffix, with or without a list. -/
def function? (declaration : ParameterDeclaration) : Option (Option ParameterList) :=
  declaration.declarator?.bind (·.direct.function?)

/-- What pointer marks and array suffixes make of a base type. -/
def derive (declaration : ParameterDeclaration) (base : CType) : CType :=
  match declaration.declarator? with
  | none => base
  | some declarator => .arrays declarator.direct.sizes (.pointers declarator.pointers.length base)

/-- A declaration declares a parameter: the parameter has the declared name, and the declared type with an array
turned into a pointer to its elements. It is no array and not `void`, and no function with a list of
parameters. -/
structure Declares (declaration : ParameterDeclaration) (parameter : Parameter) : Prop where
  name : parameter.name = declaration.name?
  type : ∃ base, Names (declaration.specifiers.filterMap DeclarationSpecifier.type?) base ∧
    parameter.type = (declaration.derive base).asParameter
  notVoid : parameter.type ≠ .void
  notArray : ∀ element size, parameter.type ≠ .array element size
  /-- A function suffix has no list. -/
  unlisted : ∀ list, declaration.function? ≠ some (some list)
  /-- A function suffix is one on a name. -/
  unnested : ∀ declarator, declaration.declarator? = some declarator →
    declarator.direct.nestsFunction = false

end ParameterDeclaration

namespace ParameterList

/-- The declarations. -/
def declarations : ParameterList → List ParameterDeclaration
  | .mk declarations _ => declarations

/-- An ellipsis follows. -/
def hasEllipsis : ParameterList → Bool
  | .mk _ hasEllipsis => hasEllipsis

/-- The list is the word `void` alone: without a name, without anything that derives a type from it and without
an ellipsis. -/
def SaysVoid (list : ParameterList) : Prop :=
  list.hasEllipsis = false ∧ ∃ only, list.declarations = [only] ∧ only.isUnderived = true ∧
    Names (only.specifiers.filterMap DeclarationSpecifier.type?) .void

/-- A list declares parameters, or says that there are none. -/
def Declares (list : ParameterList) (info : ParameterInfo) : Prop :=
  (list.SaysVoid ∧ info = .void) ∨
    ¬ list.SaysVoid ∧ info.isVoid = false ∧ info.isVariadic = list.hasEllipsis ∧
      List.Forall₂ ParameterDeclaration.Declares list.declarations info.parameters

end ParameterList

/-! ## Base types -/

/-- Words name one type at most. -/
theorem TypeSpecifier.Names.unique {specifiers : List DeclarationSpecifier} {base base' : CType}
    (h : Names (specifiers.filterMap DeclarationSpecifier.type?) base)
    (h' : Names (specifiers.filterMap DeclarationSpecifier.type?) base') : base = base' := by
  have hbase : DeclarationSpecifier.resolve specifiers .unknown = .ok base :=
    DeclarationSpecifier.resolve_eq_ok_iff.2 h
  rw [DeclarationSpecifier.resolve_eq_ok_iff.2 h'] at hbase
  exact (Except.ok.inj hbase).symm

/-- Words name no array. -/
theorem TypeSpecifier.Names.asParameter {bag : Multiset TypeSpecifier} {base : CType} (h : Names bag base) :
    base.asParameter = base := by
  cases h <;> rfl

namespace CType

theorem isVoid_iff {type : CType} : type.isVoid = true ↔ type = .void := by
  constructor
  · intro h
    unfold isVoid at h
    split at h
    · rfl
    · cases h
  · rintro rfl
    rfl

theorem asParameter_ne_array (type element : CType) (size : Option UInt64) :
    type.asParameter ≠ .array element size := by
  cases type <;> nofun

end CType

/-! ## Parameters -/

namespace Declarator

variable {specifiers : List DeclarationSpecifier} {marks : List (List TypeQualifier)}
  {direct : DirectDeclarator} {span : Span} {declared : Declared}

/-- What a declarator declares has the derived type, the name, and what the list of a function suffix
declares. -/
theorem resolve_eq_ok_iff : resolve specifiers (.mk marks direct span) = .ok declared ↔
    ∃ base parameters, Names (specifiers.filterMap DeclarationSpecifier.type?) base ∧
      direct.derive span.start (.pointers marks.length base) =
        .ok (.arrays direct.sizes (.pointers marks.length base), direct.name?, parameters) ∧
      declared = ⟨.arrays direct.sizes (.pointers marks.length base),
        isConst specifiers (.mk marks direct span), direct.name?, parameters,
        DeclarationSpecifier.firstStorage? specifiers⟩ := by
  constructor
  · intro h
    obtain ⟨base, hbase⟩ := names_of_resolve h
    rw [resolve_of_names hbase] at h
    obtain ⟨⟨type, name, parameters⟩, hderive, rfl⟩ := Except.map_eq_ok.1 h
    obtain ⟨-, rfl, rfl, -⟩ := DirectDeclarator.derive_eq_ok_iff.1 hderive
    exact ⟨base, parameters, hbase, hderive, rfl⟩
  · rintro ⟨base, parameters, hbase, hderive, rfl⟩
    rw [resolve_of_names hbase, hderive]
    rfl

end Declarator

namespace ParameterDeclaration

variable {location : Location} {declaration : ParameterDeclaration} {parameter : Parameter}

/-- A declaration is accepted, and its parameter is not `void`, exactly if it declares the parameter. -/
theorem resolve_eq_ok_iff : declaration.resolve location = .ok parameter ∧ parameter.type ≠ .void ↔
    declaration.Declares parameter := by
  obtain ⟨specifiers, _ | ⟨marks, direct, span⟩⟩ := declaration
  · constructor
    · rintro ⟨h, hvoid⟩
      obtain ⟨base, hbase, h⟩ := Except.bind_eq_ok.1 h
      cases h
      have hnames := DeclarationSpecifier.resolve_eq_ok_iff.1 hbase
      exact ⟨rfl, ⟨base, hnames, hnames.asParameter.symm⟩, hvoid,
        fun element size => hnames.asParameter ▸ CType.asParameter_ne_array base element size,
        nofun, nofun⟩
    · rintro ⟨hname, ⟨base, hbase, htype⟩, hvoid, -, -, -⟩
      refine ⟨?_, hvoid⟩
      have hparameter : parameter = ⟨base, none⟩ := by
        rw [← hbase.asParameter]
        exact congrArg₂ Parameter.mk htype hname
      rw [hparameter]
      exact Except.bind_eq_ok.2 ⟨base, DeclarationSpecifier.resolve_eq_ok_iff.2 hbase, rfl⟩
  · constructor
    · rintro ⟨h, hvoid⟩
      obtain ⟨declared, hdeclared, h⟩ := Except.bind_eq_ok.1 h
      obtain ⟨base, parameters, hbase, hderive, rfl⟩ := Declarator.resolve_eq_ok_iff.1 hdeclared
      obtain ⟨hnests, -, -, hparameters⟩ := DirectDeclarator.derive_eq_ok_iff.1 hderive
      cases parameters with
      | some info => cases h
      | none =>
        cases h
        refine ⟨rfl, ⟨base, hbase, rfl⟩, hvoid, CType.asParameter_ne_array _, ?_, ?_⟩
        · intro list hlist
          rw [show direct.function? = some (some list) from hlist] at hparameters
          obtain ⟨info, -, hnone⟩ := hparameters
          cases hnone
        · rintro declarator ⟨⟩
          exact hnests
    · rintro ⟨hname, ⟨base, hbase, htype⟩, hvoid, -, hunlisted, hunnested⟩
      refine ⟨?_, hvoid⟩
      have hderive : direct.derive span.start (.pointers marks.length base) =
          .ok (.arrays direct.sizes (.pointers marks.length base), direct.name?, none) := by
        refine DirectDeclarator.derive_eq_ok_iff.2 ⟨hunnested _ rfl, rfl, rfl, ?_⟩
        split
        · rename_i list hlist
          exact absurd hlist (hunlisted list)
        · rfl
      refine Except.bind_eq_ok.2 ⟨_, Declarator.resolve_eq_ok_iff.2 ⟨base, none, hbase, hderive, rfl⟩, ?_⟩
      exact congrArg Except.ok (congrArg₂ Parameter.mk htype hname).symm

/-- A function suffix with a list is refused. -/
theorem resolve_listed {declarator : Declarator} {list : ParameterList} {declared : Declared}
    (hdeclarator : declaration.declarator? = some declarator)
    (hlist : declarator.direct.function? = some (some list))
    (h : declarator.resolve declaration.specifiers = .ok declared) :
    declaration.resolve location = .error ⟨.functionParameter, declarator.location⟩ := by
  obtain ⟨specifiers, _⟩ := declaration
  obtain rfl : _ = some declarator := hdeclarator
  obtain ⟨marks, direct, span⟩ := declarator
  obtain ⟨base, parameters, -, hderive, rfl⟩ := Declarator.resolve_eq_ok_iff.1 h
  obtain ⟨-, -, -, hparameters⟩ := DirectDeclarator.derive_eq_ok_iff.1 hderive
  rw [show direct.function? = some (some list) from hlist] at hparameters
  obtain ⟨info, -, rfl⟩ := hparameters
  exact Except.bind_eq_error.2 (.inr ⟨_, h, rfl⟩)

/-- Declarations are accepted exactly if each of them declares its parameter. -/
theorem resolveAll_eq_ok_iff : ∀ {declarations : List ParameterDeclaration} {parameters : List Parameter},
    resolveAll location declarations = .ok parameters ↔ List.Forall₂ Declares declarations parameters
  | [], parameters => by
    constructor
    · intro h
      cases h
      exact .nil
    · rintro ⟨⟩
      rfl
  | declaration :: declarations, parameters => by
    constructor
    · intro h
      obtain ⟨parameter, hparameter, h⟩ := Except.bind_eq_ok.1 h
      by_cases hvoid : parameter.type.isVoid = true
      · rw [if_pos hvoid] at h
        cases h
      · rw [if_neg hvoid] at h
        obtain ⟨rest, hrest, h⟩ := Except.bind_eq_ok.1 h
        cases h
        rw [CType.isVoid_iff] at hvoid
        exact .cons (resolve_eq_ok_iff.1 ⟨hparameter, hvoid⟩) (resolveAll_eq_ok_iff.1 hrest)
    · rintro (_ | ⟨hparameter, hrest⟩)
      obtain ⟨hparameter, hvoid⟩ := (@resolve_eq_ok_iff location _ _).2 hparameter
      refine Except.bind_eq_ok.2 ⟨_, hparameter, ?_⟩
      rw [if_neg (fun h => hvoid (CType.isVoid_iff.1 h))]
      exact Except.bind_eq_ok.2 ⟨_, resolveAll_eq_ok_iff.2 hrest, rfl⟩

end ParameterDeclaration

/-! ## Lists -/

namespace ParameterList

variable {location : Location} {list : ParameterList} {info : ParameterInfo}

/-- A list that is not refused for its first word is the word `void` alone or not. -/
theorem isVoid_eq_ok {answer : Bool} (h : list.isVoid location = .ok answer) :
    answer = true ↔ list.SaysVoid := by
  unfold isVoid at h
  split at h
  · rename_i only
    split at h
    · rename_i hunderived
      obtain ⟨base, hbase, h⟩ := Except.bind_eq_ok.1 h
      cases h
      have hnames := DeclarationSpecifier.resolve_eq_ok_iff.1 hbase
      rw [CType.isVoid_iff]
      constructor
      · rintro rfl
        exact ⟨rfl, only, rfl, hunderived, hnames⟩
      · rintro ⟨-, only', honly, -, hvoid⟩
        cases honly
        exact hnames.unique hvoid
    · rename_i hunderived
      cases h
      constructor
      · nofun
      · rintro ⟨-, only', honly, hunderived', -⟩
        cases honly
        exact absurd hunderived' hunderived
  · rename_i hlist
    cases h
    constructor
    · nofun
    · rintro ⟨hellipsis, only, hdeclarations, -, -⟩
      obtain ⟨declarations, ellipsis⟩ := list
      obtain rfl : ellipsis = false := hellipsis
      obtain rfl : declarations = [only] := hdeclarations
      exact absurd rfl (hlist only)

/-- A list whose declarations declare something is not refused for its first word. -/
theorem exists_isVoid (h : list.Declares info) : ∃ answer, list.isVoid location = .ok answer := by
  unfold isVoid
  split
  · rename_i only
    split
    · -- the words of the only declaration name a type
      obtain ⟨base, hbase⟩ : ∃ base, Names (only.specifiers.filterMap DeclarationSpecifier.type?) base := by
        rcases h with ⟨⟨-, only', honly, -, hvoid⟩, -⟩ | ⟨-, -, -, hall⟩
        · cases honly
          exact ⟨_, hvoid⟩
        · obtain ⟨parameter, -, honly, -, -⟩ := List.forall₂_cons_left_iff.1 hall
          obtain ⟨base, hbase, -⟩ := honly.type
          exact ⟨base, hbase⟩
      exact ⟨_, Except.bind_eq_ok.2 ⟨base, DeclarationSpecifier.resolve_eq_ok_iff.2 hbase, rfl⟩⟩
    · exact ⟨_, rfl⟩
  · exact ⟨_, rfl⟩

/-- A list is accepted exactly if it declares parameters, or says that there are none. -/
theorem resolve_eq_ok_iff : list.resolve location = .ok info ↔ list.Declares info := by
  obtain ⟨declarations, ellipsis⟩ := list
  constructor
  · intro h
    obtain ⟨answer, hanswer, h⟩ := Except.bind_eq_ok.1 h
    have hanswers := isVoid_eq_ok hanswer
    cases answer with
    | true =>
      cases h
      exact .inl ⟨hanswers.1 rfl, rfl⟩
    | false =>
      obtain ⟨parameters, hparameters, h⟩ := Except.bind_eq_ok.1 h
      cases h
      exact .inr ⟨fun hvoid => Bool.false_ne_true (hanswers.2 hvoid), rfl, rfl,
        ParameterDeclaration.resolveAll_eq_ok_iff.1 hparameters⟩
  · intro h
    obtain ⟨answer, hanswer⟩ := @exists_isVoid location _ _ h
    have hanswers := isVoid_eq_ok hanswer
    refine Except.bind_eq_ok.2 ⟨answer, hanswer, ?_⟩
    rcases h with ⟨hvoid, rfl⟩ | ⟨hvoid, hisVoid, hvariadic, hall⟩
    · rw [if_pos (hanswers.2 hvoid)]
      rfl
    · rw [if_neg (fun hanswer => hvoid (hanswers.1 hanswer))]
      refine Except.bind_eq_ok.2 ⟨_, ParameterDeclaration.resolveAll_eq_ok_iff.2 hall, ?_⟩
      obtain ⟨parameters, isVoid, isVariadic⟩ := info
      obtain rfl : isVoid = false := hisVoid
      obtain rfl : isVariadic = ellipsis := hvariadic
      rfl

end ParameterList

/-! ## Functions -/

namespace Declarator

/-- A list is accepted exactly if it declares parameters, or says that there are none. What is then known about
the parameters of the function is that there are none, if the list is the word `void` alone, and else that there
is one for each declaration, in order, with the declared name and a type that is neither `void` nor an array; more
arguments may follow if there is an ellipsis. A parameter whose declarator has a function suffix is among them
only if the suffix has no list, and has the type that the function returns; a function suffix with a list is
refused as something that is left for later. -/
theorem resolve_parameters {direct : DirectDeclarator} {list : ParameterList}
    (specifiers : List DeclarationSpecifier) (marks : List (List TypeQualifier)) (span : Span)
    (hlist : direct.function? = some (some list)) :
    (∀ info, list.resolve span.start = .ok info ↔ list.Declares info) ∧
    (∀ declared, resolve specifiers (.mk marks direct span) = .ok declared →
      ∃ info, declared.parameters = some info ∧
        (info = .void ↔ list.SaysVoid) ∧ (info.isVoid = true ↔ list.SaysVoid) ∧
        (¬ list.SaysVoid → info.isVariadic = list.hasEllipsis ∧
          List.Forall₂ ParameterDeclaration.Declares list.declarations info.parameters)) ∧
    ∀ (declaration : ParameterDeclaration) (declarator : Declarator) (inner : ParameterList)
      (other : Declared), declaration.declarator? = some declarator →
      declarator.direct.function? = some (some inner) →
      declarator.resolve declaration.specifiers = .ok other →
      declaration.resolve span.start = .error ⟨.functionParameter, declarator.location⟩ ∧
        DeclarationFault.functionParameter.category = .notImplemented := by
  refine ⟨fun info => ParameterList.resolve_eq_ok_iff, ?_, ?_⟩
  · intro declared h
    obtain ⟨base, parameters, -, hderive, rfl⟩ := resolve_eq_ok_iff.1 h
    obtain ⟨-, -, -, hparameters⟩ := DirectDeclarator.derive_eq_ok_iff.1 hderive
    rw [hlist] at hparameters
    obtain ⟨info, hinfo, rfl⟩ := hparameters
    refine ⟨info, rfl, ?_⟩
    rcases ParameterList.resolve_eq_ok_iff.1 hinfo with ⟨hvoid, rfl⟩ | ⟨hvoid, hisVoid, hvariadic, hall⟩
    · exact ⟨iff_of_true rfl hvoid, iff_of_true rfl hvoid, fun hnot => absurd hvoid hnot⟩
    · refine ⟨iff_of_false ?_ hvoid, iff_of_false ?_ hvoid, fun _ => ⟨hvariadic, hall⟩⟩
      · rintro rfl
        cases hisVoid
      · rw [hisVoid]
        exact Bool.false_ne_true
  · intro declaration declarator inner other hdeclarator hinner hother
    exact ⟨ParameterDeclaration.resolve_listed hdeclarator hinner hother, rfl⟩

open Construct

/-- The parameters of `int main(int argc, char *argv[])` are a number and a pointer to pointers. -/
theorem resolve_parameters_commandLine :
    let argv := pointersTo 1 (.array (.identifier "argv") none)
    let list := parameterList
      [namedParameter intSpecifier 0 "argc", parameter [charSpecifier] (some argv)] false
    ∃ declared info, resolve [intSpecifier] (functionDeclarator "main" (some list)) = .ok declared ∧
      declared.parameters = some info ∧ ¬ list.SaysVoid ∧ info.isVariadic = false ∧
      List.Forall₂ ParameterDeclaration.Declares list.declarations info.parameters ∧
      info.parameters =
        [⟨.int, some "argc"⟩, ⟨.pointer (.pointer (.primitive .char)), some "argv"⟩] := by
  intro argv list
  obtain ⟨-, hdeclares, -⟩ :=
    @resolve_parameters (.function (.identifier "main") (some list)) list [intSpecifier] [] .unknown rfl
  obtain ⟨info, hinfo, -, hvoid, hrest⟩ := hdeclares _ rfl
  obtain rfl := Option.some.inj hinfo
  have hnot : ¬ list.SaysVoid := fun h => Bool.false_ne_true (hvoid.2 h)
  obtain ⟨hvariadic, hall⟩ := hrest hnot
  exact ⟨_, _, rfl, rfl, hnot, hvariadic, hall, rfl⟩

/-- `int f(int g())` is taken for `int f(int g)`, although `g` is declared as a function. -/
theorem resolve_unlisted :
    let g := functionDeclarator "g" none
    g.direct.function? = some none ∧
      resolve [intSpecifier] (functionDeclarator "f"
        (some (parameterList [parameter [intSpecifier] (some g)] false))) =
        .ok ⟨.int, false, some "f", some ⟨[⟨.int, some "g"⟩], false, false⟩, none⟩ :=
  ⟨rfl, rfl⟩

end Declarator

end ManagedC
