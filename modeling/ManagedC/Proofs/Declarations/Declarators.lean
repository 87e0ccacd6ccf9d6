import ManagedC.Proofs.Declarations.BaseType

/-!
# Declarators are read inside out

Pointer marks apply to the base type, and the suffixes of a name to what the pointer marks made of it. The
suffix that is written first is the innermost one of the tree and the outermost one of the type: `[2][3]`
after a name makes an array of two arrays of three. Main statements: what array suffixes do to whatever they
follow (`DirectDeclarator.derive_withArrays`), and what a declarator declares
(`Declarator.resolve_insideOut`).
-/

namespace ManagedC

open TypeSpecifier (Names)

/-! ## Types and trees with several suffixes -/

namespace CType

/-- A pointer to a pointer to … values of a type. -/
def pointers : Nat → CType → CType
  | 0, base => base
  | levels + 1, base => .pointer (pointers levels base)

/-- An array of the first size of arrays of the next one … of elements of a type. -/
def arrays : List (Option UInt64) → CType → CType
  | [], element => element
  | size :: sizes, element => .array (arrays sizes element) size

/-- Each mark makes a pointer of what the marks before it made. -/
theorem foldl_pointer {α : Type} (marks : List α) (base : CType) :
    marks.foldl (fun type _ => .pointer type) base = pointers marks.length base := by
  induction marks using List.reverseRecOn with
  | nil => rfl
  | append_singleton marks mark ih =>
    rw [List.foldl_append, ih, List.length_append]
    rfl

end CType

namespace DirectDeclarator

/-- A name alone, or no name. -/
def ofName : Option String → DirectDeclarator
  | some name => .identifier name
  | none => .unnamed

/-- A direct declarator with array suffixes behind it, as they are written. -/
def withArrays : DirectDeclarator → List (Option UInt64) → DirectDeclarator
  | direct, [] => direct
  | direct, size :: sizes => withArrays (.array direct size) sizes

/-- A function suffix is applied to something that has a suffix already. -/
def nestsFunction : DirectDeclarator → Bool
  | .identifier _ | .unnamed => false
  | .array inner _ => inner.nestsFunction
  | .function (.identifier _) _ | .function .unnamed _ => false
  | .function (.array _ _) _ | .function (.function _ _) _ => true

/-! ## What suffixes do -/

variable {location : Location}

/-- Array suffixes make an array of a type before the type comes to what they follow. -/
theorem derive_withArrays (sizes : List (Option UInt64)) (direct : DirectDeclarator) (type : CType) :
    (direct.withArrays sizes).derive location type = direct.derive location (.arrays sizes type) := by
  induction sizes generalizing direct with
  | nil => rfl
  | cons size sizes ih => exact ih (.array direct size)

theorem derive_ofName (name : Option String) (type : CType) :
    (ofName name).derive location type = .ok (type, name, none) := by
  cases name <;> rfl

/-- A function suffix on a name leaves the type alone: it is what the function returns. -/
theorem derive_function (name : Option String) (list : Option ParameterList) (type : CType) :
    (function (ofName name) list).derive location type =
      match list with
      | none => .ok (type, name, none)
      | some list => (list.resolve location).map fun info => (type, name, some info) := by
  cases name <;> cases list <;> rfl

/-- What is a suffix follows a name with array suffixes, or a function suffix with array suffixes. -/
theorem exists_withArrays : ∀ direct : DirectDeclarator, ∃ core sizes,
    direct = withArrays core sizes ∧
      ((∃ name, core = ofName name) ∨ ∃ inner list, core = function inner list)
  | .identifier name => ⟨.identifier name, [], rfl, .inl ⟨some name, rfl⟩⟩
  | .unnamed => ⟨.unnamed, [], rfl, .inl ⟨none, rfl⟩⟩
  | .function inner list => ⟨.function inner list, [], rfl, .inr ⟨inner, list, rfl⟩⟩
  | .array inner size => by
    obtain ⟨core, sizes, rfl, hcore⟩ := exists_withArrays inner
    refine ⟨core, sizes ++ [size], ?_, hcore⟩
    have hsnoc : ∀ (sizes : List (Option UInt64)) (core : DirectDeclarator),
        .array (core.withArrays sizes) size = core.withArrays (sizes ++ [size]) := by
      intro sizes
      induction sizes with
      | nil => exact fun _ => rfl
      | cons first sizes ih => exact fun core => ih (.array core first)
    exact hsnoc sizes core

/-- A function suffix on anything but a name is refused. -/
theorem derive_nestsFunction : ∀ {direct : DirectDeclarator}, direct.nestsFunction = true →
    ∀ type, direct.derive location type = .error ⟨.nestedFunction, location⟩
  | .array _ _, h, type => derive_nestsFunction (by rwa [nestsFunction] at h) (.array type _)
  | .function (.array _ _) _, _, _ => rfl
  | .function (.function _ _) _, _, _ => rfl

end DirectDeclarator

/-! ## Declarators -/

/-- Words that name no type are a fault at the place where they are read. -/
theorem DeclarationSpecifier.exists_fault {specifiers : List DeclarationSpecifier} {location : Location}
    (h : ¬ ∃ base, Names (specifiers.filterMap type?) base) :
    ∃ fault, resolve specifiers location = .error ⟨fault, location⟩ := by
  cases hresolve : resolve specifiers location with
  | ok base => exact absurd ⟨base, resolve_eq_ok_iff.1 hresolve⟩ h
  | error e =>
    unfold resolve at hresolve
    split at hresolve <;> cases hresolve
    · exact ⟨_, rfl⟩
    · exact ⟨_, rfl⟩

namespace Declarator

variable {specifiers : List DeclarationSpecifier} {marks : List (List TypeQualifier)}
  {direct : DirectDeclarator} {span : Span} {base : CType} {name : Option String}

/-- What a declarator declares if its words name a type. -/
theorem resolve_of_names (hbase : Names (specifiers.filterMap DeclarationSpecifier.type?) base) :
    resolve specifiers (.mk marks direct span) =
      (direct.derive span.start (.pointers marks.length base)).map fun derived =>
        ⟨derived.1, isConst specifiers (.mk marks direct span), derived.2.1, derived.2.2,
          DeclarationSpecifier.firstStorage? specifiers⟩ := by
  have hresolve : DeclarationSpecifier.resolve specifiers span.start = .ok base :=
    DeclarationSpecifier.resolve_eq_ok_iff.2 hbase
  unfold resolve
  rw [hresolve]
  show (direct.derive span.start (marks.foldl (fun type _ => .pointer type) base) >>= fun _ => _) = _
  rw [CType.foldl_pointer]
  cases direct.derive span.start (.pointers marks.length base) <;> rfl

/-- The words of a declarator that declares something name a type. -/
theorem names_of_resolve {declared : Declared}
    (h : resolve specifiers (.mk marks direct span) = .ok declared) :
    ∃ base, Names (specifiers.filterMap DeclarationSpecifier.type?) base := by
  unfold resolve at h
  obtain ⟨base, hbase, -⟩ := Except.bind_eq_ok.1 h
  exact ⟨base, DeclarationSpecifier.resolve_eq_ok_iff.1 hbase⟩

/-- The qualifiers of the last pointer mark say whether the declared thing is constant, or the words before
the declarator if there is no pointer mark. -/
theorem isConst_iff : isConst specifiers (.mk marks direct span) = true ↔
    (∃ qualifiers, marks.getLast? = some qualifiers ∧ .const ∈ qualifiers) ∨
      marks = [] ∧ .qualifier .const ∈ specifiers := by
  unfold isConst DeclarationSpecifier.hasQualifier
  dsimp only [Declarator.pointers]
  cases hlast : marks.getLast? with
  | none =>
    rw [List.getLast?_eq_none_iff] at hlast
    simp [hlast]
  | some qualifiers =>
    have hne : marks ≠ [] := by
      rintro rfl
      cases hlast
    simp [hne]

/-- A declarator with a base type, pointer marks and array suffixes on a name declares an array of the first
size of arrays of the next one, and so on, of pointers of so many levels to the base type. A function suffix on
the name declares a function that returns such pointers, with the parameters of the list if the list declares
any and a fault of the list otherwise. A function suffix on another suffix is refused. -/
theorem resolve_insideOut (specifiers : List DeclarationSpecifier) (marks : List (List TypeQualifier))
    (span : Span) :
    (∀ base, Names (specifiers.filterMap DeclarationSpecifier.type?) base →
      ∃ constant,
        (constant = true ↔
          (∃ qualifiers, marks.getLast? = some qualifiers ∧ .const ∈ qualifiers) ∨
            marks = [] ∧ .qualifier .const ∈ specifiers) ∧
        ∀ name,
          (∀ sizes, resolve specifiers (.mk marks ((DirectDeclarator.ofName name).withArrays sizes) span) =
            .ok ⟨.arrays sizes (.pointers marks.length base), constant, name, none,
              DeclarationSpecifier.firstStorage? specifiers⟩) ∧
          resolve specifiers (.mk marks (.function (.ofName name) none) span) =
            .ok ⟨.pointers marks.length base, constant, name, none,
              DeclarationSpecifier.firstStorage? specifiers⟩ ∧
          ∀ list, resolve specifiers (.mk marks (.function (.ofName name) (some list)) span) =
            (list.resolve span.start).map fun info =>
              ⟨.pointers marks.length base, constant, name, some info,
                DeclarationSpecifier.firstStorage? specifiers⟩) ∧
    ∀ direct, direct.nestsFunction = true → ∃ fault,
      resolve specifiers (.mk marks direct span) = .error ⟨fault, span.start⟩ ∧
        ∀ base, Names (specifiers.filterMap DeclarationSpecifier.type?) base → fault = .nestedFunction := by
  constructor
  · intro base hbase
    -- whether the declared thing is constant does not depend on the suffixes
    refine ⟨isConst specifiers (.mk marks .unnamed span), isConst_iff, fun name => ⟨?_, ?_, ?_⟩⟩
    · intro sizes
      rw [resolve_of_names hbase, DirectDeclarator.derive_withArrays, DirectDeclarator.derive_ofName]
      rfl
    · rw [resolve_of_names hbase, DirectDeclarator.derive_function]
      rfl
    · intro list
      rw [resolve_of_names hbase, DirectDeclarator.derive_function]
      dsimp only
      cases list.resolve span.start <;> rfl
  · intro direct hnests
    by_cases hbase : ∃ base, Names (specifiers.filterMap DeclarationSpecifier.type?) base
    · obtain ⟨base, hbase⟩ := hbase
      refine ⟨.nestedFunction, ?_, fun _ _ => rfl⟩
      rw [resolve_of_names hbase, DirectDeclarator.derive_nestsFunction hnests]
      rfl
    · obtain ⟨fault, hfault⟩ := DeclarationSpecifier.exists_fault hbase
      refine ⟨fault, ?_, fun base hnames => absurd ⟨base, hnames⟩ hbase⟩
      unfold resolve
      rw [hfault]
      rfl

/-- `static const char *const names[2][3]` is an array of two arrays of three pointers, which are constant. A
function suffix in the place of the last array suffix is refused. -/
theorem resolve_insideOut_table :
    let words : List DeclarationSpecifier := [.storage .static, .qualifier .const, .type .char]
    let row : DirectDeclarator := .array (.identifier "names") (some 2)
    Names (words.filterMap DeclarationSpecifier.type?) (.primitive .char) ∧
      resolve words (.mk [[.const]] (.array row (some 3)) .unknown) =
        .ok ⟨.array (.array (.pointer (.primitive .char)) (some 3)) (some 2), true, some "names", none,
          some .static⟩ ∧
      resolve words (.mk [[.const]] (.function row none) .unknown) =
        .error ⟨.nestedFunction, Location.unknown⟩ := by
  intro words row
  have hnames : Names (words.filterMap DeclarationSpecifier.type?) (.primitive .char) := .char .unsaid
  obtain ⟨hreads, hrefuses⟩ := resolve_insideOut words [[.const]] .unknown
  obtain ⟨constant, hconstant, hreads⟩ := hreads _ hnames
  obtain ⟨fault, hfault, hnested⟩ := hrefuses (.function row none) rfl
  refine ⟨hnames, ?_, ?_⟩
  · obtain rfl : constant = true := hconstant.2 (.inl ⟨[.const], rfl, by decide⟩)
    exact (hreads (some "names")).1 [some 2, some 3]
  · rw [hfault, hnested _ hnames]
    rfl

end Declarator

end ManagedC
