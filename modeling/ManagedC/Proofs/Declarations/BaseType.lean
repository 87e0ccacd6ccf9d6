import Mathlib
import ManagedC.CType.Declared
import ManagedC.Proofs.Computation

/-!
# The base type that words name

Of the words before a declarator only the type specifiers say something about the base type, and only how
often each of them comes. `TypeSpecifier.Names` is the rule which words go together, as a relation between
a bag of words and the type that they name. Main statement: `DeclarationSpecifier.resolve_names`, that the
words are accepted exactly where the rule has a type for them, which is then the base type.
-/

namespace ManagedC

/-! ## Which words go together -/

/-- What is said about the sign of an integer, at most one word. -/
inductive Sign where
  | unsaid
  | signed
  | unsigned
  deriving DecidableEq

namespace Sign

/-- The words that say it. -/
def words : Sign → Multiset TypeSpecifier
  | unsaid => 0
  | signed => {.signed}
  | unsigned => {.unsigned}

/-- The one of two types that has the sign, if a type has a sign unless the contrary is said. -/
def choose (sign : Sign) (type unsignedType : PrimitiveType) : PrimitiveType :=
  if sign = .unsigned then unsignedType else type

/-- The type of a character with the sign. -/
def char : Sign → PrimitiveType
  | unsaid => .char
  | signed => .signedChar
  | unsigned => .unsignedChar

theorem count_unsigned_pos (sign : Sign) : 0 < sign.words.count .unsigned ↔ sign = .unsigned := by
  cases sign <;> decide

theorem count_eq_zero (sign : Sign) :
    sign.words.count .signed + sign.words.count .unsigned = 0 ↔ sign = .unsaid := by
  cases sign <;> decide

end Sign

/-- The values of the type have no sign. -/
def PrimitiveType.isUnsigned : PrimitiveType → Bool
  | .unsignedChar | .unsignedShort | .unsignedInt | .unsignedLong => true
  | _ => false

/-- The values of the type have no sign. -/
def CType.isUnsigned : CType → Bool
  | .primitive kind => kind.isUnsigned
  | _ => false

namespace TypeSpecifier

open Multiset (replicate)

/-- The words, in whatever order they come, name a type together. -/
inductive Names : Multiset TypeSpecifier → CType → Prop where
  | void : Names {.void} .void
  | char (sign : Sign) : Names ({.char} + sign.words) (.primitive sign.char)
  | short (sign : Sign) {ints : Nat} : ints ≤ 1 →
    Names ({.short} + replicate ints .int + sign.words) (.primitive (sign.choose .short .unsignedShort))
  /-- `long` may be said twice, and `int` too. -/
  | long (sign : Sign) {longs ints : Nat} : 1 ≤ longs → longs ≤ 2 → ints ≤ 1 →
    Names (replicate ints .int + replicate longs .long + sign.words)
      (.primitive (sign.choose .long .unsignedLong))
  /-- `int` need not be said if the sign is. -/
  | int (sign : Sign) {ints : Nat} : ints ≤ 1 → ints = 1 ∨ sign ≠ .unsaid →
    Names (replicate ints .int + sign.words) (.primitive (sign.choose .int .unsignedInt))
  | float : Names {.float} (.primitive .float)
  /-- There is no longer type than `double`. -/
  | double {longs : Nat} : longs ≤ 1 → Names (replicate longs .long + {.double}) (.primitive .double)
  | struct (tag : String) : Names {.struct tag} (.struct tag)
  | typedefName (name : String) : Names {.typedefName name} (.named name)

/-! ## Bags of words and their counts -/

variable {types : List TypeSpecifier} {kind : PrimitiveType} {type : CType}

/-- Words that are neither tags nor names are so many of each kind, and what is said about the sign. -/
theorem coe_eq_counts {sign : Sign} (hnamed : ∀ w ∈ types, namedType? w = none)
    (hsigned : types.count .signed = sign.words.count .signed)
    (hunsigned : types.count .unsigned = sign.words.count .unsigned) :
    (types : Multiset TypeSpecifier) = replicate (types.count void) void +
      replicate (types.count char) char + replicate (types.count short) short +
      replicate (types.count int) int + replicate (types.count long) long +
      replicate (types.count float) float + replicate (types.count double) double + sign.words := by
  have habsent : ∀ w, namedType? w ≠ none → types.count w = 0 := by
    intro w hw
    exact List.count_eq_zero.2 fun hmem => hw (hnamed w hmem)
  ext w
  rw [Multiset.coe_count]
  cases w with
  | struct tag =>
    rw [habsent _ (by simp [namedType?])]
    cases sign <;> simp [Sign.words, Multiset.count_replicate]
  | typedefName name =>
    rw [habsent _ (by simp [namedType?])]
    cases sign <;> simp [Sign.words, Multiset.count_replicate]
  | signed => simp [hsigned, Multiset.count_replicate]
  | unsigned => simp [hunsigned, Multiset.count_replicate]
  | _ => cases sign <;> simp [Sign.words, Multiset.count_replicate]

/-- At most one word about the sign says one thing. -/
theorem exists_sign (h : types.count .signed + types.count .unsigned ≤ 1) : ∃ sign : Sign,
    types.count .signed = sign.words.count .signed ∧
      types.count .unsigned = sign.words.count .unsigned := by
  by_cases hs : types.count .signed = 1
  · exact ⟨.signed, by simp [hs, Sign.words], by simp [Sign.words]; omega⟩
  · by_cases hu : types.count .unsigned = 1
    · exact ⟨.unsigned, by simp [Sign.words]; omega, by simp [hu, Sign.words]⟩
    · exact ⟨.unsaid, by simp [Sign.words]; omega, by simp [Sign.words]; omega⟩

/-- Words that are taken together go together. -/
theorem names_of_arithmeticType? (hnamed : ∀ w ∈ types, namedType? w = none) (hne : types ≠ [])
    (h : arithmeticType? types = some kind) : Names types (.primitive kind) := by
  unfold arithmeticType? at h
  dsimp only at h
  split at h
  · cases h
  rename_i hlimits
  simp only [Bool.or_eq_true, decide_eq_true_eq, not_or, not_lt] at hlimits
  obtain ⟨hsigns, hints⟩ := hlimits
  obtain ⟨sign, hsigned, hunsigned⟩ := exists_sign hsigns
  have hbag := coe_eq_counts hnamed hsigned hunsigned
  rw [hsigned, hunsigned] at h
  -- one case for each pattern of counts that is accepted, in their order
  split at h
  case h_10 => cases h
  all_goals rename_i hvoid hchar hshort hlong hfloat hdouble
  all_goals simp only [hvoid, hchar, hshort, hlong, hfloat, hdouble, Multiset.replicate_zero,
    Multiset.replicate_one, zero_add, add_zero] at hbag
  all_goals rw [hbag]
  case h_1 =>
    have hsaid : types.count .int = 1 ∨ sign ≠ .unsaid := by
      by_contra hunsaid
      obtain ⟨hint, rfl⟩ : types.count .int = 0 ∧ sign = .unsaid := by
        push Not at hunsaid
        exact ⟨by omega, hunsaid.2⟩
      rw [hint] at hbag
      exact hne (by simpa [Sign.words] using hbag)
    simp only [Sign.count_unsigned_pos, Option.some.injEq] at h
    rw [← h]
    exact .int sign hints hsaid
  case h_3 =>
    split at h
    · rename_i hint
      rw [hint, Multiset.replicate_zero, add_zero]
      cases h
      cases sign
      · exact .char .unsaid
      · exact .char .signed
      · exact .char .unsigned
    · cases h
  case h_4 =>
    simp only [Sign.count_unsigned_pos, Option.some.injEq] at h
    rw [← h]
    exact .short sign hints
  case h_5 =>
    simp only [Sign.count_unsigned_pos, Option.some.injEq] at h
    rw [← h]
    have hnames := Names.long sign le_rfl one_le_two hints
    rwa [Multiset.replicate_one] at hnames
  case h_6 =>
    simp only [Sign.count_unsigned_pos, Option.some.injEq] at h
    rw [← h]
    exact .long sign one_le_two le_rfl hints
  -- what is left are the words that go with neither `int` nor a sign
  all_goals
    split at h
    case isFalse => cases h
    rename_i hbare
    obtain ⟨hint, rfl⟩ : types.count .int = 0 ∧ sign = .unsaid := by
      rw [← Sign.count_eq_zero]
      omega
    cases h
    simp only [hint, Multiset.replicate_zero, Sign.words, add_zero]
  case h_2 => exact .void
  case h_7 => exact .float
  case h_8 =>
    have hnames := Names.double zero_le_one
    rwa [Multiset.replicate_zero, zero_add] at hnames
  case h_9 =>
    have hnames := Names.double le_rfl
    rwa [Multiset.replicate_one] at hnames

theorem namedType?_eq_none {w : TypeSpecifier} (htag : ∀ tag, w ≠ .struct tag)
    (hname : ∀ name, w ≠ .typedefName name) : namedType? w = none := by
  cases w with
  | struct tag => exact absurd rfl (htag tag)
  | typedefName name => exact absurd rfl (hname name)
  | _ => rfl

theorem namedType?_of_mem_words (sign : Sign) : ∀ w ∈ sign.words, namedType? w = none := by
  cases sign <;> simp [Sign.words, namedType?]

/-- Words that go together are either some that combine or a single tag or name. -/
theorem Names.combine_or_alone {bag : Multiset TypeSpecifier} (h : Names bag type) :
    (bag ≠ 0 ∧ (∀ w ∈ bag, namedType? w = none) ∧ ∃ kind, type = .primitive kind) ∨
      ∃ w, bag = {w} ∧ namedType? w = some type := by
  cases h with
  | struct tag => exact .inr ⟨.struct tag, rfl, rfl⟩
  | typedefName name => exact .inr ⟨.typedefName name, rfl, rfl⟩
  | int sign hints hsaid =>
    refine .inl ⟨?_, ?_, _, rfl⟩
    · intro hzero
      rcases hsaid with rfl | hsaid
      · simp at hzero
      · cases sign <;> simp_all [Sign.words]
    · simp +contextual [or_imp, Multiset.mem_replicate, namedType?_eq_none,
        namedType?_of_mem_words sign]
  | long sign hlong =>
    refine .inl ⟨?_, ?_, _, rfl⟩
    · rw [← Multiset.card_pos]
      simp
      omega
    · simp +contextual [or_imp, Multiset.mem_replicate, namedType?_eq_none,
        namedType?_of_mem_words sign]
  | char sign | short sign =>
    refine .inl ⟨by simp, ?_, _, rfl⟩
    simp +contextual [or_imp, Multiset.mem_replicate, namedType?_eq_none,
      namedType?_of_mem_words sign]
  | void | float | double =>
    refine .inl ⟨by simp, ?_, _, rfl⟩
    simp +contextual [or_imp, Multiset.mem_replicate, namedType?_eq_none]

/-- Words that go together are taken together. -/
theorem arithmeticType?_of_names (h : Names types (.primitive kind)) :
    arithmeticType? types = some kind := by
  have hcount : ∀ w, types.count w = (types : Multiset TypeSpecifier).count w := by
    intro w
    rw [Multiset.coe_count]
  generalize (types : Multiset TypeSpecifier) = bag at h hcount
  unfold arithmeticType?
  simp only [hcount]
  cases h with
  | char sign => cases sign <;> rfl
  | @short sign ints hints =>
    interval_cases ints <;> cases sign <;> rfl
  | @long sign longs ints hlong hlongs hints =>
    interval_cases longs <;> interval_cases ints <;> cases sign <;> rfl
  | @int sign ints hints hsaid =>
    interval_cases ints <;> cases sign <;> rfl
  | @double longs hlongs => interval_cases longs <;> rfl
  | _ => rfl

/-- The type has no sign exactly where one of the words says so. -/
theorem Names.isUnsigned_iff {bag : Multiset TypeSpecifier} (h : Names bag type) :
    type.isUnsigned = true ↔ .unsigned ∈ bag := by
  have hsign : ∀ sign : Sign, sign = .unsigned ↔ .unsigned ∈ sign.words := by
    intro sign
    cases sign <;> decide
  cases h with
  | char sign =>
    simp only [Multiset.mem_add, Multiset.mem_singleton, reduceCtorEq, false_or, ← hsign]
    cases sign <;> decide
  | short sign | long sign | int sign =>
    simp only [Multiset.mem_add, Multiset.mem_singleton, Multiset.mem_replicate, reduceCtorEq,
      and_false, false_or, ← hsign]
    cases sign <;> decide
  | _ => simp [CType.isUnsigned, PrimitiveType.isUnsigned, CType.void, Multiset.mem_replicate]

end TypeSpecifier

/-! ## The base type -/

namespace DeclarationSpecifier

open TypeSpecifier (Names)

variable {specifiers : List DeclarationSpecifier} {type : CType}

theorem baseType_eq_ok_iff :
    baseType specifiers = .ok type ↔ Names (specifiers.filterMap type?) type := by
  unfold baseType
  generalize specifiers.filterMap type? = types
  constructor
  · intro h
    dsimp only at h
    split at h
    · rename_i hnamed
      rw [List.filterMap_eq_nil_iff] at hnamed
      split at h
      · cases h
      rename_i hne
      split at h
      · rename_i kind hkind
        cases h
        exact TypeSpecifier.names_of_arithmeticType? hnamed (by simpa using hne) hkind
      · cases h
    · rename_i named hnamed
      split at h
      · rename_i hlength
        cases h
        obtain ⟨w, rfl⟩ := List.length_eq_one_iff.1 hlength
        cases w
        case struct tag =>
          cases hnamed
          exact .struct tag
        case typedefName name =>
          cases hnamed
          exact .typedefName name
        all_goals cases hnamed
      · cases h
    · cases h
  · intro h
    rcases h.combine_or_alone with ⟨hne, hnamed, kind, rfl⟩ | ⟨w, hw, hnamed⟩
    · have hfilter : types.filterMap TypeSpecifier.namedType? = [] :=
        List.filterMap_eq_nil_iff.2 hnamed
      have hempty : types.isEmpty = false := by
        simpa using hne
      simp [hfilter, hempty, TypeSpecifier.arithmeticType?_of_names h, pure, Except.pure]
    · rw [Multiset.coe_eq_singleton] at hw
      simp [hw, hnamed, pure, Except.pure]

theorem resolve_eq_ok_iff {location : Location} :
    resolve specifiers location = .ok type ↔ Names (specifiers.filterMap type?) type := by
  rw [← baseType_eq_ok_iff]
  unfold resolve
  cases baseType specifiers with
  | ok base => simp [pure, Except.pure]
  | error fault => cases fault <;> simp [throw, throwThe, MonadExceptOf.throw]

/-- Specifiers, in whatever order, are accepted exactly where their type specifiers go together, and
then for the type that these name; the other words change nothing. -/
theorem resolve_names (specifiers : List DeclarationSpecifier) (location : Location) :
    (∀ type, resolve specifiers location = .ok type ↔ Names (specifiers.filterMap type?) type) ∧
    (∀ type, resolve specifiers location = .ok type →
      (type.isUnsigned = true ↔ .type .unsigned ∈ specifiers)) ∧
    (∀ others, others.Perm specifiers → ∀ type,
      resolve others location = .ok type ↔ resolve specifiers location = .ok type) ∧
    ∀ before word after, specifiers = before ++ word :: after → type? word = none → ∀ type,
      resolve (before ++ after) location = .ok type ↔ resolve specifiers location = .ok type := by
  -- what is accepted depends on the bag of type specifiers alone
  have hsame : ∀ others : List DeclarationSpecifier,
      (others.filterMap type?).Perm (specifiers.filterMap type?) → ∀ type,
      (resolve others location = .ok type ↔ resolve specifiers location = .ok type) := by
    intro others hperm type
    rw [resolve_eq_ok_iff, resolve_eq_ok_iff, Multiset.coe_eq_coe.2 hperm]
  refine ⟨fun type => resolve_eq_ok_iff, ?_, ?_, ?_⟩
  · intro type h
    rw [(resolve_eq_ok_iff.1 h).isUnsigned_iff, Multiset.mem_coe, List.mem_filterMap]
    constructor
    · rintro ⟨specifier, hmem, hspecifier⟩
      cases specifier with
      | type w => exact Option.some.inj hspecifier ▸ hmem
      | _ => cases hspecifier
    · intro hmem
      exact ⟨_, hmem, rfl⟩
  · intro others hperm
    exact hsame others (hperm.filterMap type?)
  · intro before word after hsplit hword
    apply hsame
    rw [hsplit, List.filterMap_append, List.filterMap_append, List.filterMap_cons_none hword]

/-- `long static unsigned int` is `unsigned long`, and so it is in another order and without `static`. -/
theorem resolve_names_unsigned_long :
    let words : List DeclarationSpecifier :=
      [.type .long, .storage .static, .type .unsigned, .type .int]
    let location : Location := ⟨"long.c", 1, 1⟩
    resolve words location = .ok (.primitive .unsignedLong) ∧
      (CType.primitive .unsignedLong).isUnsigned = true ∧
      resolve [.storage .static, .type .unsigned, .type .long, .type .int] location =
        .ok (.primitive .unsignedLong) ∧
      resolve [.type .long, .type .unsigned, .type .int] location = .ok (.primitive .unsignedLong) := by
  intro words location
  obtain ⟨hnames, hsign, hperm, hword⟩ := resolve_names words location
  have h : resolve words location = .ok (.primitive .unsignedLong) := by
    have hbag : ((words.filterMap type? : List TypeSpecifier) : Multiset TypeSpecifier) =
        Multiset.replicate 1 .int + Multiset.replicate 1 .long + Sign.unsigned.words := by
      decide
    rw [hnames, hbag]
    exact .long .unsigned le_rfl one_le_two le_rfl
  refine ⟨h, (hsign _ h).2 (by decide), (hperm _ (by decide) _).2 h, ?_⟩
  exact (hword [.type .long] (.storage .static) [.type .unsigned, .type .int] rfl rfl _).2 h

end DeclarationSpecifier

end ManagedC
