import ManagedC.Json

/-!
# Records and alternatives in JSON

A record is written as an object with a member for each field, or as an array of its fields in
order. An alternative is written as its name, or as an object whose only member is the name with a
payload. A document nests at most `maxNesting` arrays and objects among the parts that are read;
readers of typed data carry the number of levels that are left and spend one on each array or
object they enter.
-/

namespace ManagedC.Json

/-- How many arrays and objects may be open at once. -/
def maxNesting : Nat := 127

/-- A field of a record. -/
structure Field where
  /-- The key of the field. -/
  key : String
  /-- Whether the field may be left out even where the record is written as an array. -/
  hasDefault : Bool

/-- A field that is always written. -/
def field (key : String) : Field := ⟨key, false⟩

/-- A field that takes a default where it is left out. -/
def optionalField (key : String) : Field := ⟨key, true⟩

/-- The only member with a key: `some none` if there is none, `none` if there are several. -/
def onlyMember? (key : String) (members : List (Option String × Json)) : Option (Option Json) :=
  match members.filter fun m => m.1 == some key with
  | [] => some none
  | [m] => some (some m.2)
  | _ => none

/-- The fields of a record written as an array. -/
def positional? : List Field → List Json → Option (List (Option Json))
  | [], [] => some []
  | [], _ :: _ => none
  | f :: fs, [] => if f.hasDefault then (positional? fs []).map (none :: ·) else none
  | _ :: fs, e :: es => (positional? fs es).map (some e :: ·)

/-- What a document says about each field of a record, in the order of the fields; `some none` for a
field that is left out. Members that are not fields are ignored, but their keys must be texts. -/
def fields? (fields : List Field) : Json → Option (List (Option Json))
  | .obj members =>
    if members.all (·.1.isSome) then fields.mapM fun f => onlyMember? f.key members else none
  | .arr elements => positional? fields elements
  | _ => none

/-- The name of an alternative and its payload, if it is written with one. -/
def variant? : Json → Option (String × Option Json)
  | .str (some name) => some (name, none)
  | .obj [(some name, payload)] => some (name, some payload)
  | _ => none

/-- Whether an alternative without a payload may be written with this one. -/
def isNoPayload : Option Json → Bool
  | none => true
  | some .null => true
  | some _ => false

/-- A text. -/
def text? : Json → Option String
  | .str text => text
  | _ => none

/-- A truth value. -/
def bool? : Json → Option Bool
  | .bool value => some value
  | _ => none

/-- An integer at least `lo` and below `hi`. -/
def intWithin? (lo hi : Int) : Json → Option Int
  | .int value => if lo ≤ value && value < hi then some value else none
  | _ => none

/-- A number below `bound`. -/
def natBelow? (bound : Nat) (j : Json) : Option Nat := (intWithin? 0 bound j).map Int.toNat

/-- A number that counts or indexes things, of 64 bits. -/
def index? (j : Json) : Option Nat := natBelow? (2 ^ 64) j

/-- A signed number of 32 bits. -/
def int32? (j : Json) : Option Int32 := (intWithin? (-(2 ^ 31)) (2 ^ 31) j).map Int32.ofInt

/-- A signed number of 64 bits. -/
def int64? (j : Json) : Option Int64 := (intWithin? (-(2 ^ 63)) (2 ^ 63) j).map Int64.ofInt

/-- The elements of an array. -/
def elements? : Json → Option (List Json)
  | .arr elements => some elements
  | _ => none

/-- A value that may be `null`. -/
def nullable? {α : Type} (read : Json → Option α) : Json → Option (Option α)
  | .null => some none
  | j => (read j).map some

/-- A field that stands for nothing where it is left out or `null`. -/
def optional? {α : Type} (read : Json → Option α) : Option Json → Option (Option α)
  | none => some none
  | some j => nullable? read j

/-- A field with a default for where it is left out. -/
def withDefault? {α : Type} (read : Json → Option α) (default : α) : Option Json → Option α
  | none => some default
  | some j => read j

/-- An array whose elements are read with one level less than `levels`. -/
def list? {α : Type} (read : Nat → Json → Option α) : Nat → Json → Option (List α)
  | levels + 1, .arr elements => elements.mapM (read levels)
  | _, _ => none

/-- The alternative of a closed list that a document names. -/
def named? {α : Type} (name : α → String) (all : List α) (levels : Nat) (j : Json) : Option α := do
  let (spelled, payload) ← variant? j
  if isNoPayload payload && (payload.isNone || 0 < levels) then
    all.find? fun a => name a == spelled
  else none

end ManagedC.Json
