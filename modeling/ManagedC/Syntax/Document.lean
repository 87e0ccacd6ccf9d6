import ManagedC.Json.Printer
import ManagedC.Json.Reader
import ManagedC.Syntax.Statement

/-!
# Documents of syntax trees

Source files are exchanged as JSON documents of their syntax trees. Each kind of node has a writer
`toJson` and a reader `ofJson?`; a reader takes the number of nesting levels that are left and
recurses on it. A missing span is the unknown span, and the other fields that may be missing are
lists and flags, which are then empty and false.
-/

namespace ManagedC

open Json (field optionalField)

namespace BinaryOp

/-- The document of a binary operator. -/
def toJson (op : BinaryOp) : Json := .ofText op.name

/-- The binary operator that a document names. -/
def ofJson? : Nat → Json → Option BinaryOp := Json.named? name all

end BinaryOp

namespace UnaryOp

/-- The document of a unary operator. -/
def toJson (op : UnaryOp) : Json := .ofText op.name

/-- The unary operator that a document names. -/
def ofJson? : Nat → Json → Option UnaryOp := Json.named? name all

end UnaryOp

namespace Expression

/-- The document of a node with the given kind and span. -/
def node (name : String) (payload : Json) (span : Span) : Json :=
  .record [("kind", .variant name payload), ("span", span.toJson)]

mutual

/-- The document of an expression. -/
def toJson : Expression → Json
  | .intLiteral span value => node "IntLiteral" (.int value.toInt) span
  | .identifier span name => node "Identifier" (.ofText name) span
  | .binary span op left right =>
    node "Binary" (.record [("op", op.toJson), ("left", left.toJson), ("right", right.toJson)]) span
  | .unary span op operand =>
    node "Unary" (.record [("op", op.toJson), ("operand", operand.toJson)]) span
  | .assignment span op target value =>
    node "Assignment" (.record [("op", (op.map BinaryOp.toJson).getD .null),
      ("target", target.toJson), ("value", value.toJson)]) span
  | .call span function arguments =>
    node "Call" (.record [("function", function.toJson),
      ("arguments", .arr (listToJson arguments))]) span
  | .subscript span array index =>
    node "Index" (.record [("array", array.toJson), ("index", index.toJson)]) span

/-- The documents of expressions. -/
def listToJson : List Expression → List Json
  | [] => []
  | e :: es => e.toJson :: listToJson es

end

mutual

/-- The expression that a document describes. -/
def ofJson? : Nat → Json → Option Expression
  | 0, _ => none
  | levels + 1, j =>
    match Json.fields? [field "kind", optionalField "span"] j with
    | some [some kind, span] => do ofKind? levels kind (← Span.ofField? levels span)
    | _ => none

/-- The expression with a given span whose other parts a document describes. -/
def ofKind? : Nat → Json → Span → Option Expression
  | 0, _, _ => none
  | levels + 1, j, span =>
    match Json.variant? j with
    | some ("IntLiteral", some payload) => payload.int64?.map (.intLiteral span ·)
    | some ("Identifier", some payload) => payload.text?.map (.identifier span ·)
    | some (name, some payload) =>
      match levels with
      | 0 => none
      | levels + 1 =>
        match name with
        | "Binary" =>
          match Json.fields? [field "op", field "left", field "right"] payload with
          | some [some op, some left, some right] => do
            return .binary span (← BinaryOp.ofJson? levels op) (← ofJson? levels left)
              (← ofJson? levels right)
          | _ => none
        | "Unary" =>
          match Json.fields? [field "op", field "operand"] payload with
          | some [some op, some operand] => do
            return .unary span (← UnaryOp.ofJson? levels op) (← ofJson? levels operand)
          | _ => none
        | "Assignment" =>
          match Json.fields? [field "op", field "target", field "value"] payload with
          | some [op, some target, some value] => do
            return .assignment span (← Json.optional? (BinaryOp.ofJson? levels) op)
              (← ofJson? levels target) (← ofJson? levels value)
          | _ => none
        | "Call" =>
          match Json.fields? [field "function", field "arguments"] payload with
          | some [some function, some (.arr arguments)] =>
            match levels with
            | 0 => none
            | below + 1 => do
              return .call span (← ofJson? (below + 1) function)
                (← arguments.mapM fun a => ofJson? below a)
          | _ => none
        | "Index" =>
          match Json.fields? [field "array", field "index"] payload with
          | some [some array, some index] => do
            return .subscript span (← ofJson? levels array) (← ofJson? levels index)
          | _ => none
        | _ => none
    | _ => none

end

end Expression

namespace StorageClass

/-- The document of a storage class. -/
def toJson (storage : StorageClass) : Json := .ofText storage.name

/-- The storage class that a document names. -/
def ofJson? : Nat → Json → Option StorageClass := Json.named? name all

end StorageClass

namespace TypeQualifier

/-- The document of a qualifier. -/
def toJson (qualifier : TypeQualifier) : Json := .ofText qualifier.name

/-- The qualifier that a document names. -/
def ofJson? : Nat → Json → Option TypeQualifier := Json.named? name all

end TypeQualifier

namespace TypeSpecifier

/-- The document of a type specifier. -/
def toJson : TypeSpecifier → Json
  | .struct tag => .variant "Struct" (.ofText tag)
  | .typedefName name => .variant "TypedefName" (.ofText name)
  | specifier => .ofText specifier.name

/-- The type specifier that a document describes. -/
def ofJson? (levels : Nat) (j : Json) : Option TypeSpecifier :=
  match Json.variant? j, levels with
  | some ("Struct", some payload), _ + 1 => payload.text?.map .struct
  | some ("TypedefName", some payload), _ + 1 => payload.text?.map .typedefName
  | _, _ => Json.named? name words levels j

end TypeSpecifier

namespace DeclarationSpecifier

/-- The document of a specifier. -/
def toJson : DeclarationSpecifier → Json
  | .storage s => .variant "StorageClass" s.toJson
  | .type t => .variant "TypeSpecifier" t.toJson
  | .qualifier q => .variant "TypeQualifier" q.toJson
  | .inlined => .ofText "Inline"

/-- The specifier that a document describes. -/
def ofJson? (levels : Nat) (j : Json) : Option DeclarationSpecifier :=
  match Json.variant? j, levels with
  | some ("StorageClass", some payload), levels + 1 =>
    (StorageClass.ofJson? levels payload).map .storage
  | some ("TypeSpecifier", some payload), levels + 1 =>
    (TypeSpecifier.ofJson? levels payload).map .type
  | some ("TypeQualifier", some payload), levels + 1 =>
    (TypeQualifier.ofJson? levels payload).map .qualifier
  | _, _ => (Json.named? id ["Inline"] levels j).map fun _ => .inlined

end DeclarationSpecifier

mutual

/-- The document of a declarator. -/
def Declarator.toJson : Declarator → Json
  | .mk pointers direct span =>
    .record [("pointers", .arr (pointers.map fun qs => .arr (qs.map TypeQualifier.toJson))),
      ("direct", direct.toJson), ("span", span.toJson)]

/-- The document of a direct declarator. -/
def DirectDeclarator.toJson : DirectDeclarator → Json
  | .identifier name => .variant "Identifier" (.ofText name)
  | .unnamed => .ofText "Abstract"
  | .array inner size =>
    .variant "Array" (.record [("inner", inner.toJson),
      ("size", (size.map fun n => Json.ofNat n.toNat).getD .null)])
  | .function inner none =>
    .variant "Function" (.record [("inner", inner.toJson), ("parameters", .null)])
  | .function inner (some parameters) =>
    .variant "Function" (.record [("inner", inner.toJson), ("parameters", parameters.toJson)])

/-- The document of a parameter list. -/
def ParameterList.toJson : ParameterList → Json
  | .mk parameters hasEllipsis =>
    .record [("parameters", .arr (ParameterDeclaration.listToJson parameters)),
      ("has_ellipsis", .bool hasEllipsis)]

/-- The document of a parameter declaration. -/
def ParameterDeclaration.toJson : ParameterDeclaration → Json
  | .mk specifiers none =>
    .record [("specifiers", .arr (specifiers.map DeclarationSpecifier.toJson)),
      ("declarator", .null)]
  | .mk specifiers (some declarator) =>
    .record [("specifiers", .arr (specifiers.map DeclarationSpecifier.toJson)),
      ("declarator", declarator.toJson)]

/-- The documents of parameter declarations. -/
def ParameterDeclaration.listToJson : List ParameterDeclaration → List Json
  | [] => []
  | p :: ps => p.toJson :: ParameterDeclaration.listToJson ps

end

mutual

/-- The declarator that a document describes. -/
def Declarator.ofJson? : Nat → Json → Option Declarator
  | 0, _ => none
  | levels + 1, j =>
    match Json.fields? [optionalField "pointers", field "direct", optionalField "span"] j with
    | some [pointers, some direct, span] => do
      return .mk
        (← Json.withDefault? (Json.list? (Json.list? TypeQualifier.ofJson?) levels) [] pointers)
        (← DirectDeclarator.ofJson? levels direct) (← Span.ofField? levels span)
    | _ => none

/-- The direct declarator that a document describes. -/
def DirectDeclarator.ofJson? : Nat → Json → Option DirectDeclarator
  | 0, j => (Json.named? id ["Abstract"] 0 j).map fun _ => .unnamed
  | levels + 1, j =>
    match Json.variant? j with
    | some ("Abstract", payload) => if Json.isNoPayload payload then some .unnamed else none
    | some ("Identifier", some payload) => payload.text?.map .identifier
    | some (name, some payload) =>
      match levels with
      | 0 => none
      | levels + 1 =>
        match name with
        | "Array" =>
          match Json.fields? [field "inner", field "size"] payload with
          | some [some inner, size] => do
            return .array (← DirectDeclarator.ofJson? levels inner)
              (← Json.optional? (fun n => (Json.index? n).map UInt64.ofNat) size)
          | _ => none
        | "Function" =>
          match Json.fields? [field "inner", field "parameters"] payload with
          | some [some inner, parameters] => do
            return .function (← DirectDeclarator.ofJson? levels inner)
              (← Json.optional? (fun j => ParameterList.ofJson? levels j) parameters)
          | _ => none
        | _ => none
    | _ => none

/-- The parameter list that a document describes. -/
def ParameterList.ofJson? : Nat → Json → Option ParameterList
  | 0, _ => none
  | levels + 1, j =>
    match Json.fields? [field "parameters", optionalField "has_ellipsis"] j with
    | some [some (.arr parameters), hasEllipsis] =>
      match levels with
      | 0 => none
      | levels + 1 => do
        return .mk (← parameters.mapM fun p => ParameterDeclaration.ofJson? levels p)
          (← Json.withDefault? Json.bool? false hasEllipsis)
    | _ => none

/-- The parameter declaration that a document describes. -/
def ParameterDeclaration.ofJson? : Nat → Json → Option ParameterDeclaration
  | 0, _ => none
  | levels + 1, j =>
    match Json.fields? [field "specifiers", field "declarator"] j with
    | some [some specifiers, declarator] => do
      return .mk (← Json.list? DeclarationSpecifier.ofJson? levels specifiers)
        (← Json.optional? (fun j => Declarator.ofJson? levels j) declarator)
    | _ => none

end

namespace InitDeclarator

/-- The document of a declarator with an initial value. -/
def toJson (d : InitDeclarator) : Json :=
  .record [("declarator", d.declarator.toJson),
    ("initializer", (d.initializer.map Expression.toJson).getD .null)]

/-- The declarator with an initial value that a document describes. -/
def ofJson? : Nat → Json → Option InitDeclarator
  | 0, _ => none
  | levels + 1, j =>
    match Json.fields? [field "declarator", field "initializer"] j with
    | some [some declarator, initializer] => do
      return ⟨← Declarator.ofJson? levels declarator,
        ← Json.optional? (Expression.ofJson? levels) initializer⟩
    | _ => none

end InitDeclarator

namespace Declaration

/-- The document of a declaration. -/
def toJson (d : Declaration) : Json :=
  .record [("specifiers", .arr (d.specifiers.map DeclarationSpecifier.toJson)),
    ("declarators", .arr (d.declarators.map InitDeclarator.toJson)), ("span", d.span.toJson)]

/-- The declaration that a document describes. -/
def ofJson? : Nat → Json → Option Declaration
  | 0, _ => none
  | levels + 1, j =>
    match Json.fields? [field "specifiers", field "declarators", optionalField "span"] j with
    | some [some specifiers, some declarators, span] => do
      return ⟨← Json.list? DeclarationSpecifier.ofJson? levels specifiers,
        ← Json.list? InitDeclarator.ofJson? levels declarators, ← Span.ofField? levels span⟩
    | _ => none

end Declaration

namespace Statement

mutual

/-- The document of a statement. -/
def toJson : Statement → Json
  | .expression span e => Expression.node "Expression" e.toJson span
  | .compound span statements =>
    Expression.node "Compound" (.arr (listToJson statements)) span
  | .declaration span d => Expression.node "Declaration" d.toJson span
  | .conditional span condition thenBranch none =>
    Expression.node "If" (.record [("condition", condition.toJson),
      ("then_stmt", thenBranch.toJson), ("else_stmt", .null)]) span
  | .conditional span condition thenBranch (some elseBranch) =>
    Expression.node "If" (.record [("condition", condition.toJson),
      ("then_stmt", thenBranch.toJson), ("else_stmt", elseBranch.toJson)]) span
  | .whileLoop span condition body =>
    Expression.node "While" (.record [("condition", condition.toJson), ("body", body.toJson)]) span
  | .doWhileLoop span body condition =>
    Expression.node "DoWhile" (.record [("body", body.toJson),
      ("condition", condition.toJson)]) span
  | .forLoop span none condition update body =>
    Expression.node "For" (.record [("init", .null),
      ("condition", (condition.map Expression.toJson).getD .null),
      ("update", (update.map Expression.toJson).getD .null), ("body", body.toJson)]) span
  | .forLoop span (some start) condition update body =>
    Expression.node "For" (.record [("init", start.toJson),
      ("condition", (condition.map Expression.toJson).getD .null),
      ("update", (update.map Expression.toJson).getD .null), ("body", body.toJson)]) span
  | .switch span e body =>
    Expression.node "Switch" (.record [("expression", e.toJson), ("body", body.toJson)]) span
  | .labeled span label statement =>
    Expression.node "Labeled" (.record [("label", .ofText label),
      ("statement", statement.toJson)]) span
  | .goto span label => Expression.node "Goto" (.ofText label) span
  | .exitLoop span => .record [("kind", .ofText "Break"), ("span", span.toJson)]
  | .nextRound span => .record [("kind", .ofText "Continue"), ("span", span.toJson)]
  | .ret span value =>
    Expression.node "Return" ((value.map Expression.toJson).getD .null) span
  | .empty span => .record [("kind", .ofText "Empty"), ("span", span.toJson)]

/-- The documents of statements. -/
def listToJson : List Statement → List Json
  | [] => []
  | s :: ss => s.toJson :: listToJson ss

end

/-- The statement without parts that a name stands for. -/
def ofWord? (span : Span) : String → Option Statement
  | "Break" => some (.exitLoop span)
  | "Continue" => some (.nextRound span)
  | "Empty" => some (.empty span)
  | _ => none

mutual

/-- The statement that a document describes. -/
def ofJson? : Nat → Json → Option Statement
  | 0, _ => none
  | levels + 1, j =>
    match Json.fields? [field "kind", optionalField "span"] j with
    | some [some kind, span] => do ofKind? levels kind (← Span.ofField? levels span)
    | _ => none

/-- The statement with a given span whose other parts a document describes. -/
def ofKind? : Nat → Json → Span → Option Statement
  | 0, .str (some name), span => ofWord? span name
  | 0, _, _ => none
  | levels + 1, j, span =>
    match Json.variant? j with
    | some (name, none) => ofWord? span name
    | some ("Expression", some payload) =>
      (Expression.ofJson? levels payload).map (.expression span ·)
    | some ("Declaration", some payload) =>
      (Declaration.ofJson? levels payload).map (.declaration span ·)
    | some ("Goto", some payload) => payload.text?.map (.goto span ·)
    | some ("Return", some payload) =>
      (Json.nullable? (Expression.ofJson? levels) payload).map (.ret span ·)
    | some (name, some .null) => ofWord? span name
    | some ("Compound", some (.arr statements)) =>
      match levels with
      | 0 => none
      | levels + 1 => (statements.mapM fun s => ofJson? levels s).map (.compound span ·)
    | some (name, some payload) =>
      match levels with
      | 0 => none
      | levels + 1 =>
        match name with
        | "If" =>
          match Json.fields? [field "condition", field "then_stmt", field "else_stmt"] payload with
          | some [some condition, some thenBranch, elseBranch] => do
            return .conditional span (← Expression.ofJson? levels condition)
              (← ofJson? levels thenBranch)
              (← Json.optional? (fun j => ofJson? levels j) elseBranch)
          | _ => none
        | "While" =>
          match Json.fields? [field "condition", field "body"] payload with
          | some [some condition, some body] => do
            return .whileLoop span (← Expression.ofJson? levels condition) (← ofJson? levels body)
          | _ => none
        | "DoWhile" =>
          match Json.fields? [field "body", field "condition"] payload with
          | some [some body, some condition] => do
            return .doWhileLoop span (← ofJson? levels body) (← Expression.ofJson? levels condition)
          | _ => none
        | "For" =>
          match Json.fields? [field "init", field "condition", field "update", field "body"]
            payload with
          | some [start, condition, update, some body] => do
            return .forLoop span (← Json.optional? (fun j => ofJson? levels j) start)
              (← Json.optional? (Expression.ofJson? levels) condition)
              (← Json.optional? (Expression.ofJson? levels) update) (← ofJson? levels body)
          | _ => none
        | "Switch" =>
          match Json.fields? [field "expression", field "body"] payload with
          | some [some e, some body] => do
            return .switch span (← Expression.ofJson? levels e) (← ofJson? levels body)
          | _ => none
        | "Labeled" =>
          match Json.fields? [field "label", field "statement"] payload with
          | some [some label, some statement] => do
            return .labeled span (← label.text?) (← ofJson? levels statement)
          | _ => none
        | _ => none
    | none => none

end

end Statement

namespace FunctionDefinition

/-- The document of a function definition. -/
def toJson (f : FunctionDefinition) : Json :=
  .record [("specifiers", .arr (f.specifiers.map DeclarationSpecifier.toJson)),
    ("declarator", f.declarator.toJson),
    ("declarations", .arr (f.declarations.map Declaration.toJson)), ("body", f.body.toJson),
    ("span", f.span.toJson)]

/-- The function definition that a document describes. -/
def ofJson? : Nat → Json → Option FunctionDefinition
  | 0, _ => none
  | levels + 1, j =>
    match Json.fields? [field "specifiers", field "declarator", optionalField "declarations",
        field "body", optionalField "span"] j with
    | some [some specifiers, some declarator, declarations, some body, span] => do
      return ⟨← Json.list? DeclarationSpecifier.ofJson? levels specifiers,
        ← Declarator.ofJson? levels declarator,
        ← Json.withDefault? (Json.list? Declaration.ofJson? levels) [] declarations,
        ← Statement.ofJson? levels body, ← Span.ofField? levels span⟩
    | _ => none

end FunctionDefinition

namespace TranslationUnit

/-- The document of a unit. -/
def toJson (u : TranslationUnit) : Json :=
  .record [("functions", .arr (u.functions.map FunctionDefinition.toJson))]

/-- The unit that a document describes. -/
def ofJson? : Nat → Json → Option TranslationUnit
  | 0, _ => none
  | levels + 1, j =>
    match Json.fields? [field "functions"] j with
    | some [some functions] => do
      return ⟨← Json.list? FunctionDefinition.ofJson? levels functions⟩
    | _ => none

/-- The unit written by a text. -/
def parse? (text : String) : Option TranslationUnit :=
  (Json.parse? text).bind (ofJson? Json.maxNesting)

/-- The text of a unit. -/
def print (u : TranslationUnit) : String := u.toJson.pretty

end TranslationUnit

end ManagedC
