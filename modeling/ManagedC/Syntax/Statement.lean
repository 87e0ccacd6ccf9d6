import ManagedC.Syntax.Declaration

/-!
# Statements and functions

The body of a function as it is written. Statements that the compiler does not handle, such as
`switch`, are statements all the same; they are refused later.
-/

namespace ManagedC

/-- A statement. -/
inductive Statement where
  /-- An expression whose value is dropped. -/
  | expression (span : Span) (expression : Expression)
  /-- A block. -/
  | compound (span : Span) (statements : List Statement)
  /-- A declaration of local variables. -/
  | declaration (span : Span) (declaration : Declaration)
  /-- A choice. -/
  | conditional (span : Span) (condition : Expression) (thenBranch : Statement)
      (elseBranch : Option Statement)
  /-- A loop that tests before its body. -/
  | whileLoop (span : Span) (condition : Expression) (body : Statement)
  /-- A loop that tests after its body. -/
  | doWhileLoop (span : Span) (body : Statement) (condition : Expression)
  /-- A loop with a start, a test and an update, each of which may be missing. -/
  | forLoop (span : Span) (start : Option Statement) (condition update : Option Expression)
      (body : Statement)
  /-- A choice among labels. -/
  | switch (span : Span) (expression : Expression) (body : Statement)
  /-- A statement with a label. -/
  | labeled (span : Span) (label : String) (statement : Statement)
  /-- A jump to a label. -/
  | goto (span : Span) (label : String)
  /-- The end of the innermost loop. -/
  | exitLoop (span : Span)
  /-- The end of this round of the innermost loop. -/
  | nextRound (span : Span)
  /-- The end of the function, perhaps with a value. -/
  | ret (span : Span) (value : Option Expression)
  /-- Nothing. -/
  | empty (span : Span)
  deriving Inhabited

namespace Statement

/-- The source text of a statement. -/
def span : Statement → Span
  | .expression span _ => span
  | .compound span _ => span
  | .declaration span _ => span
  | .conditional span _ _ _ => span
  | .whileLoop span _ _ => span
  | .doWhileLoop span _ _ => span
  | .forLoop span _ _ _ _ => span
  | .switch span _ _ => span
  | .labeled span _ _ => span
  | .goto span _ => span
  | .exitLoop span => span
  | .nextRound span => span
  | .ret span _ => span
  | .empty span => span

/-- Where a statement begins, which is the place that errors about it name. -/
def location (s : Statement) : Location := s.span.start

end Statement

/-- The definition of a function. -/
structure FunctionDefinition where
  /-- The words before the declarator. -/
  specifiers : List DeclarationSpecifier
  /-- The name and the parameters. -/
  declarator : Declarator
  /-- Declarations of parameters between the declarator and the body, an old style. -/
  declarations : List Declaration
  /-- The body. -/
  body : Statement
  /-- The source text. -/
  span : Span
  deriving Inhabited

/-- The functions of one file, in order. -/
structure TranslationUnit where
  /-- The definitions. -/
  functions : List FunctionDefinition
  deriving Inhabited

end ManagedC
