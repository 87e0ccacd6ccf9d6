import ManagedC.Proofs.Emit.FunctionCode
import ManagedC.Proofs.Meaning.Numbers

/-!
# What programs mean

The rules of the source language for functions that compute with `int` and `long`. Operands are evaluated
from left to right, and a compound assignment reads its target before its right operand. `Does` says
what the parts of a program do to the variables, one constructor for each rule. A part for which no rule
applies has no meaning: it reads a variable that has no value yet, or an operation on numbers has no
result. What never comes to an end has no meaning either.
-/

namespace ManagedC

/-- The statement has no declaration in a place where only a statement may stand. A declaration stands
among the parts of a block or at the start of a loop. -/
def Body.isStatement : Body → Bool
  | .declare _ => false
  | .conditional _ thenBranch none => thenBranch.isStatement
  | .conditional _ thenBranch (some elseBranch) => thenBranch.isStatement && elseBranch.isStatement
  | .whileLoop _ body | .doWhileLoop body _ | .forLoop _ _ _ body => body.isStatement
  | _ => true

namespace Meaning

/-- A variable. -/
structure Cell where
  /-- The name. -/
  name : String
  /-- The width of its type. -/
  width : Width
  /-- The value, once there is one. -/
  content : Option {n : Number // n.width = width}

/-- The variables of a call, the latest first. -/
abbrev Frame := List Cell

/-- The variable with a number converted to its type as its value. -/
def Cell.store (c : Cell) (n : Number) : Cell := { c with content := some ⟨n.convert c.width, rfl⟩ }

namespace Frame

/-- The value of the latest variable with a name. -/
def read? (f : Frame) (name : String) : Option Number :=
  (f.find? fun c => c.name == name).bind fun c => c.content.map (·.1)

/-- The value that the latest variable with a name takes when a number is assigned to it, and the
variables afterwards. -/
def write? : Frame → String → Number → Option (Number × Frame)
  | [], _, _ => none
  | c :: f, name, n =>
    if c.name == name then some (n.convert c.width, c.store n :: f)
    else (write? f name n).map fun (m, f) => (m, c :: f)

/-- The variables with those that hold the arguments for some parameters. -/
def bind? : Frame → List Parameter → List Number → Option Frame
  | f, [], [] => some f
  | f, p :: ps, n :: ns => do
    let w ← Width.of? p.type
    match p.name with
    | some name => bind? (Cell.store ⟨name, w, none⟩ n :: f) ps ns
    | none => bind? f ps ns
  | _, _, _ => none

end Frame

/-- Whether the left operand of a logical operator decides. -/
def Number.decides (op : LogicalOp) (a : Number) : Bool :=
  match op with
  | .and => !a.isTrue
  | .or => a.isTrue

/-- Where control goes after a statement. -/
inductive Flow where
  /-- To what comes next. -/
  | normal
  /-- Out of the innermost loop. -/
  | exitLoop
  /-- To the next round of the innermost loop. -/
  | nextRound
  /-- Back to the caller, perhaps with a value. -/
  | ret (value : Option Number)

/-- The loop goes on after its body. -/
def Flow.isRound : Flow → Bool
  | .normal | .nextRound => true
  | _ => false

/-- The result of a function whose body is left in a way. The entry function returns zero if control runs
off its end; any other function that has a result must return it. -/
def Flow.result? (flow : Flow) (u : FunctionUnit) : Option (Option Number) :=
  match flow with
  | .ret (some n) => (Width.of? u.returnType).map fun w => some (n.convert w)
  | .ret none => if u.returnType.isVoid then some none else none
  | .normal =>
    if u.isEntry then (Width.of? u.returnType).map fun w => some ((Number.literal 0).convert w)
    else if u.returnType.isVoid then some none
    else none
  | .exitLoop | .nextRound => none

/-- Where the scope of a declared variable begins. -/
inductive Scoping where
  /-- Before its initial value, which sees the variable. -/
  | early
  /-- After its initial value, which does not see the variable. -/
  | late
  deriving DecidableEq

/-- A part of a program, and what comes of it. -/
inductive Deed where
  /-- An expression has a value, or none if it calls a function without a result. -/
  | value (e : Expression) (result : Option Number)
  /-- Arguments have values. -/
  | arguments (es : List Expression) (values : List Number)
  /-- An expression, if there is one, is evaluated, and its value is dropped. -/
  | effect (e : Option Expression)
  /-- A test, if there is one, is passed or not. -/
  | test (e : Option Expression) (passed : Bool)
  /-- Variables are declared. -/
  | declare (locals : List LocalDeclaration)
  /-- A loop is started. -/
  | start (start : Option Body)
  /-- A statement is left in a way. -/
  | statement (body : Body) (flow : Flow)
  /-- The parts of a block are left in a way. -/
  | parts (parts : List Body) (flow : Flow)
  /-- The rounds of a loop from the test on are left in a way. -/
  | rounds (condition update : Option Expression) (body : Body) (flow : Flow)
  /-- A call of a function has a result, or none. -/
  | call (u : FunctionUnit) (arguments : List Number) (result : Option Number)

/-- What the parts of a program do to the variables of a call. -/
inductive Does (us : List FunctionUnit) (scoping : Scoping) : Frame → Deed → Frame → Prop where
  /-- A literal has a value. -/
  | literal {f : Frame} {span : Span} {value : Int64} :
    Does us scoping f (.value (.intLiteral span value) (some (.literal value))) f
  /-- A variable is read, which must have a value. -/
  | read {f : Frame} {span : Span} {name : String} {n : Number} : f.read? name = some n →
    Does us scoping f (.value (.identifier span name) (some n)) f
  /-- A unary operator. -/
  | unary {f g : Frame} {span : Span} {op : UnaryOp} {operand : Expression} {a b : Number} :
    Does us scoping f (.value operand (some a)) g → Number.unary? op a = some b →
    Does us scoping f (.value (.unary span op operand) (some b)) g
  /-- A binary operator that evaluates both operands. -/
  | binary {f g h : Frame} {span : Span} {op : BinaryOp} {left right : Expression} {a b c : Number} :
    Does us scoping f (.value left (some a)) g → Does us scoping g (.value right (some b)) h →
    Number.combine? op a b = some c →
    Does us scoping f (.value (.binary span op left right) (some c)) h
  /-- The left operand of a logical operator decides, and the right one is not evaluated. -/
  | decided {f g : Frame} {span : Span} {op : LogicalOp} {left right : Expression} {a : Number} :
    Does us scoping f (.value left (some a)) g → a.decides op = true →
    Does us scoping f (.value (.binary span (.logical op) left right) (some (.ofBool a.isTrue))) g
  /-- The right operand of a logical operator decides. -/
  | undecided {f g h : Frame} {span : Span} {op : LogicalOp} {left right : Expression} {a b : Number} :
    Does us scoping f (.value left (some a)) g → a.decides op = false →
    Does us scoping g (.value right (some b)) h →
    Does us scoping f (.value (.binary span (.logical op) left right) (some (.ofBool b.isTrue))) h
  /-- An assignment has the value that the variable takes. -/
  | assign {f g h : Frame} {span span' : Span} {name : String} {e : Expression} {a b : Number} :
    Does us scoping f (.value e (some a)) g → g.write? name a = some (b, h) →
    Does us scoping f (.value (.assignment span none (.identifier span' name) e) (some b)) h
  /-- A compound assignment reads the variable first. -/
  | update {f g h : Frame} {span span' : Span} {op : BinaryOp} {name : String} {e : Expression}
      {a b c d : Number} :
    f.read? name = some a → Does us scoping f (.value e (some b)) g →
    Number.combine? op a b = some c → g.write? name c = some (d, h) →
    Does us scoping f (.value (.assignment span (some op) (.identifier span' name) e) (some d)) h
  /-- A call has the result of the function. -/
  | calls {f g : Frame} {span span' : Span} {name : String} {es : List Expression} {u : FunctionUnit}
      {ns : List Number} {result : Option Number} :
    us.find? (fun u => u.name == name) = some u → Does us scoping f (.arguments es ns) g →
    Does us scoping [] (.call u ns result) [] →
    Does us scoping f (.value (.call span (.identifier span' name) es) result) g
  /-- No arguments are left. -/
  | noArguments {f : Frame} : Does us scoping f (.arguments [] []) f
  /-- An argument, and those after it. -/
  | argument {f g h : Frame} {e : Expression} {es : List Expression} {n : Number} {ns : List Number} :
    Does us scoping f (.value e (some n)) g → Does us scoping g (.arguments es ns) h →
    Does us scoping f (.arguments (e :: es) (n :: ns)) h
  /-- There is no expression. -/
  | noEffect {f : Frame} : Does us scoping f (.effect none) f
  /-- There is one. -/
  | effect {f g : Frame} {e : Expression} {result : Option Number} :
    Does us scoping f (.value e result) g → Does us scoping f (.effect (some e)) g
  /-- A test that is missing is passed. -/
  | noTest {f : Frame} : Does us scoping f (.test none true) f
  /-- A test is passed if its value counts as true. -/
  | test {f g : Frame} {e : Expression} {n : Number} : Does us scoping f (.value e (some n)) g →
    Does us scoping f (.test (some e) n.isTrue) g
  /-- No declarations are left. -/
  | noLocals {f : Frame} : Does us scoping f (.declare []) f
  /-- A variable without an initial value. -/
  | plain {f g : Frame} {d : LocalDeclaration} {ds : List LocalDeclaration} {w : Width} :
    d.initializer = none → Width.of? d.type = some w →
    Does us scoping (⟨d.name, w, none⟩ :: f) (.declare ds) g →
    Does us scoping f (.declare (d :: ds)) g
  /-- A variable whose initial value sees it. -/
  | seen {f g h : Frame} {d : LocalDeclaration} {ds : List LocalDeclaration} {w : Width}
      {e : Expression} {n : Number} {c : Cell} :
    scoping = .early → d.initializer = some e → Width.of? d.type = some w →
    Does us scoping (⟨d.name, w, none⟩ :: f) (.value e (some n)) (c :: g) →
    Does us scoping (Cell.store ⟨d.name, w, none⟩ n :: g) (.declare ds) h →
    Does us scoping f (.declare (d :: ds)) h
  /-- A variable whose initial value does not see it. -/
  | unseen {f g h : Frame} {d : LocalDeclaration} {ds : List LocalDeclaration} {w : Width}
      {e : Expression} {n : Number} :
    scoping = .late → d.initializer = some e → Width.of? d.type = some w →
    Does us scoping f (.value e (some n)) g →
    Does us scoping (Cell.store ⟨d.name, w, none⟩ n :: g) (.declare ds) h →
    Does us scoping f (.declare (d :: ds)) h
  /-- A loop may do without a start. -/
  | noStart {f : Frame} : Does us scoping f (.start none) f
  /-- A loop is started with an expression. -/
  | startEffect {f g : Frame} {e : Expression} : Does us scoping f (.effect (some e)) g →
    Does us scoping f (.start (some (.expression e))) g
  /-- A loop is started with declarations. -/
  | startDeclare {f g : Frame} {ds : List LocalDeclaration} : Does us scoping f (.declare ds) g →
    Does us scoping f (.start (some (.declare ds))) g
  /-- What is declared in a block is gone after it. -/
  | block {f g i : Frame} {parts : List Body} {flow : Flow} :
    Does us scoping f (.parts parts flow) (i ++ g) → g.length = f.length →
    Does us scoping f (.statement (.block parts) flow) g
  /-- An expression. -/
  | expression {f g : Frame} {e : Expression} : Does us scoping f (.effect (some e)) g →
    Does us scoping f (.statement (.expression e) .normal) g
  /-- The condition of a choice holds. -/
  | chosen {f g h : Frame} {condition : Expression} {thenBranch : Body} {elseBranch : Option Body}
      {flow : Flow} :
    Does us scoping f (.test (some condition) true) g →
    Does us scoping g (.statement thenBranch flow) h →
    Does us scoping f (.statement (.conditional condition thenBranch elseBranch) flow) h
  /-- The condition of a choice does not hold, and there is an alternative. -/
  | otherwise {f g h : Frame} {condition : Expression} {thenBranch elseBranch : Body} {flow : Flow} :
    Does us scoping f (.test (some condition) false) g →
    Does us scoping g (.statement elseBranch flow) h →
    Does us scoping f (.statement (.conditional condition thenBranch (some elseBranch)) flow) h
  /-- The condition of a choice does not hold, and there is no alternative. -/
  | skipped {f g : Frame} {condition : Expression} {thenBranch : Body} :
    Does us scoping f (.test (some condition) false) g →
    Does us scoping f (.statement (.conditional condition thenBranch none) .normal) g
  /-- A loop that tests before its body. -/
  | whileLoop {f g : Frame} {condition : Expression} {body : Body} {flow : Flow} :
    Does us scoping f (.rounds (some condition) none body flow) g →
    Does us scoping f (.statement (.whileLoop condition body) flow) g
  /-- A loop that tests after its body has a first round without a test. -/
  | doWhileLoop {f g h : Frame} {condition : Expression} {body : Body} {first flow : Flow} :
    Does us scoping f (.statement body first) g → first.isRound = true →
    Does us scoping g (.rounds (some condition) none body flow) h →
    Does us scoping f (.statement (.doWhileLoop body condition) flow) h
  /-- The first round ends the loop. -/
  | doWhileExit {f g : Frame} {condition : Expression} {body : Body} :
    Does us scoping f (.statement body .exitLoop) g →
    Does us scoping f (.statement (.doWhileLoop body condition) .normal) g
  /-- The first round returns. -/
  | doWhileRet {f g : Frame} {condition : Expression} {body : Body} {value : Option Number} :
    Does us scoping f (.statement body (.ret value)) g →
    Does us scoping f (.statement (.doWhileLoop body condition) (.ret value)) g
  /-- What is declared at the start of a loop is gone after it. -/
  | forLoop {f g h i : Frame} {start : Option Body} {condition update : Option Expression}
      {body : Body} {flow : Flow} :
    Does us scoping f (.start start) g →
    Does us scoping g (.rounds condition update body flow) (i ++ h) → h.length = f.length →
    Does us scoping f (.statement (.forLoop start condition update body) flow) h
  /-- The end of the innermost loop. -/
  | exitLoop {f : Frame} {location : Location} :
    Does us scoping f (.statement (.exitLoop location) .exitLoop) f
  /-- The end of a round of the innermost loop. -/
  | nextRound {f : Frame} {location : Location} :
    Does us scoping f (.statement (.nextRound location) .nextRound) f
  /-- A return without a value. -/
  | ret {f : Frame} {location : Location} :
    Does us scoping f (.statement (.ret none location) (.ret none)) f
  /-- A return with a value. -/
  | retValue {f g : Frame} {e : Expression} {n : Number} {location : Location} :
    Does us scoping f (.value e (some n)) g →
    Does us scoping f (.statement (.ret (some e) location) (.ret (some n))) g
  /-- Nothing. -/
  | empty {f : Frame} : Does us scoping f (.statement .empty .normal) f
  /-- No parts are left. -/
  | done {f : Frame} : Does us scoping f (.parts [] .normal) f
  /-- Declarations, and the parts after them. -/
  | declares {f g h : Frame} {ds : List LocalDeclaration} {parts : List Body} {flow : Flow} :
    Does us scoping f (.declare ds) g → Does us scoping g (.parts parts flow) h →
    Does us scoping f (.parts (.declare ds :: parts) flow) h
  /-- A statement, and the parts after it. -/
  | first {f g h : Frame} {part : Body} {parts : List Body} {flow : Flow} :
    part.isStatement = true → Does us scoping f (.statement part .normal) g →
    Does us scoping g (.parts parts flow) h → Does us scoping f (.parts (part :: parts) flow) h
  /-- A statement after which control goes elsewhere. -/
  | leaves {f g : Frame} {part : Body} {parts : List Body} {flow : Flow} :
    part.isStatement = true → Does us scoping f (.statement part flow) g → flow ≠ .normal →
    Does us scoping f (.parts (part :: parts) flow) g
  /-- The test fails, and the loop is over. -/
  | finished {f g : Frame} {condition update : Option Expression} {body : Body} :
    Does us scoping f (.test condition false) g →
    Does us scoping f (.rounds condition update body .normal) g
  /-- A round, and those after it. -/
  | round {f g h i j : Frame} {condition update : Option Expression} {body : Body}
      {first flow : Flow} :
    Does us scoping f (.test condition true) g → Does us scoping g (.statement body first) h →
    first.isRound = true → Does us scoping h (.effect update) i →
    Does us scoping i (.rounds condition update body flow) j →
    Does us scoping f (.rounds condition update body flow) j
  /-- A round ends the loop. -/
  | roundExit {f g h : Frame} {condition update : Option Expression} {body : Body} :
    Does us scoping f (.test condition true) g → Does us scoping g (.statement body .exitLoop) h →
    Does us scoping f (.rounds condition update body .normal) h
  /-- A round returns. -/
  | roundRet {f g h : Frame} {condition update : Option Expression} {body : Body}
      {value : Option Number} :
    Does us scoping f (.test condition true) g →
    Does us scoping g (.statement body (.ret value)) h →
    Does us scoping f (.rounds condition update body (.ret value)) h
  /-- A call begins with the arguments, and its result is what the way in which the body is left
  says. -/
  | call {u : FunctionUnit} {ns : List Number} {f g : Frame} {flow : Flow}
      {result : Option Number} :
    Frame.bind? [] u.parameterList ns = some f → u.body.isStatement = true →
    Does us scoping f (.statement u.body flow) g → flow.result? u = some result →
    Does us scoping [] (.call u ns result) []

end Meaning

end ManagedC
