import ManagedC.CType.Declared
import ManagedC.Target.Assembler

/-!
# Why a function is not compiled

Every way to fail is a cause of its own, with the types and names that it is about; its wording is in
one place. A `CompileError` is a cause with the place it is reported at.
-/

namespace ManagedC

namespace CType

/-- Whether the type is that of the number of arguments of a program. -/
def isArgumentCount (type : CType) : Bool := type == .int

/-- Whether the type is that of the arguments of a program: characters of any signedness behind two
pointers. -/
def isArgumentVector : CType → Bool
  | .pointer (.pointer (.primitive .char)) => true
  | .pointer (.pointer (.primitive .signedChar)) => true
  | .pointer (.pointer (.primitive .unsignedChar)) => true
  | _ => false

end CType

/-- A construct that is refused although the language has it. -/
inductive UnsupportedFeature where
  /-- The entry function returns a type other than `int`. -/
  | entryReturn (found : CType)
  /-- The entry function takes any number of arguments. -/
  | entryVariadic
  /-- The entry function takes the wrong number of parameters. -/
  | entryParameterCount (found : Nat)
  /-- The entry function takes two parameters of the wrong types. -/
  | entrySignature (count vector : CType)
  /-- A function returns a constant. -/
  | constReturn (type : CType)
  /-- Parameters are declared between the parameter list and the body. -/
  | oldStyleParameters
  deriving DecidableEq, Inhabited

/-- A construct that is left for later. -/
inductive MissingFeature where
  /-- A floating-point number used as a condition. -/
  | floatingConditions
  /-- An operator applied to floating-point numbers. -/
  | floatingArithmetic
  /-- A call of anything but a name. -/
  | functionPointers
  /-- Arguments for a function about whose parameters nothing is known. -/
  | unknownParameters (callee : String)
  /-- A function with an ellipsis. -/
  | variadicFunctions
  /-- A choice among labels. -/
  | switchStatements
  /-- A label or a jump to one. -/
  | labelsAndGoto
  /-- A function declared in a block. -/
  | blockScopeFunctions
  /-- A local variable that does not live in its block. -/
  | localStorageClasses
  deriving DecidableEq, Inhabited

/-- What is wrong with the operands of a construct. -/
inductive OperandFault where
  /-- A condition is neither a number nor a pointer. -/
  | notScalar (type : CType)
  /-- There is no conversion. -/
  | notConvertible (source target : CType)
  /-- There is no comparison. -/
  | notComparable (left right : CType)
  /-- The operator does not apply. -/
  | binary (op : BinaryOp) (left right : CType)
  /-- The operator does not apply. -/
  | unary (op : UnaryOp) (type : CType)
  /-- The pointer's target has no size to step by. -/
  | noStep (pointer : CType)
  /-- A pointer to nothing in particular is followed. -/
  | voidTarget
  /-- Something other than a pointer is followed. -/
  | notPointer (type : CType)
  /-- Neither of the two parts of a subscript is a pointer, or neither is an integer. -/
  | notSubscript (array index : CType)
  /-- The elements of a subscripted pointer have no type. -/
  | noElement (pointer : CType)
  /-- The entry point is no method. -/
  | missingMethod (id : Nat)
  deriving DecidableEq, Inhabited

/-- Why the compiler refuses a function. -/
inductive Refusal where
  /-- It uses something that is not supported. -/
  | unsupported (function : String) (feature : UnsupportedFeature)
  /-- It uses something that is left for later. -/
  | notImplemented (function : String) (feature : MissingFeature)
  /-- It uses a type that the target machine does not have. -/
  | invalidType (function : String) (type : CType)
  /-- It has no name. -/
  | missingIdentifier
  /-- There is an entry function already. -/
  | duplicateEntryPoint (function existing : String)
  /-- A variable is not declared. -/
  | undefinedVariable (name : String)
  /-- A function is not defined. -/
  | undefinedFunction (name : String)
  /-- A call has the wrong number of arguments. -/
  | argumentCount (function : String) (expected found : Nat)
  /-- The operands of a construct do not fit. -/
  | invalidOperands (fault : OperandFault)
  /-- The target of an assignment holds no value. -/
  | notAssignable
  /-- There is no loop to end. -/
  | breakOutsideLoop
  /-- There is no loop to go on with. -/
  | continueOutsideLoop
  deriving DecidableEq, Inhabited

/-- A breach of the rules for names and returns. -/
inductive Misuse where
  /-- A thing that is no function has a body. -/
  | notFunction (name : String)
  /-- A local declaration gives no name. -/
  | unnamedLocal
  /-- Two parameters share a name. -/
  | duplicateParameter (name function : String)
  /-- Two variables of a block share a name. -/
  | duplicateLocal (name : String)
  /-- A variable has no value. -/
  | voidLocal (name : String)
  /-- A function without a result returns one. -/
  | unexpectedValue (function : String)
  /-- A function with a result returns none. -/
  | missingValue (function : String)
  deriving DecidableEq, Inhabited

/-- A mistake of the compiler itself. -/
inductive InternalFault where
  /-- The assembler was used in the wrong way. -/
  | assembler (fault : AssemblerFault)
  /-- A logical operator was to be compiled as an arithmetic one. -/
  | logicalArithmetic (op : LogicalOp)
  /-- The entry function cannot be called by the code that starts the program. -/
  | notBridgeable (entry : MethodRef)
  deriving DecidableEq, Inhabited

/-- Why a function is not compiled. -/
inductive CompileError where
  /-- A declaration means nothing. -/
  | declaration (error : DeclarationError)
  /-- The function is refused. -/
  | refused (refusal : Refusal) (location : Location)
  /-- A rule is broken. -/
  | misused (misuse : Misuse) (location : Location)
  /-- The compiler made a mistake. -/
  | internal (fault : InternalFault)
  deriving DecidableEq, Inhabited

namespace UnsupportedFeature

/-- What does not fit about the types of the two parameters of an entry function. -/
def signatureProblems (count vector : CType) : List String :=
  (if count.isArgumentCount then []
    else [s!"parameter 1 must be 'int', found '{count.text}'"])
  ++ (if vector.isArgumentVector then []
    else [s!"parameter 2 must be 'char**', found '{vector.text}'"])

/-- What is said about the construct. -/
def message : UnsupportedFeature → String
  | .entryReturn found => s!"the entry function must return 'int' (int32), found '{found.text}'"
  | .entryVariadic => "the entry function may not be variadic"
  | .entryParameterCount found =>
    s!"the entry function must take 2 parameters (int, char **), found {found}"
  | .entrySignature count vector =>
    s!"expected entry signature (int, char**) but found ({count.text}, {vector.text}): "
      ++ "; ".intercalate (signatureProblems count vector)
  | .constReturn type => s!"const-qualified return type 'const {type.text}' is not supported"
  | .oldStyleParameters => "old-style parameter declarations are not supported"

end UnsupportedFeature

namespace MissingFeature

/-- What is said about the construct. -/
def message : MissingFeature → String
  | .floatingConditions => "floating-point conditions"
  | .floatingArithmetic => "floating-point arithmetic"
  | .functionPointers => "calls through function pointers"
  | .unknownParameters callee =>
    s!"passing arguments to '{callee}', which has no parameter information"
  | .variadicFunctions => "variadic functions"
  | .switchStatements => "switch statements"
  | .labelsAndGoto => "labels and goto"
  | .blockScopeFunctions => "block-scope function declarations"
  | .localStorageClasses => "storage classes on local declarations"

end MissingFeature

namespace OperandFault

/-- What is said about the operands. -/
def message : OperandFault → String
  | .notScalar type => s!"used '{type.text}' where a scalar is required"
  | .notConvertible source target => s!"cannot convert '{source.text}' to '{target.text}'"
  | .notComparable left right => s!"cannot compare '{left.text}' with '{right.text}'"
  | .binary op left right =>
    s!"invalid operands to '{op.symbol}' ('{left.text}' and '{right.text}')"
  | .unary op type => s!"invalid operand to unary '{op.symbol}' ('{type.text}')"
  | .noStep pointer => s!"arithmetic on '{pointer.text}'"
  | .voidTarget => "dereferencing a 'void*' pointer"
  | .notPointer type => s!"indirection requires a pointer operand ('{type.text}' invalid)"
  | .notSubscript array index =>
    s!"subscripted value is not a pointer ('{array.text}'[{index.text}])"
  | .noElement pointer => s!"cannot subscript '{pointer.text}'"
  | .missingMethod id => s!"entry point refers to missing method #{id}"

end OperandFault

namespace Refusal

/-- What is said about the refusal after the words for its category. -/
def detail : Refusal → String
  | .unsupported function feature => s!"in '{function}': {feature.message}"
  | .notImplemented function feature => s!"in '{function}': {feature.message}"
  | .invalidType function type =>
    s!"Type '{type.text}' in '{function}' has no target representation"
  | .missingIdentifier => "Function definition without a name"
  | .duplicateEntryPoint function existing =>
    s!"Entry point already set to '{existing}', cannot also use '{function}'"
  | .undefinedVariable name => s!"Undefined variable '{name}'"
  | .undefinedFunction name => s!"Undefined function '{name}'"
  | .argumentCount function expected found =>
    s!"Function '{function}' expects {expected} argument(s), found {found}"
  | .invalidOperands fault => s!"Invalid operands: {fault.message}"
  | .notAssignable => "Expression is not assignable"
  | .breakOutsideLoop => "'break' outside of a loop"
  | .continueOutsideLoop => "'continue' outside of a loop"

/-- What is said about the refusal where its category is not shown. -/
def message : Refusal → String
  | .unsupported function feature => s!"Unsupported construct in '{function}': {feature.message}"
  | .notImplemented function feature => s!"Not implemented in '{function}': {feature.message}"
  | refusal => refusal.detail

/-- The kind of trouble. -/
def category : Refusal → ReportCategory
  | .unsupported _ _ => .unsupported
  | .duplicateEntryPoint _ _ => .unsupported
  | .notImplemented _ _ => .notImplemented
  | .invalidType _ _ => .notImplemented
  | .missingIdentifier => .missingIdentifier
  | _ => .semantic

end Refusal

namespace Misuse

/-- What is said about the breach. -/
def message : Misuse → String
  | .notFunction name => s!"'{name}' is defined with a body but is not a function"
  | .unnamedLocal => "declaration does not declare a name"
  | .duplicateParameter name function => s!"redefinition of parameter '{name}' in '{function}'"
  | .duplicateLocal name => s!"redefinition of '{name}'"
  | .voidLocal name => s!"variable '{name}' declared void"
  | .unexpectedValue function => s!"void function '{function}' returns a value"
  | .missingValue function => s!"non-void function '{function}' returns without a value"

end Misuse

namespace InternalFault

/-- What is said about the mistake. -/
def message : InternalFault → String
  | .assembler fault => fault.message
  | .logicalArithmetic op =>
    s!"operator '{(BinaryOp.logical op).symbol}' reached arithmetic lowering"
  | .notBridgeable entry =>
    s!"cannot bridge to '{entry.text}': expected int32 main(int32, uint8**)"

end InternalFault

namespace CompileError

/-- The error as it is reported. -/
def report : CompileError → Report
  | .declaration error => error.report
  | .refused refusal location => .located refusal.category location refusal.detail
  | .misused misuse location => .located .semantic location misuse.message
  | .internal fault => .internal fault.message

end CompileError

end ManagedC
