import RealScript.Code.Error
import RealScript.Token

/-! # Diagnostics

A diagnostic is a cause at a source position. The cause fixes the kind of error and its wording, and
whether it arose because the input ended too early.
-/

namespace RealScript

inductive ErrorKind where
  | lexical | grammar | name | type | arity | backend
  deriving DecidableEq, Repr

namespace ErrorKind

def all : List ErrorKind := [.lexical, .grammar, .name, .type, .arity, .backend]

def text : ErrorKind → String
  | .lexical => "lexical error"
  | .grammar => "syntax error"
  | .name => "name error"
  | .type => "type error"
  | .arity => "arity error"
  | .backend => "backend error"

def textOfIndex (n : Int) : String :=
  match n.toNat?.bind (all[·]?) with
  | some k => k.text
  | none => "error"

end ErrorKind

inductive Place where
  | closeIf | closeWhile | closeFor | loopVariable | loopStart | closeGroup | doCall
  | funcParams | defParams | hostName | hostParams | parameter | closeParams | openBody | closeBody
  deriving DecidableEq, Repr

def Place.text : Place → String
  | .closeIf => "to close 'if'"
  | .closeWhile => "to close 'while'"
  | .closeFor => "to close 'for'"
  | .loopVariable => "after 'for'"
  | .loopStart => "after loop start value"
  | .closeGroup => "to close '('"
  | .doCall => "after 'do'"
  | .funcParams => "after 'func'"
  | .defParams => "after function name"
  | .hostName => "after 'extern'"
  | .hostParams => "after extern name"
  | .parameter => "in parameter list"
  | .closeParams => "to close parameter list"
  | .openBody => "before function body"
  | .closeBody => "to close function body"

inductive Role where
  | condition | element | loopStart | loopStep
  | operand (op : String)
  deriving DecidableEq, Repr

def Role.text : Role → String
  | .condition => "condition"
  | .element => "collection element"
  | .loopStart => "loop start"
  | .loopStep => "loop step"
  | .operand op => "operand of '" ++ op ++ "'"

inductive Cause where
  -- reading characters
  | unreadable (text : String)
  | malformedNumber (text : String)
  | unexpectedCharacter (c : Char)
  -- reading tokens
  | expected (kind : TokenKind) (place : Place) (got : Token)
  | expectedAssign (got : Token)
  | expectedExpression (got : Token)
  | expectedArgumentEnd (got : Token)
  | expectedElementEnd (closer : Mark) (got : Token)
  | expectedBuiltin (got : Token)
  | expectedDoEnd (got : Token)
  | emptyCollection
  | elif
  | unterminated (owner : Token) (closers : List TokenKind)
  | nestedFunction (name : String)
  | nestedHost
  -- lowering
  | unknownBinary (op : String)
  | unknownVariable (name : String)
  | duplicate (name : String)
  | duplicateParameter (name : String)
  | isFunction (name : String)
  | isVariable (name : String)
  | isDefined (name : String)
  | unknownBuiltin (name : String)
  | unknownFunction (name : String)
  | unknownHost (name : String) (arity : Nat)
  | notReal (role : Role) (got : Ty)
  | needsReals (op : String) (left right : Ty)
  | assignTarget
  | assignNothing (name : String)
  | assignType (name : String) (got holds : Ty)
  | notFunction (name : String) (holds : Ty)
  | argumentCount (name : String) (want got : Nat)
  | argumentType (name : String) (index : Nat) (want got : Ty)
  | nestedCollection
  | returnType (want got : Ty)
  | backend (error : CodeError)
  deriving Repr

namespace Cause

def kind : Cause → ErrorKind
  | .unreadable _ | .malformedNumber _ | .unexpectedCharacter _ => .lexical
  | .expected .. | .expectedAssign _ | .expectedExpression _ | .expectedArgumentEnd _
  | .expectedElementEnd .. | .expectedBuiltin _ | .expectedDoEnd _ | .emptyCollection | .elif
  | .unterminated .. | .nestedFunction _ | .nestedHost | .unknownBinary _ => .grammar
  | .unknownVariable _ | .duplicate _ | .duplicateParameter _ | .isFunction _ | .isVariable _
  | .isDefined _ | .unknownBuiltin _ | .unknownFunction _ | .unknownHost .. => .name
  | .notReal .. | .needsReals .. | .assignTarget | .assignNothing _ | .assignType ..
  | .notFunction .. | .argumentType .. | .nestedCollection | .returnType .. => .type
  | .argumentCount .. => .arity
  | .backend _ => .backend

/-- The token that a grammar error stopped at, where the cause depends on it. -/
def got? : Cause → Option Token
  | .expected _ _ got | .expectedAssign got | .expectedExpression got | .expectedArgumentEnd got
  | .expectedElementEnd _ got | .expectedBuiltin got | .expectedDoEnd got => some got
  | _ => none

def atEnd (c : Cause) : Bool :=
  match c with
  | .unterminated .. => true
  | c => c.got?.any (·.kind = .endOfInput)

private def single (s : String) : String := "'" ++ s ++ "'"

def message : Cause → String
  | .unreadable text => "read error: " ++ text
  | .malformedNumber text => "malformed number " ++ Text.quoted text
  | .unexpectedCharacter c => "unexpected character " ++ Text.quotedChar c
  | .expected kind place got =>
    "expected " ++ single kind.name ++ " " ++ place.text ++ ", got " ++ got.describe
  | .expectedAssign got => "expected '=' after loop variable, got " ++ got.describe
  | .expectedExpression got => "expected expression, got " ++ got.describe
  | .expectedArgumentEnd got => "expected ',' or ')' in argument list, got " ++ got.describe
  | .expectedElementEnd closer got =>
    "expected ',' or " ++ single closer.char.toString ++ " in collection literal, got " ++
      got.describe
  | .expectedBuiltin got => "expected builtin name after 'do(', got " ++ got.describe
  | .expectedDoEnd got => "expected ',' or ')' in 'do' call, got " ++ got.describe
  | .emptyCollection => "collection literal needs at least one element"
  | .elif => "elif is not supported"
  | .unterminated owner closers =>
    "unterminated " ++ single owner.kind.name ++ " opened at " ++ owner.pos.text ++ ": expected " ++
      " or ".intercalate (closers.map fun k => single k.name)
  | .nestedFunction name => "function " ++ Text.quoted name ++ " must be defined at top level"
  | .nestedHost => "extern must be declared at top level"
  | .unknownBinary op => "unknown binary operator " ++ single op
  | .unknownVariable name => "unknown variable " ++ Text.quoted name
  | .duplicate name => "duplicate declaration of " ++ Text.quoted name
  | .duplicateParameter name => "duplicate parameter " ++ Text.quoted name
  | .isFunction name => Text.quoted name ++ " is a function"
  | .isVariable name => Text.quoted name ++ " is already a variable"
  | .isDefined name => "function " ++ Text.quoted name ++ " is already defined"
  | .unknownBuiltin name => "unknown builtin " ++ Text.quoted name
  | .unknownFunction name => "unknown function " ++ Text.quoted name
  | .unknownHost name arity =>
    "unknown extern " ++ Text.quoted name ++ " with " ++ toString arity ++ " parameters"
  | .notReal role got => role.text ++ " must be real, got " ++ got.name
  | .needsReals op left right =>
    "operator " ++ single op ++ " needs real operands, got " ++ left.name ++ " and " ++ right.name
  | .assignTarget => "left-hand side of '=' must be a variable"
  | .assignNothing name => "cannot assign an expression without a value to " ++ Text.quoted name
  | .assignType name got holds =>
    "cannot assign " ++ got.name ++ " to " ++ Text.quoted name ++ ", which holds " ++ holds.name
  | .notFunction name holds => Text.quoted name ++ " is not a function, it holds " ++ holds.name
  | .argumentCount name want got =>
    name ++ " expects " ++ toString want ++ " arguments, got " ++ toString got
  | .argumentType name index want got =>
    "argument " ++ toString index ++ " of " ++ name ++ ": expected " ++ want.name ++ ", got " ++
      got.name
  | .nestedCollection => "unimplemented: nested collection literal"
  | .returnType want got => "return value must be " ++ want.name ++ ", got " ++ got.name
  | .backend error => error.message

end Cause

structure Diagnostic where
  pos : Position
  cause : Cause
  deriving Repr

namespace Diagnostic

def kind (d : Diagnostic) : ErrorKind := d.cause.kind

/-- Whether the error arose at the end of the input, so that more input may mend it. -/
def incomplete (d : Diagnostic) : Bool := d.cause.atEnd

def message (d : Diagnostic) : String := d.pos.text ++ ": error: " ++ d.cause.message

def format (d : Diagnostic) (source : String) : String :=
  if source = "" then d.message else source ++ ":" ++ d.message

end Diagnostic

end RealScript
