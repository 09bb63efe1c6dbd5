import RealScript.Token.Scanner
import RealScript.Tree

/-! # Parsing

Every decision is made from the current token alone.

    program    = { statement [";"] } end
    statement  = if | while | for | return | definition | host | expression
    definition = "func" name params "{" block "}"         (top level only)
    host       = "extern" name params                      (top level only)
    if         = "if" expression block [ "else" block ] "done"
    while      = "while" expression block "done"
    for        = "for" name "=" expression "," expression [ "," expression ] block "done"
    return     = "return" expression
    expression = unary { operator unary }
    unary      = "not" unary | primary
    primary    = name [ "(" arguments ")" ] | number | "(" expression ")"
               | "[" primary { "," primary } "]" | "|" primary { "," primary } "|"
               | "do" "(" builtin { "," expression } ")" | "func" params "{" block "}"
-/

namespace RealScript

/-- The current token, the tokens behind it, and the failure behind those if there is one. -/
structure Stream where
  tok : Token
  rest : List Token
  failure : Option Diagnostic
  deriving Repr

abbrev Parse := StateT Stream (Except Diagnostic)

namespace Parse

def current : Parse Token := return (← get).tok

def advance : Parse Unit := fun s =>
  match s.rest, s.failure with
  | t :: rest, _ => .ok ((), { s with tok := t, rest := rest })
  | [], some d => .error d
  | [], none => .ok ((), s)

def reject {α : Type} (cause : Token → Cause) : Parse α := do
  let tok ← current
  throw ⟨tok.pos, cause tok⟩

def expect (kind : TokenKind) (place : Place) : Parse Token := do
  let tok ← current
  if tok.kind = kind then
    advance
    return tok
  else reject (.expected kind place)

def expectName (place : Place) : Parse String := return (← expect .identifier place).lexeme.spelling

def expectAssign : Parse Unit := do
  match (← current).lexeme with
  | .operator ⟨"=", _, _⟩ => advance
  | _ => reject .expectedAssign

def behind? {α : Type} (kind : TokenKind) (p : Token → Parse α) : Parse (Option α) := do
  let tok ← current
  if tok.kind = kind then
    advance
    return some (← p tok)
  else return none

/-- The names of a parameter list behind its opening parenthesis, which is not empty. -/
def names : (fuel : Nat) → Parse (List String)
  | 0 => reject .expectedExpression
  | fuel + 1 => do
    let name ← expectName .parameter
    if (← current).kind = .mark .comma then
      advance
      return name :: (← names fuel)
    else return [name]

def params (fuel : Nat) (place : Place) : Parse (List String) := do
  let _ ← expect (.mark .leftParen) place
  let found ← if (← current).kind = .mark .rightParen then pure [] else names fuel
  let _ ← expect (.mark .rightParen) .closeParams
  return found

def binaryOperator? (t : Token) : Option Operator :=
  match t.lexeme with
  | .operator op => if op.isBinary then some op else none
  | _ => none

mutual

def statement (fuel : Nat) (nested : Bool) : Parse Node :=
  match fuel with
  | 0 => reject .expectedExpression
  | fuel + 1 => do
    let tok ← current
    match tok.lexeme with
    | .keyword .ifThen => do
      advance
      let cond ← expression fuel
      let body ← block fuel tok [.keyword .orElse, .keyword .done]
      let otherwise ← behind? (.keyword .orElse) fun stop => block fuel stop [.keyword .done]
      let _ ← expect (.keyword .done) .closeIf
      return .conditional tok.pos cond body otherwise
    | .keyword .whileLoop => do
      advance
      let cond ← expression fuel
      let body ← block fuel tok [.keyword .done]
      let _ ← expect (.keyword .done) .closeWhile
      return .whileLoop tok.pos cond body
    | .keyword .forLoop => do
      advance
      let var ← expectName .loopVariable
      expectAssign
      let start ← expression fuel
      let _ ← expect (.mark .comma) .loopStart
      let stop ← expression fuel
      let step ← behind? (.mark .comma) fun _ => expression fuel
      let body ← block fuel tok [.keyword .done]
      let _ ← expect (.keyword .done) .closeFor
      return .forLoop tok.pos var start stop step body
    | .keyword .ret => do
      advance
      return .ret tok.pos (← expression fuel)
    | .keyword .elif => reject fun _ => .elif
    | .keyword .func => do
      advance
      match (← current).lexeme with
      | .identifier name =>
        if nested then throw ⟨tok.pos, .nestedFunction name⟩
        advance
        let (params, body) ← function fuel .defParams
        return .funcDef tok.pos name params body
      | _ =>
        let (params, body) ← function fuel .funcParams
        binary fuel 0 (.funcLit tok.pos params body)
    | .keyword .host => do
      if nested then throw ⟨tok.pos, .nestedHost⟩
      advance
      let name ← expectName .hostName
      return .hostDecl tok.pos name (← params fuel .hostParams)
    | _ => expression fuel

/-- Statements up to one of the closing tokens, which stays the current one. -/
def block (fuel : Nat) (owner : Token) (closers : List TokenKind) : Parse (List Node) :=
  match fuel with
  | 0 => reject .expectedExpression
  | fuel + 1 => do
    let tok ← current
    if closers.contains tok.kind then return []
    match tok.lexeme with
    | .mark .semicolon => do
      advance
      block fuel owner closers
    | .endOfInput => reject fun _ => .unterminated owner closers
    | .keyword .elif => reject fun _ => .elif
    | _ => do
      let first ← statement fuel true
      return first :: (← block fuel owner closers)

def expression (fuel : Nat) : Parse Node :=
  match fuel with
  | 0 => reject .expectedExpression
  | fuel + 1 => do
    let lhs ← unary fuel
    binary fuel 0 lhs

/-- Takes operators that bind at least as tight as `least` to the right of `lhs`. An operator that
binds tighter than the one before it takes the operand between them first. -/
def binary (fuel : Nat) (least : Nat) (lhs : Node) : Parse Node :=
  match fuel with
  | 0 => reject .expectedExpression
  | fuel + 1 => do
    let tok ← current
    match binaryOperator? tok with
    | none => return lhs
    | some op =>
      if op.precedence < least then return lhs
      advance
      let operand ← unary fuel
      let tighter := (binaryOperator? (← current)).any (op.precedence < ·.precedence)
      let rhs ← if tighter then binary fuel (op.precedence + 1) operand else pure operand
      binary fuel least (.binary tok.pos op.spelling lhs rhs)

def unary (fuel : Nat) : Parse Node :=
  match fuel with
  | 0 => reject .expectedExpression
  | fuel + 1 => do
    let tok ← current
    match tok.lexeme with
    | .operator op =>
      if op.category = .unary then
        advance
        return .unary tok.pos op.spelling (← unary fuel)
      else primary fuel
    | _ => primary fuel

def primary (fuel : Nat) : Parse Node :=
  match fuel with
  | 0 => reject .expectedExpression
  | fuel + 1 => do
    let tok ← current
    match tok.lexeme with
    | .identifier name => do
      advance
      if (← current).kind = .mark .leftParen then
        advance
        if (← current).kind = .mark .rightParen then
          advance
          return .call tok.pos false name []
        else return .call tok.pos false name (← arguments fuel)
      else return .ident tok.pos name
    | .number _ value => do
      advance
      return .number tok.pos value
    | .mark .leftParen => do
      advance
      let inner ← expression fuel
      let _ ← expect (.mark .rightParen) .closeGroup
      return inner
    | .mark .leftBracket => collection fuel tok .rightBracket
    | .mark .pipe => collection fuel tok .pipe
    | .keyword .doCall => do
      advance
      let _ ← expect (.mark .leftParen) .doCall
      match (← current).lexeme with
      | .builtin name =>
        advance
        return .call tok.pos true name (← doArguments fuel)
      | _ => reject .expectedBuiltin
    | .keyword .func => do
      advance
      let (params, body) ← function fuel .funcParams
      return .funcLit tok.pos params body
    | _ => reject .expectedExpression

def arguments (fuel : Nat) : Parse (List Node) :=
  match fuel with
  | 0 => reject .expectedExpression
  | fuel + 1 => do
    let arg ← expression fuel
    match (← current).lexeme with
    | .mark .comma => do
      advance
      return arg :: (← arguments fuel)
    | .mark .rightParen => do
      advance
      return [arg]
    | _ => reject .expectedArgumentEnd

def collection (fuel : Nat) (start : Token) (closer : Mark) : Parse Node :=
  match fuel with
  | 0 => reject .expectedExpression
  | fuel + 1 => do
    advance
    if (← current).kind = .mark closer then reject fun _ => .emptyCollection
    return .collection start.pos (closer = .pipe) (← elements fuel closer)

def elements (fuel : Nat) (closer : Mark) : Parse (List Node) :=
  match fuel with
  | 0 => reject .expectedExpression
  | fuel + 1 => do
    let element ← primary fuel
    let kind := (← current).kind
    if kind = .mark .comma then
      advance
      return element :: (← elements fuel closer)
    else if kind = .mark closer then
      advance
      return [element]
    else reject (.expectedElementEnd closer)

def doArguments (fuel : Nat) : Parse (List Node) :=
  match fuel with
  | 0 => reject .expectedExpression
  | fuel + 1 => do
    match (← current).lexeme with
    | .mark .comma => do
      advance
      let arg ← expression fuel
      return arg :: (← doArguments fuel)
    | .mark .rightParen => do
      advance
      return []
    | _ => reject .expectedDoEnd

def function (fuel : Nat) (place : Place) : Parse (List String × List Node) :=
  match fuel with
  | 0 => reject .expectedExpression
  | fuel + 1 => do
    let ps ← params fuel place
    let start ← expect (.mark .leftBrace) .openBody
    let body ← block fuel start [.mark .rightBrace]
    let _ ← expect (.mark .rightBrace) .closeBody
    return (ps, body)

end

def program : (fuel : Nat) → Parse Program
  | 0 => reject .expectedExpression
  | fuel + 1 => do
    match (← current).lexeme with
    | .mark .semicolon => do
      advance
      program fuel
    | .endOfInput => return []
    | _ => do
      let first ← statement fuel false
      return first :: (← program fuel)

end Parse

namespace Program

/-- Parses tokens. No chain of calls is longer than a few for each token. -/
def ofScan (s : Scan) : Except Diagnostic Program :=
  match s.tokens, s.failure with
  | t :: rest, failure =>
    (Parse.program (8 * (rest.length + 2))).run' { tok := t, rest := rest, failure := failure }
  | [], some d => .error d
  | [], none => .ok []

def parseCursor (cur : Cursor) : Except Diagnostic Program := ofScan (Scan.ofCursor cur)

def parse (src : String) : Except Diagnostic Program := parseCursor (.ofString src)

end Program

end RealScript
