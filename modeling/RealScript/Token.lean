import RealScript.Operator
import RealScript.Position
import RealScript.Text.Quoted

/-! # Tokens -/

namespace RealScript

inductive Keyword where
  | doCall | ifThen | elif | orElse | done | whileLoop | forLoop | func | ret | host
  deriving DecidableEq, Repr

namespace Keyword

def all : List Keyword :=
  [.doCall, .ifThen, .elif, .orElse, .done, .whileLoop, .forLoop, .func, .ret, .host]

def spelling : Keyword → String
  | .doCall => "do"
  | .ifThen => "if"
  | .elif => "elif"
  | .orElse => "else"
  | .done => "done"
  | .whileLoop => "while"
  | .forLoop => "for"
  | .func => "func"
  | .ret => "return"
  | .host => "extern"

def find? (word : String) : Option Keyword := all.find? (·.spelling == word)

end Keyword

inductive Mark where
  | leftParen | rightParen | leftBracket | rightBracket | pipe | comma | leftBrace | rightBrace
  | semicolon
  deriving DecidableEq, Repr

namespace Mark

def all : List Mark :=
  [.leftParen, .rightParen, .leftBracket, .rightBracket, .pipe, .comma, .leftBrace, .rightBrace,
    .semicolon]

def char : Mark → Char
  | .leftParen => '('
  | .rightParen => ')'
  | .leftBracket => '['
  | .rightBracket => ']'
  | .pipe => '|'
  | .comma => ','
  | .leftBrace => Char.ofNat 0x7B
  | .rightBrace => Char.ofNat 0x7D
  | .semicolon => ';'

def find? (c : Char) : Option Mark := all.find? (·.char == c)

end Mark

def reservedNames : List String := ["read", "write", "length", "map", "filter", "fold"]

inductive TokenKind where
  | endOfInput | identifier | number | builtin | operator
  | keyword (k : Keyword)
  | mark (m : Mark)
  deriving DecidableEq, Repr

namespace TokenKind

def all : List TokenKind :=
  [.endOfInput, .identifier, .number, .builtin, .operator] ++
    Keyword.all.map .keyword ++ Mark.all.map .mark

def name : TokenKind → String
  | .endOfInput => "EOF"
  | .identifier => "IDENTIFIER"
  | .number => "NUMBER"
  | .builtin => "BUILTIN"
  | .operator => "OPERATOR"
  | .keyword k => k.spelling
  | .mark m => m.char.toString

def nameOfIndex (n : Nat) : String :=
  match all[n]? with
  | some k => k.name
  | none => "TokenType(" ++ toString n ++ ")"

end TokenKind

inductive Lexeme where
  | endOfInput
  | identifier (name : String)
  | number (text : String) (value : Float)
  | builtin (name : String)
  | operator (op : Operator)
  | keyword (k : Keyword)
  | mark (m : Mark)
  deriving Repr, Inhabited

namespace Lexeme

def kind : Lexeme → TokenKind
  | .endOfInput => .endOfInput
  | .identifier _ => .identifier
  | .number _ _ => .number
  | .builtin _ => .builtin
  | .operator _ => .operator
  | .keyword k => .keyword k
  | .mark m => .mark m

def spelling : Lexeme → String
  | .endOfInput => ""
  | .identifier name => name
  | .number text _ => text
  | .builtin name => name
  | .operator op => op.spelling
  | .keyword k => k.spelling
  | .mark m => m.char.toString

/-- A word is a keyword, a reserved name, a word operator or an identifier, in this order. -/
def ofWord (word : String) : Lexeme :=
  match Keyword.find? word with
  | some k => .keyword k
  | none =>
    if reservedNames.contains word then .builtin word
    else match Operator.find? word with
      | some op => .operator op
      | none => .identifier word

end Lexeme

structure Token where
  lexeme : Lexeme
  pos : Position
  deriving Repr, Inhabited

namespace Token

def kind (t : Token) : TokenKind := t.lexeme.kind

def text (t : Token) : String :=
  let detail := match t.lexeme with
    | .number text _ => "(" ++ text ++ ")"
    | .operator op => "(" ++ op.category.name ++ " " ++ op.spelling ++ ")"
    | .identifier name => "(" ++ Text.quoted name ++ ")"
    | .builtin name => "(" ++ Text.quoted name ++ ")"
    | _ => ""
  t.kind.name ++ detail ++ "@" ++ t.pos.text

def describe (t : Token) : String :=
  match t.lexeme with
  | .endOfInput => "end of input"
  | .keyword k => "'" ++ k.spelling ++ "'"
  | .mark m => "'" ++ m.char.toString ++ "'"
  | l => Text.quoted l.spelling

end Token

end RealScript
