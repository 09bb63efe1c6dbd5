import RealScript.Decimal.Reader
import RealScript.Elementary
import RealScript.Machine.Action

/-! # Built-in functions

The functions that every program can reach, and the host functions that a program has to declare
before it can call them.
-/

namespace RealScript

structure Builtin where
  name : String
  params : List Ty
  ret : Ty
  native : Native

namespace Builtin

/-- Reads words as numbers. How the input ends counts only if all of them are. -/
def readNumbers (input : InputWords) : List Float → List Text.Word → Action
  | found, [] => .leave input.words.rest <|
    match input.cause? with
    | some cause => .fail cause
    | none => .done (.collection found.reverse)
  | found, w :: ws => .leave w.rest <| .proceed <|
    match Decimal.read? (String.ofList (Text.decode w.bytes)) with
    | some x => readNumbers input (x :: found) ws
    | none => .fail (.invalidNumber w.bytes)

def format (xs : List Float) : String :=
  "[ " ++ ", ".intercalate (xs.map Decimal.sixDigits) ++ " ]"

def asciiBytes (s : String) : List UInt8 := s.toList.map fun c => c.toNat.toUInt8

/-- Calls `f` on every element in turn and hands on the results in order. -/
def each (f : FuncRef) (next : List Value → Action) : List Value → List Float → Action
  | found, [] => next found.reverse
  | found, x :: xs => .proceed <|
    .call (some f) [.number x] fun v => each f next (v :: found) xs

def scatter (callback : Value) (xs : List Float) (next : List Value → Action) : Action :=
  match callback.toFunction with
  | none => .fail .notFunction
  | some f => .enterPool (each f next [] xs)

def keep (xs : List Float) (results : List Value) : List Float :=
  ((xs.zip results).filter fun (_, v) => v.toNumber.abs > 0).map Prod.fst

def foldFrom (f : FuncRef) : Float → List Float → Action
  | acc, [] => .done (.number acc)
  | acc, x :: xs => .call (some f) [.number acc, .number x] fun v => foldFrom f v.toNumber xs

def arg (args : List Value) (n : Nat) : Value := args.getD n .zero

def read : Native := fun _ =>
  .read fun input => readNumbers input [] input.words.found

def write : Native := fun args =>
  .write (asciiBytes (format (arg args 0).toCollection ++ "\n")) (.done .zero)

def length : Native := fun args => .done (.number (arg args 0).toCollection.length.toFloat)

def map : Native := fun args =>
  scatter (arg args 0) (arg args 1).toCollection fun vs =>
    .done (.collection (vs.map Value.toNumber))

def filter : Native := fun args =>
  let xs := (arg args 1).toCollection
  scatter (arg args 0) xs fun vs => .done (.collection (keep xs vs))

def fold : Native := fun args =>
  match (arg args 0).toFunction with
  | none => .fail .notFunction
  | some f => foldFrom f 0 (arg args 1).toCollection

def table : List Builtin := [
  ⟨"read", [], .collection, read⟩,
  ⟨"write", [.collection], .void, write⟩,
  ⟨"length", [.collection], .real, length⟩,
  ⟨"map", [.func 1, .collection], .collection, map⟩,
  ⟨"filter", [.func 1, .collection], .collection, filter⟩,
  ⟨"fold", [.func 2, .collection], .real, fold⟩]

end Builtin

structure Host where
  name : String
  arity : Nat
  native : Native

namespace Host

def unary (name : String) (f : Float → Float) : Host :=
  ⟨name, 1, fun args => .done (.number (f (Builtin.arg args 0).toNumber))⟩

def binary (name : String) (f : Float → Float → Float) : Host :=
  ⟨name, 2, fun args =>
    .done (.number (f (Builtin.arg args 0).toNumber (Builtin.arg args 1).toNumber))⟩

def lowByte (x : Float) : UInt8 := x.toInt64.toUInt64.toUInt8

def printd : Native := fun args =>
  let b := lowByte (Builtin.arg args 0).toNumber
  .write [b, 10] (.done (.number b.toNat.toFloat))

def table : List Host := [
  unary "atan" Float.atan, binary "atan2" Elementary.atan2, unary "ceil" Float.ceil,
  unary "cos" Elementary.cos, unary "exp" Elementary.exp, unary "fabs" Float.abs,
  unary "floor" Float.floor, unary "log" Elementary.log, binary "pow" Elementary.pow,
  ⟨"printd", 1, printd⟩, unary "sin" Elementary.sin, unary "sqrt" Float.sqrt,
  unary "tan" Elementary.tan]

def signatures : List (String × Nat) := table.map fun h => (h.name, h.arity)

def describe (h : Host) : String := h.name ++ "/" ++ toString h.arity

end Host

namespace Builtin

def natives : List (String × Native) :=
  (table.map fun b => (b.name, b.native)) ++ Host.table.map fun h => (h.name, h.native)

structure DeclareError where
  name : String
  error : CodeError
  deriving DecidableEq, Repr

def DeclareError.message (e : DeclareError) : String :=
  "register " ++ e.name ++ ": " ++ e.error.message

/-- Declares the built-in functions in a module. On failure those before the one at fault stay
declared. -/
def declareAll : List Builtin → Module → Except DeclareError Unit × Module
  | [], m => (.ok (), m)
  | b :: bs, m =>
    match m.declareNative b.name b.params b.ret with
    | .ok (_, m) => declareAll bs m
    | .error e => (.error ⟨b.name, e⟩, m)

def moduleNamed (name : String) : Module := (declareAll table { name := name }).2

end Builtin

end RealScript
