import RealScript.Code.Error
import RealScript.Text.Quoted

/-! # Failures at run time -/

namespace RealScript

inductive Interrupt where
  | cancelled
  | deadline
  deriving DecidableEq, Repr

def Interrupt.message : Interrupt → String
  | .cancelled => "context canceled"
  | .deadline => "context deadline exceeded"

inductive RunCause where
  | callDepth
  | uninitialized
  | argumentCount (want got : Nat)
  | unbound
  | fellOff (block : String)
  | unknownOpcode (op : Opcode)
  | interrupted (i : Interrupt)
  | notFunction
  | poolClosed
  | invalidNumber (word : List UInt8)
  | wordTooLong
  | other (text : String)
  deriving DecidableEq, Repr

def RunCause.message : RunCause → String
  | .callDepth => "call stack overflow"
  | .uninitialized => "call of an uninitialized function value"
  | .argumentCount want got =>
    "called with " ++ toString got ++ " arguments, want " ++ toString want
  | .unbound => "native function is not bound"
  | .fellOff block => "fell off the end of block " ++ block
  | .unknownOpcode op => "unknown opcode " ++ op.name
  | .interrupted i => i.message
  | .notFunction => "callback is not a function"
  | .poolClosed => "worker pool is closed"
  | .invalidNumber word => "invalid number " ++ Text.quotedBytes word
  | .wordTooLong => "bufio.Scanner: token too long"
  | .other text => text

structure RuntimeError where
  function : String
  cause : RunCause
  deriving DecidableEq, Repr

def RuntimeError.message (e : RuntimeError) : String :=
  "runtime error in @" ++ e.function ++ ": " ++ e.cause.message

/-- How a run ends without a value. Code that passes verification has no missing operands. -/
inductive Fault where
  | runtime (e : RuntimeError)
  | missingOperand
  | outOfFuel
  deriving DecidableEq, Repr

def Fault.message : Fault → String
  | .runtime e => e.message
  | .missingOperand => "vm: unknown operand <nil>"
  | .outOfFuel => "out of fuel"

end RealScript
