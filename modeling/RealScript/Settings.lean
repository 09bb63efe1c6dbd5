import RealScript.Duration
import RealScript.Text.Quoted

/-! # Settings of a session -/

namespace RealScript

inductive LogLevel where
  | trace | debug | info | warn | error | disabled
  deriving DecidableEq, Repr

namespace LogLevel

def all : List LogLevel := [.trace, .debug, .info, .warn, .error, .disabled]

def name : LogLevel → String
  | .trace => "trace"
  | .debug => "debug"
  | .info => "info"
  | .warn => "warn"
  | .error => "error"
  | .disabled => "disabled"

def find? (name : String) : Option LogLevel := all.find? (·.name == name)

def rank : LogLevel → Nat
  | .trace => 0
  | .debug => 1
  | .info => 2
  | .warn => 3
  | .error => 4
  | .disabled => 5

end LogLevel

structure Settings where
  optimize : Bool := true
  dump : Bool := false
  workers : Int := 1
  prompt : String := "do] "
  continuationPrompt : String := "...] "
  historyFile : String := ""
  logLevel : String := "info"
  timeout : Duration := {}
  maxCallDepth : Int := 10000
  deriving DecidableEq, Repr, Inhabited

inductive SettingsError where
  | workers (n : Int)
  | logLevel (name : String)
  | timeout (d : Duration)
  | maxCallDepth (n : Int)
  deriving DecidableEq, Repr

def SettingsError.message : SettingsError → String
  | .workers n => "workers must be at least 1, got " ++ toString n
  | .logLevel name => "unknown log_level " ++ Text.quoted name
  | .timeout d => "timeout must not be negative, got " ++ d.text
  | .maxCallDepth n => "max_call_depth must be at least 1, got " ++ toString n

namespace Settings

def validate (s : Settings) : Except SettingsError Unit := do
  if s.workers < 1 then throw (.workers s.workers)
  if (LogLevel.find? s.logLevel).isNone then throw (.logLevel s.logLevel)
  if s.timeout.ns < 0 then throw (.timeout s.timeout)
  if s.maxCallDepth < 1 then throw (.maxCallDepth s.maxCallDepth)

def forHome (home : String) : Settings := { historyFile := home ++ "/.dolang_history" }

end Settings

end RealScript
