/-! # Log records -/

namespace Parley

inductive LogLevel where
  | debug | info | warning | error | critical
deriving DecidableEq, Repr

namespace LogLevel

def label : LogLevel → String
  | debug => "DEBUG"
  | info => "INFO"
  | warning => "WARNING"
  | error => "ERROR"
  | critical => "CRITICAL"

def rank : LogLevel → Nat
  | debug => 10
  | info => 20
  | warning => 30
  | error => 40
  | critical => 50

end LogLevel

/-- The part that a record comes from. -/
inductive LogChannel where
  | lexer | parser | context | vars | functions | interpreter | runner | events | loader | script
deriving DecidableEq, Repr

def LogChannel.label : LogChannel → String
  | lexer => "language.lexer"
  | parser => "language.parser"
  | context => "runtime.context"
  | vars => "runtime.variables"
  | functions => "runtime.functions"
  | interpreter => "runtime.interpreter"
  | runner => "runtime.runner"
  | events => "core.events"
  | loader => "loader"
  | script => "script"

structure LogRecord where
  level : LogLevel
  channel : LogChannel
  message : String
deriving DecidableEq, Repr

end Parley
