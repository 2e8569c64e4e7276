/-!
# Logging

Levels of messages and the registry of loggers. A new logger takes the level set last; setting the
level changes every logger that exists.
-/
namespace WasmEngine
set_option autoImplicit false

/-- The importance of a message, least first; `off` is above every message. -/
inductive LogLevel where
  | trace
  | debug
  | info
  | warn
  | error
  | critical
  | off
  deriving DecidableEq, Inhabited

namespace LogLevel

def all : List LogLevel := [.trace, .debug, .info, .warn, .error, .critical, .off]

def name : LogLevel → String
  | .trace => "trace"
  | .debug => "debug"
  | .info => "info"
  | .warn => "warn"
  | .error => "error"
  | .critical => "critical"
  | .off => "off"

def ofName? (s : String) : Option LogLevel := all.find? (·.name == s)

def rank (l : LogLevel) : Nat := all.idxOf l

/-- A logger at level `l` shows a message of level `m`. -/
def shows (l m : LogLevel) : Bool := l.rank ≤ m.rank

end LogLevel

/-- The loggers created so far, by tag, and the level of the next one. -/
structure LogRegistry where
  level : LogLevel := .info
  loggers : List (String × LogLevel) := []
  deriving Inhabited

namespace LogRegistry

def loggerName (tag : String) : String := "glint." ++ tag

/-- Changes the level of all loggers, present and future. -/
def setLevel (level : LogLevel) (r : LogRegistry) : LogRegistry :=
  { level, loggers := r.loggers.map fun e => (e.1, level) }

/-- The registry with a logger for the tag; an existing one stays as it is. -/
def create (tag : String) (r : LogRegistry) : LogRegistry :=
  if (r.loggers.lookup tag).isSome then r
  else { r with loggers := r.loggers ++ [(tag, r.level)] }

end LogRegistry

end WasmEngine
