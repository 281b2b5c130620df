/-!
# The registry of loggers

Loggers are kept by name, so asking for a name gives the same logger every time. A new logger has
no handlers. Whoever asks for a logger without handlers sets it up: it gets its handler and its
level. A logger that has a handler is left as it is, whatever level is asked for.
-/

namespace InfixArithmetic.Log

def lineFormat : String :=
  "%(asctime)s [%(levelname)s] %(name)s: %(message)s"

def defaultLevel : Int := 20

def unsetLevel : Int := 0

structure Logger where
  name : String
  level : Int := unsetLevel
  handlers : List String := []
  deriving DecidableEq

namespace Logger

def new (name : String) : Logger where
  name := name

def setUp (logger : Logger) (level : Int) : Logger :=
  if logger.handlers.isEmpty then
    { logger with level, handlers := logger.handlers ++ [lineFormat] }
  else
    logger

end Logger

/-- The loggers in the order in which they were first asked for. -/
structure Registry where
  loggers : List Logger := []

namespace Registry

def place? (r : Registry) (name : String) : Option Nat :=
  r.loggers.findIdx? fun logger => logger.name == name

def enter (r : Registry) (name : String) : Nat × Registry :=
  match r.place? name with
  | some place => (place, r)
  | none => (r.loggers.length, ⟨r.loggers ++ [.new name]⟩)

/-- Asks for the logger of a name, at a level in case it has to be set up. The answer is its place
in the registry. -/
def request (r : Registry) (name : String) (level : Int := defaultLevel) : Nat × Registry :=
  let (place, r) := r.enter name
  (place, ⟨r.loggers.modify place (·.setUp level)⟩)

def get? (r : Registry) (place : Nat) : Option Logger :=
  r.loggers[place]?

end Registry

end InfixArithmetic.Log
