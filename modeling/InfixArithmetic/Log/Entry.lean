/-!
# Log entries

What a program tells about its progress, in the order in which it tells it.
-/

namespace InfixArithmetic.Log

inductive Level where
  | info
  | error
  deriving DecidableEq

def Level.name : Level → String
  | info => "INFO"
  | error => "ERROR"

structure Entry where
  level : Level
  message : String
  deriving DecidableEq

def Entry.render (e : Entry) : String :=
  e.level.name ++ ": " ++ e.message

end InfixArithmetic.Log
