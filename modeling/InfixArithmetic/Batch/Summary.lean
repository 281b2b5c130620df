import InfixArithmetic.Record.Check
/-!
# The summary of a batch

How many expressions were evaluated, and how many of them failed.
-/

namespace InfixArithmetic.Batch

structure Summary where
  evaluated : Nat
  failed : Nat
  deriving DecidableEq

namespace Summary

def ok (s : Summary) : Bool :=
  s.failed == 0

def ofRecord (r : Record) : Checked Summary :=
  ((r.check "evaluated" Record.requiredCount).both (r.check "failed" Record.requiredCount)).map
    fun (evaluated, failed) => ⟨evaluated, failed⟩

end Summary

end InfixArithmetic.Batch
