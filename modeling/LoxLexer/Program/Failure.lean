import LoxLexer.Program.Output

/-!
# Failures of the program

Why a run of the program can end without success, with the wording and the exit status of each
reason. The statuses are the customary ones for wrong usage (64), wrong input (65) and failed
input or output (74).
-/

namespace LoxLexer

/-- Why a run of the program did not succeed. -/
inductive Failure
  | usage
  | unreadable (path cause : String)
  | io (cause : String)
  | scan (count : Nat)
  deriving DecidableEq, Repr

namespace Failure

def message : Failure → String
  | usage => "Usage: loxscan [script]"
  | unreadable path _ => "Could not read file \"" ++ path ++ "\"."
  | io cause => "I/O error: " ++ cause
  | scan count => Nat.repr count ++ " error(s) while scanning."

def exitStatus : Failure → Nat
  | usage => 64
  | unreadable _ _ => 74
  | io _ => 74
  | scan _ => 65

/-- The wording of what lies behind a failure. -/
def cause? : Failure → Option String
  | usage => none
  | unreadable _ cause => some cause
  | io cause => some cause
  | scan _ => none

/-- What the program writes when it fails. The diagnostics of a scan have been written line by line
before, so nothing is added to them. -/
def output : Failure → Output
  | scan _ => {}
  | failure => { stderr := Output.lines [failure.message] }

def notText : String := "stream did not contain valid UTF-8"

end Failure

structure Outcome where
  status : Nat
  output : Output
  deriving DecidableEq, Repr

namespace Outcome

def success (output : Output) : Outcome :=
  { status := 0, output }

def failed (output : Output) (failure : Failure) : Outcome :=
  { status := failure.exitStatus, output := output ++ failure.output }

end Outcome

end LoxLexer
