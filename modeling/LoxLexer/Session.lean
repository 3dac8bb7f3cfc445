import LoxLexer.Scan

/-!
# Sessions on one log

A session is a list of steps that share one log of diagnostics: texts are scanned, messages are
reported by hand and the log is cleared. After each step the session shows a snapshot.
-/

namespace LoxLexer.Session

inductive Step
  | scan (text : String)
  | report (line : Nat) (message : String)
  | clear
  deriving DecidableEq, Repr

/-- What a session shows after a step: the tokens, if the step was a scan, and the log. -/
structure Snapshot where
  tokens? : Option (List Token)
  log : Log

def Snapshot.listing? (s : Snapshot) : Option (List String) :=
  s.tokens?.map (·.map Token.display)

def Snapshot.diagnostics (s : Snapshot) : List String :=
  s.log.toList.map Diagnostic.display

/-- What follows a step taken on a log. -/
def Step.perform (log : Log) : Step → Snapshot
  | scan text =>
    let result := LoxLexer.scan {} text log
    { tokens? := some result.tokens, log := result.log }
  | report line message => { tokens? := none, log := log.report line message }
  | clear => { tokens? := none, log := log.clear }

/-- The snapshots after each of the steps taken in order, the first of them on `log`. -/
def run (log : Log) : List Step → List Snapshot
  | [] => []
  | step :: rest =>
    let snapshot := step.perform log
    snapshot :: run snapshot.log rest

@[simp] theorem length_run (log : Log) (steps : List Step) :
    (run log steps).length = steps.length := by
  induction steps generalizing log with
  | nil => rfl
  | cons step rest ih => simp [run, ih]

end LoxLexer.Session
