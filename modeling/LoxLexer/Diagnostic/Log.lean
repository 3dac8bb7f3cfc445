import LoxLexer.Diagnostic

/-!
# The log of diagnostics

A log holds diagnostics in the order in which they were reported, until it is cleared. It is seen
through `Log.toList`: reporting appends to that list and clearing empties it.
-/

namespace LoxLexer

/-- The diagnostics reported so far, oldest first. -/
structure Log where
  entries : Array Diagnostic := #[]
  deriving DecidableEq

namespace Log

def empty : Log := {}

def toList (log : Log) : List Diagnostic :=
  log.entries.toList

def report (log : Log) (line : Nat) (message : String) : Log :=
  { log with entries := log.entries.push { line, message } }

def clear (_log : Log) : Log := empty

def count (log : Log) : Nat :=
  log.entries.size

def hadError (log : Log) : Bool :=
  !log.entries.isEmpty

@[simp] theorem toList_empty : empty.toList = [] := rfl

@[simp] theorem toList_report (log : Log) (line : Nat) (message : String) :
    (log.report line message).toList = log.toList ++ [{ line := line, message := message }] := by
  simp [report, toList]

@[simp] theorem toList_clear (log : Log) : log.clear.toList = [] := rfl

theorem count_eq_length (log : Log) : log.count = log.toList.length := by
  simp [count, toList]

theorem hadError_iff (log : Log) : log.hadError = true ↔ log.toList ≠ [] := by
  simp [hadError, toList]

theorem toList_inj {a b : Log} (h : a.toList = b.toList) : a = b := by
  cases a; cases b; simpa [toList, Array.toList_inj] using h

end Log

end LoxLexer
