import LoxLexer.Session
import LoxLexer.Proofs.Scan.Elements
import Mathlib.Data.List.DropRight

/-!
# What a session holds

The log of a session holds what the steps since the last clearing contributed, one after another,
and a scan contributes what it reports to an empty log (`run_held`). One step says how the log goes
on (`toList_perform`); the log after all steps follows by going through them from the first on
(`toList_logAfter`).
-/

namespace LoxLexer.Session

/-! ## 1. Contributions -/

/-- What a step adds to the log by itself. -/
def Step.contribution : Step → List Diagnostic
  | scan text => (LoxLexer.scan {} text .empty).log.toList
  | report line message => [{ line, message }]
  | clear => []

/-- The tokens that a step finds by itself, if it is a scan. -/
def Step.tokens? : Step → Option (List Token)
  | scan text => some (LoxLexer.scan {} text .empty).tokens
  | _ => none

/-- The steps after the last one that clears the log; all of them if none does. -/
def sinceClear (steps : List Step) : List Step :=
  steps.rtakeWhile (· ≠ .clear)

/-- What the steps since the last clearing contributed, in their order. -/
def held (steps : List Step) : List Diagnostic :=
  (sinceClear steps).flatMap Step.contribution

theorem held_concat (steps : List Step) (step : Step) :
    held (steps ++ [step]) = if step = .clear then [] else held steps ++ step.contribution := by
  rw [held, sinceClear, List.rtakeWhile_concat]
  by_cases hclear : step = .clear
  · simp [hclear]
  · simp [hclear, held, sinceClear, List.flatMap_append]

/-! ## 2. One step -/

-- A scan leaves what the log holds where it is, and does not look at it.
theorem scan_frame (options : Options) (text : String) (log : Log) :
    (scan options text log).tokens = (scan options text .empty).tokens
      ∧ (scan options text log).log.toList =
        log.toList ++ (scan options text .empty).log.toList := by
  constructor
  · rw [scan_tokens, scan_tokens]
  · rw [scan_log, scan_log, Log.toList_empty, List.nil_append]

theorem toList_perform (log : Log) (step : Step) :
    (step.perform log).log.toList =
      if step = .clear then [] else log.toList ++ step.contribution := by
  cases step with
  | scan text => exact (scan_frame {} text log).2
  | report line message => exact log.toList_report line message
  | clear => exact log.toList_clear

theorem tokens?_perform (log : Log) (step : Step) : (step.perform log).tokens? = step.tokens? := by
  cases step with
  | scan text => exact congrArg some (scan_frame {} text log).1
  | report line message => rfl
  | clear => rfl

/-! ## 3. All steps -/

def logAfter (log : Log) (steps : List Step) : Log :=
  steps.foldl (fun log step => (step.perform log).log) log

-- The snapshot of a step is taken on the log that the steps before it left.
theorem getElem?_run (log : Log) (before : List Step) (step : Step) (rest : List Step) :
    (run log (before ++ step :: rest))[before.length]? =
      some (step.perform (logAfter log before)) := by
  induction before generalizing log with
  | nil => rfl
  | cons first before ih =>
    rw [List.cons_append, run, List.length_cons, List.getElem?_cons_succ, ih]
    rfl

/-- **The log of a session** that begins with an empty log holds what was contributed since it was
cleared. -/
theorem toList_logAfter (steps : List Step) : (logAfter .empty steps).toList = held steps := by
  induction steps using List.reverseRecOn with
  | nil => rfl
  | append_singleton steps step ih =>
    have hlast : logAfter .empty (steps ++ [step]) =
        (step.perform (logAfter .empty steps)).log := by
      rw [logAfter, List.foldl_append]
      rfl
    rw [hlast, toList_perform, held_concat, ih]

/-- **Sessions.** After every step, the log holds what the steps since the last clearing contributed,
in their order; its count, its error flag and the diagnostics shown are those of this list. The
tokens of a step are those that it finds by itself. A step that does not clear the log keeps all
that was held before it. -/
theorem run_held (before : List Step) (step : Step) (rest : List Step) :
    ∃ snapshot, (run .empty (before ++ step :: rest))[before.length]? = some snapshot
      ∧ snapshot.log.toList = held (before ++ [step])
      ∧ snapshot.log.count = (held (before ++ [step])).length
      ∧ (snapshot.log.hadError = true ↔ held (before ++ [step]) ≠ [])
      ∧ snapshot.diagnostics = (held (before ++ [step])).map Diagnostic.display
      ∧ snapshot.tokens? = step.tokens?
      ∧ snapshot.listing? = step.tokens?.map (·.map Token.display)
      ∧ (step = .clear ∨ snapshot.log.toList = held before ++ step.contribution) := by
  have htokens := tokens?_perform (logAfter .empty before) step
  have hheld : (step.perform (logAfter .empty before)).log.toList = held (before ++ [step]) := by
    rw [toList_perform, toList_logAfter, held_concat]
  refine ⟨_, getElem?_run .empty before step rest, hheld, ?_, ?_, ?_, htokens, ?_, ?_⟩
  · rw [Log.count_eq_length, hheld]
  · rw [Log.hadError_iff, hheld]
  · rw [Snapshot.diagnostics, hheld]
  · rw [Snapshot.listing?, htokens]
  · by_cases hclear : step = .clear
    · exact .inl hclear
    · right
      rw [hheld, held_concat, if_neg hclear]

end LoxLexer.Session
