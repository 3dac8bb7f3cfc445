import LoxLexer.Lead
import LoxLexer.Token
import LoxLexer.Diagnostic.Log

/-!
# Scanning a text

A scan reads a text once from its first character to its last. It is a machine whose state holds
two byte offsets, the line, the tokens so far and the log it reports to; `Scan.step` is one
primitive move of it and `Scan.run` goes on until nothing is left to read.

Offsets count bytes of the UTF-8 form of the text, so that looking at a character and taking a
slice cost no more than their size.
-/

namespace LoxLexer

/-- How scans are carried out. With `trace`, every token is written out when it is recognised. -/
structure Options where
  trace : Bool := false

structure Scan where
  tokens : List Token
  log : Log
  /-- The lines written out while scanning. -/
  traced : List String

namespace Scan

/-! ## 1. States -/

inductive Phase
  /-- It stands between two elements. -/
  | ready
  /-- It has read `c`, which begins an element. -/
  | opened (c : Char)
  /-- It has read the whole of a punctuator and has not recorded it yet. -/
  | closed (p : Punctuator)
  | comment
  deriving DecidableEq, Repr

structure State where
  /-- Where the element being read begins. -/
  start : String.Pos.Raw
  /-- Where the next character is read. -/
  offset : String.Pos.Raw
  /-- The number of the line, counted from one. -/
  line : Nat
  phase : Phase
  tokens : Array Token
  log : Log
  traced : Array String

def State.initial (log : Log) : State :=
  { start := 0, offset := 0, line := 1, phase := .ready, tokens := #[], log, traced := #[] }

/-- The character at an offset, if the offset is not at the end of the text. -/
def peek? (text : String) (offset : String.Pos.Raw) : Option Char :=
  if offset.byteIdx < text.utf8ByteSize then offset.get? text else none

def State.take (st : State) (c : Char) (phase : Phase) : State :=
  { st with offset := st.offset + c, phase }

/-- Ends the element, so that the next one begins here. -/
def State.finish (st : State) : State :=
  { st with start := st.offset, phase := .ready }

/-- The slice of the text that the element covers so far. -/
def State.lexeme (text : String) (st : State) : String :=
  st.start.extract text st.offset

/-- Records a token, and writes it out if tokens are traced. -/
def State.record (options : Options) (st : State) (token : Token) : State :=
  { st with
    tokens := st.tokens.push token
    traced := if options.trace then st.traced.push token.trace else st.traced }

def State.report (st : State) (error : LexicalError) : State :=
  { st with log := st.log.report st.line error.message }

/-! ## 2. Moves -/

/-- The move that follows the first character of an element. -/
def classify (text : String) (st : State) (c : Char) : State :=
  match Lead.ofChar c with
  | .alone p => { st with phase := .closed p }
  | .pairable single pair =>
    if peek? text st.offset = some '=' then st.take '=' (.closed pair)
    else { st with phase := .closed single }
  | .slash =>
    if peek? text st.offset = some '/' then st.take '/' .comment
    else { st with phase := .closed .slash }
  | .blank => st.finish
  | .newline => { st.finish with line := st.line + 1 }
  | .unexpected => (st.report (.unexpectedCharacter c)).finish

/-- One primitive move. The newline after a comment is left to be read as an element of its own.
A scan that stands between two elements at the end of the text stays as it is. -/
def step (options : Options) (text : String) (st : State) : State :=
  match st.phase with
  | .ready =>
    match peek? text st.offset with
    | some c => st.take c (.opened c)
    | none => st
  | .opened c => classify text st c
  | .closed p =>
    (st.record options
      { kind := .punctuator p, lexeme := st.lexeme text, literal := none, line := st.line }).finish
  | .comment =>
    match peek? text st.offset with
    | some c => if c = '\n' then st.finish else st.take c .comment
    | none => st.finish

def State.halted (text : String) (st : State) : Bool :=
  match st.phase with
  | .ready => (peek? text st.offset).isNone
  | _ => false

/-! ## 3. Every scan ends -/

/-- How many moves can follow a phase before a character has to be read. -/
def Phase.rank : Phase → Nat
  | ready => 0
  | opened _ => 2
  | closed _ => 1
  | comment => 1

/-- A bound on the moves left: three for each byte that was not read, and those of the phase. -/
def State.movesLeft (text : String) (st : State) : Nat :=
  3 * (text.utf8ByteSize - st.offset.byteIdx) + st.phase.rank

theorem lt_of_peek?_eq_some {text : String} {offset : String.Pos.Raw} {c : Char}
    (h : peek? text offset = some c) : offset.byteIdx < text.utf8ByteSize := by
  unfold peek? at h
  split at h
  · assumption
  · cases h

theorem movesLeft_take_lt {text : String} {st : State} {c : Char} {phase : Phase}
    (h : peek? text st.offset = some c) (hrank : phase.rank < 3 + st.phase.rank) :
    (st.take c phase).movesLeft text < st.movesLeft text := by
  have hlt := lt_of_peek?_eq_some h
  have hpos := c.utf8Size_pos
  simp only [State.movesLeft, State.take, String.Pos.Raw.byteIdx_add_char]
  omega

theorem movesLeft_step_lt (options : Options) {text : String} {st : State}
    (h : ¬ st.halted text = true) : (step options text st).movesLeft text < st.movesLeft text := by
  cases hphase : st.phase with
  | ready =>
    cases hpeek : peek? text st.offset with
    | none => simp [State.halted, hphase, hpeek] at h
    | some c =>
      simp only [step, hphase, hpeek]
      exact movesLeft_take_lt hpeek (by simp [Phase.rank, hphase])
  | opened c =>
    simp only [step, hphase, classify]
    split
    · simp [State.movesLeft, Phase.rank, hphase]
    · split
      · rename_i hpeek
        exact movesLeft_take_lt hpeek (by simp [Phase.rank, hphase])
      · simp [State.movesLeft, Phase.rank, hphase]
    · split
      · rename_i hpeek
        exact movesLeft_take_lt hpeek (by simp [Phase.rank, hphase])
      · simp [State.movesLeft, Phase.rank, hphase]
    all_goals simp [State.movesLeft, State.finish, State.report, Phase.rank, hphase]
  | closed p =>
    simp [step, State.movesLeft, State.record, State.finish, Phase.rank, hphase]
  | comment =>
    cases hpeek : peek? text st.offset with
    | none =>
      simp [step, State.movesLeft, State.finish, Phase.rank, hphase, hpeek]
    | some c =>
      simp only [step, hphase, hpeek]
      split
      · simp [State.movesLeft, State.finish, Phase.rank, hphase]
      · exact movesLeft_take_lt hpeek (by simp [Phase.rank, hphase])

/-! ## 4. Whole scans -/

/-- Moves until everything has been read. -/
def run (options : Options) (text : String) (st : State) : State :=
  if st.halted text then st else run options text (step options text st)
termination_by st.movesLeft text
decreasing_by exact movesLeft_step_lt options ‹_›

end Scan

/-- Scans a text from its first line on, reporting to a log that may hold earlier diagnostics. -/
def scan (options : Options) (text : String) (log : Log) : Scan :=
  let last := Scan.run options text (.initial log)
  let eof : Token := { kind := .eof, lexeme := "", literal := none, line := last.line }
  { tokens := (last.tokens.push eof).toList
    log := last.log
    traced := last.traced.toList }

end LoxLexer
