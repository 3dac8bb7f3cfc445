import LoxLexer.Punctuator

/-!
# Tokens

A token has a kind, the slice of text that it was read from, a literal value and a line. It is
printed in two ways: `Token.display` for listings and `Token.trace` for traces.
-/

namespace LoxLexer

/-- The value that a literal token denotes. Punctuators and the end of the text denote nothing,
so there is no such value. -/
inductive Literal
  deriving DecidableEq

namespace Token

inductive Kind
  | punctuator (p : Punctuator)
  | eof
  deriving DecidableEq, Repr

namespace Kind

/-- Every kind once, the end of the text last. -/
def all : List Kind :=
  Punctuator.all.map punctuator ++ [eof]

/-- The name under which listings show a kind. -/
def name : Kind → String
  | punctuator p => p.name
  | eof => "EOF"

/-- The name under which traces show a kind. -/
def camelName : Kind → String
  | punctuator p => p.camelName
  | eof => "Eof"

def ofName? (name : String) : Option Kind :=
  all.find? (·.name = name)

theorem mem_all : ∀ k : Kind, k ∈ all
  | punctuator p => by simp [all, Punctuator.mem_all p]
  | eof => by simp [all]

end Kind

end Token

structure Token where
  kind : Token.Kind
  lexeme : String
  literal : Option Literal := none
  line : Nat
  deriving DecidableEq

namespace Token

/-- The text of a literal in a listing: an absent one is written out as such. -/
def displayLiteral : Option Literal → String
  | some literal => nomatch literal
  | none => "null"

theorem displayLiteral_eq (literal : Option Literal) : displayLiteral literal = "null" := by
  cases literal with
  | none => rfl
  | some literal => cases literal

def display (t : Token) : String :=
  t.kind.name ++ " " ++ t.lexeme ++ " " ++ displayLiteral t.literal

def traceLiteral : Option Literal → String
  | some literal => nomatch literal
  | none => "None"

theorem traceLiteral_eq (literal : Option Literal) : traceLiteral literal = "None" := by
  cases literal with
  | none => rfl
  | some literal => cases literal

/-- A token as traces show it: all four fields, each under its name. The lexeme stands between
quotation marks as it is, since no punctuator holds a character that would need escaping. -/
def trace (t : Token) : String :=
  "Token \x7b kind: " ++ t.kind.camelName ++ ", lexeme: \"" ++ t.lexeme ++ "\", literal: "
    ++ traceLiteral t.literal ++ ", line: " ++ Nat.repr t.line ++ " \x7d"

end Token

end LoxLexer
