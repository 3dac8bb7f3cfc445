/-!
# Diagnostics

A diagnostic says what is wrong on which line of a text. The only thing that can be wrong with the
characters of a text is that one of them is outside the alphabet (`LexicalError`).
-/

namespace LoxLexer

inductive LexicalError
  | unexpectedCharacter (c : Char)
  deriving DecidableEq, Repr

def LexicalError.message : LexicalError → String
  | unexpectedCharacter c => "Unexpected character: " ++ String.singleton c

structure Diagnostic where
  line : Nat
  message : String
  deriving DecidableEq, Repr

def Diagnostic.display (d : Diagnostic) : String :=
  "[line " ++ Nat.repr d.line ++ "] Error: " ++ d.message

end LoxLexer
