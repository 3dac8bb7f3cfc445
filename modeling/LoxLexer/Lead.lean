import LoxLexer.Punctuator

/-!
# Leading characters

The first character of an element of the text says what the element can be. `Lead.ofChar` is the
whole alphabet of Lox punctuation in one table; what follows the first character matters only for
the classes `pairable` and `slash`.
-/

namespace LoxLexer

inductive Lead
  /-- The character is a whole punctuator. -/
  | alone (p : Punctuator)
  /-- The character is the punctuator `single`, or together with an equals sign after it `pair`. -/
  | pairable (single pair : Punctuator)
  /-- The character is a division sign, or together with another one after it opens a comment. -/
  | slash
  | blank
  | newline
  | unexpected
  deriving DecidableEq, Repr

/-- The class of a character that begins an element. -/
def Lead.ofChar (c : Char) : Lead :=
  match c with
  | '(' => .alone .leftParen
  | ')' => .alone .rightParen
  | '\x7b' => .alone .leftBrace
  | '\x7d' => .alone .rightBrace
  | ',' => .alone .comma
  | '.' => .alone .dot
  | '-' => .alone .minus
  | '+' => .alone .plus
  | ';' => .alone .semicolon
  | '*' => .alone .star
  | '!' => .pairable .bang .bangEqual
  | '=' => .pairable .equal .equalEqual
  | '<' => .pairable .less .lessEqual
  | '>' => .pairable .greater .greaterEqual
  | '/' => .slash
  | ' ' => .blank
  | '\r' => .blank
  | '\t' => .blank
  | '\n' => .newline
  | _ => .unexpected

end LoxLexer
