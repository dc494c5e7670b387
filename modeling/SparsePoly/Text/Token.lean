import SparsePoly.Error

/-!
# Tokens of a polynomial text

A polynomial text is made of signs, digits and lowercase letters. `Token.scan` cuts it into
tokens: each sign and each letter is one, and so is each run of digits as long as it goes. The
whole text is looked at before anything else happens, so a foreign character anywhere is what a
text is refused for, whatever else is wrong with it.
-/

namespace SparsePoly

/-- What a token says. -/
inductive Lexeme where
  /-- A plus, or a minus when `negative` holds. -/
  | sign (negative : Bool)
  /-- A run of decimal digits. -/
  | number (digits : List Char)
  /-- A lowercase letter. -/
  | letter (x : Char)
deriving DecidableEq, Repr

namespace Lexeme

/-- The lexeme that a single character makes, or `none` for a foreign character. -/
def ofChar? (c : Char) : Option Lexeme :=
  if c = '+' then some (.sign false)
  else if c = '-' then some (.sign true)
  else if c.isDigit then some (.number [c])
  else if c.isLower then some (.letter c)
  else none

/-- The text of a lexeme. -/
def text : Lexeme → List Char
  | sign false => ['+']
  | sign true => ['-']
  | number digits => digits
  | letter x => [x]

end Lexeme

/-- A lexeme and the position of its first character, counted in characters from zero. -/
structure Token where
  /-- The lexeme. -/
  lexeme : Lexeme
  /-- The position of its first character. -/
  position : Nat
deriving DecidableEq, Repr

namespace Token

/-- The token of the character that stands at a position. -/
def ofChar (c : Char) (position : Nat) : Except Error Token :=
  match Lexeme.ofChar? c with
  | some lexeme => .ok ⟨lexeme, position⟩
  | none => .error (.malformed position (.unexpectedCharacter c))

/-- Puts a token before others, making one number of two that touch. -/
def join (t : Token) : List Token → List Token
  | [] => [t]
  | u :: tokens =>
    match t.lexeme, u.lexeme with
    | .number digits, .number more => ⟨.number (digits ++ more), t.position⟩ :: tokens
    | _, _ => t :: u :: tokens

/-- The tokens of a text. Fails at the first foreign character. -/
def scan (text : List Char) : Except Error (List Token) := do
  let tokens ← text.zipIdx.mapM fun (c, position) => ofChar c position
  return tokens.foldr join []

end Token

end SparsePoly
