/-
FieldedText/Text/Quoted.lean

Quotation of a text in a message: between double quotes, on one line, with
nothing in it that could be mistaken for something else.

A backslash, a double quote, and the four controls with a letter of their own
are written by that letter after a backslash; any other hidden character is
written by its code point in lower-case hexadecimal.
-/
import FieldedText.Text.Printable

namespace FieldedText.Text

/-- The lower-case hexadecimal digits of a number, as few as there are; where a fixed width is
asked for, zeros go before them. -/
def hexDigits (n : Nat) : Text := Nat.toDigits 16 n

/-- One character as it stands in a quotation. -/
def quotedChar (c : Char) : Text :=
  match c with
  | '\x00' => ['\\', '0']
  | '\t' => ['\\', 't']
  | '\r' => ['\\', 'r']
  | '\n' => ['\\', 'n']
  | '"' => ['\\', '"']
  | '\\' => ['\\', '\\']
  | _ => if isPrintable c then [c] else ['\\', 'u', '{'] ++ hexDigits c.toNat ++ ['}']

/-- A text between double quotes. -/
def quoted (text : Text) : Text := ['"'] ++ text.flatMap quotedChar ++ ['"']

end FieldedText.Text
