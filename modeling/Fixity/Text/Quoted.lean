import Fixity.Text.Extending
import Fixity.Text.Unprintable

/-!
# Quoted text

Text in double quotes, as messages and outlines show it.  The quote and the
backslash are written after a backslash; the line feed, the carriage return, the
tab and the null character as a backslash and a letter or digit; and the other
characters that do not stand in print by themselves, because they leave nothing to
see or because they join the character before them, by their code point in
hexadecimal.  An apostrophe and every other character stand for themselves.
-/

namespace Fixity.Text

/-- Whether a character is written by its code point: an unprintable character, or a
mark that would join the character before it. -/
def needsCode (c : Char) : Bool := isUnprintable c || isExtending c

/-- The written form of one character between quotes. -/
def escape (c : Char) : List Char :=
  match c with
  | '"' => ['\\', '"']
  | '\\' => ['\\', '\\']
  | '\n' => ['\\', 'n']
  | '\r' => ['\\', 'r']
  | '\t' => ['\\', 't']
  | '\x00' => ['\\', '0']
  | c =>
    if needsCode c then ['\\', 'u', '\x7b'] ++ Nat.toDigits 16 c.toNat ++ ['\x7d'] else [c]

/-- **The quoted form of a text.** -/
def quoted (text : String) : String :=
  String.ofList ('"' :: text.toList.flatMap escape ++ ['"'])

/-- The quoted forms of several texts, as a list in brackets. -/
def quotedList (texts : List String) : String :=
  "[" ++ ", ".intercalate (texts.map quoted) ++ "]"

end Fixity.Text
