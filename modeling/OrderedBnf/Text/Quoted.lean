import OrderedBnf.Text.Printable

/-!
# Quoted text

The form in which trees and reports show a text: between double quotes, on
one line, and readable without knowing where it came from.

A quote, a backslash and the five commonest control characters are written
with a backslash. Any other character that is not printable is written by
its code point, and every printable one stands for itself.
-/

namespace OrderedBnf

namespace Quoted

/-- A code point in lower-case hexadecimal, between braces and without padding. -/
def codePoint (c : Char) : List Char :=
  "\\u\x7b".toList ++ Nat.toDigits 16 c.toNat ++ ['\x7d']

/-- A character as it is written between the quotes. -/
def char (c : Char) : List Char :=
  match c with
  | '"' => ['\\', '"']
  | '\\' => ['\\', '\\']
  | '\n' => ['\\', 'n']
  | '\r' => ['\\', 'r']
  | '\t' => ['\\', 't']
  | '\x00' => ['\\', '0']
  | c => if isPrintable c then [c] else codePoint c

/-- The characters of a text between quotes. -/
def chars (text : List Char) : List Char :=
  '"' :: text.flatMap char ++ ['"']

end Quoted

/-- A text between quotes, every character of it visible. -/
def quoted (text : String) : String := String.ofList (Quoted.chars text.toList)

/-- A list of texts, each between quotes. -/
def quotedList (texts : List String) : String :=
  "[" ++ ", ".intercalate (texts.map quoted) ++ "]"

example : quoted "a\"b'\n" = "\"a\\\"b'\\n\"" := by decide +kernel
example : quoted "\x1b\u0301é" = "\"\\u\x7b1b\x7d\\u\x7b301\x7dé\"" := by decide +kernel
example : quotedList ["a", "\\"] = "[\"a\", \"\\\\\"]" := by decide +kernel

end OrderedBnf
