import Lumen.Text.Unprintable

/-! The quoted form of a text.

The text stands between double quotes. A double quote and a backslash are escaped,
tab, carriage return, line feed and the null character have short names, and every
other unprintable character is written by its number in lower-case hexadecimal. A
single quote stands for itself. -/
namespace Lumen.Text

/-- A code point as lower-case hexadecimal digits without padding. -/
def hexDigits (n : Nat) : List Char := Nat.toDigits 16 n

/-- What stands for a character between double quotes. -/
def escaped (c : Char) : List Char :=
  if c = '"' then ['\\', '"']
  else if c = '\\' then ['\\', '\\']
  else if c = '\t' then ['\\', 't']
  else if c = '\r' then ['\\', 'r']
  else if c = '\n' then ['\\', 'n']
  else if c = '\x00' then ['\\', '0']
  else if isUnprintable c then ['\\', 'u', '\x7b'] ++ hexDigits c.toNat ++ ['\x7d']
  else [c]

/-- A text between double quotes, with every character that needs it escaped. -/
def quoted (s : String) : String :=
  String.ofList ('"' :: s.toList.flatMap escaped ++ ['"'])

end Lumen.Text
