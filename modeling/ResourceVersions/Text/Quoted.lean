import ResourceVersions.Text.Printable

/-!
# Quoted text

A text is quoted with single quotes, or with double quotes if it holds a single quote and no
double one. The backslash and the surrounding quote are escaped, line feed, carriage return
and tab have letters of their own, and any other character that is not printable is written
as its code point in hexadecimal digits.
-/
namespace ResourceVersions.Text

def hexDigit (n : Nat) : Char := if n < 10 then Char.ofNat (48 + n) else Char.ofNat (87 + n)

/-- The last `width` hexadecimal digits of a number, in lower case. -/
def hex : (width : Nat) → Nat → List Char
  | 0, _ => []
  | width + 1, n => hex width (n / 16) ++ [hexDigit (n % 16)]

/-- The shortest of the escapes with two, four and eight digits that holds the code point. -/
def codePointEscape (c : Char) : List Char :=
  if c.toNat < 0x100 then '\\' :: 'x' :: hex 2 c.toNat
  else if c.toNat < 0x10000 then '\\' :: 'u' :: hex 4 c.toNat
  else '\\' :: 'U' :: hex 8 c.toNat

/-- How one character is written between the given quotes. -/
def quotedChar (quote c : Char) : List Char :=
  if c = quote ∨ c = '\\' then ['\\', c]
  else if c = '\n' then ['\\', 'n']
  else if c = '\r' then ['\\', 'r']
  else if c = '\t' then ['\\', 't']
  else if isPrintable c then [c]
  else codePointEscape c

/-- The double quote only for texts that hold a single quote and no double one. -/
def quoteFor (s : List Char) : Char :=
  if s.contains '\'' && !s.contains '"' then '"' else '\''

def quotedChars (s : List Char) : List Char :=
  quoteFor s :: (s.flatMap (quotedChar (quoteFor s)) ++ [quoteFor s])

def quoted (s : String) : String := String.ofList (quotedChars s.toList)

/-- Texts in brackets, as a quoted list. -/
def quotedList (xs : List String) : String := "[" ++ ", ".intercalate (xs.map quoted) ++ "]"

end ResourceVersions.Text
