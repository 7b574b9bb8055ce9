import UriTemplate.Text.Classes

/-!
# Quoted texts

How a text or a list of bytes is shown inside a message or a composite value: between quotes, with
a backslash before the quote, the backslash and what cannot be printed. The single quote is used
unless the content has a single quote and no double one.
-/

namespace UriTemplate

/-- the last `width` hexadecimal digits of a number, in lower case -/
def hexPadded : Nat → Nat → Text
  | 0, _ => []
  | width + 1, n => hexPadded width (n / 16) ++ [hexDigitLower (n % 16)]

namespace Quoted

/-- the quote that encloses a content with or without single and double quotes -/
def mark (single double : Bool) : Char := if single && !double then '\"' else '\''

/-- the letter after the backslash, for the characters that have one -/
def letter? (c : Char) : Option Char :=
  if c = '\t' then some 't' else if c = '\n' then some 'n' else if c = '\r' then some 'r' else none

/-- a number after the backslash, in the shortest of the three forms that holds it -/
def coded (n : Nat) : Text :=
  if n < 0x100 then '\\' :: 'x' :: hexPadded 2 n
  else if n < 0x10000 then '\\' :: 'u' :: hexPadded 4 n
  else '\\' :: 'U' :: hexPadded 8 n

def char (quote c : Char) : Text :=
  if c = quote || c = '\\' then ['\\', c]
  else match letter? c with
    | some l => ['\\', l]
    | none => if isPrintable c then [c] else coded c.toNat

/-- a text in quotes -/
def text (t : Text) : Text :=
  let quote := mark (t.contains '\'') (t.contains '\"')
  quote :: (t.flatMap (char quote) ++ [quote])

/-! ### bytes -/

/-- a byte, with a backslash before the characters in `guarded`; ASCII only is printable -/
def byte (guarded : Text) (b : UInt8) : Text :=
  let c := Char.ofNat b.toNat
  if guarded.contains c then ['\\', c]
  else match letter? c with
    | some l => ['\\', l]
    | none => if 0x20 ≤ b.toNat && b.toNat < 0x7F then [c] else coded b.toNat

def bytesMark (bs : List UInt8) : Char := mark (bs.contains 0x27) (bs.contains 0x22)

/-- a byte string: the letter `b` and the bytes in quotes -/
def bytes (bs : List UInt8) : Text :=
  let quote := bytesMark bs
  'b' :: quote :: (bs.flatMap (byte [quote, '\\']) ++ [quote])

/-- a byte string in which every single quote is escaped, whatever the enclosing quote -/
def guardedBytes (bs : List UInt8) : Text :=
  let quote := bytesMark bs
  'b' :: quote :: (bs.flatMap (byte ['\'', '\\']) ++ [quote])

end Quoted
end UriTemplate
