/-!
# Texts and their characters

A text is a list of characters, so lengths, positions and cuts count characters. Here are the
classes of characters that URIs are made of:

* `isUnreserved`, `isReserved`   the two ASCII classes that an expansion may leave as they are;
* `isHexDigit`, `hexValue`       the digits of a `%XX` triplet, in either case;
* `hexDigit`                     the digit that is written for a value, in upper case.
-/

namespace UriTemplate

/-- A text is a list of characters. -/
abbrev Text := List Char

def isAscii (c : Char) : Bool := c.toNat < 128

/-- letters, digits and `-._~`: never in need of an escape -/
def isUnreserved (c : Char) : Bool := c.isAlphanum || ['-', '.', '_', '~'].contains c

/-- the delimiters of URIs: kept only where an expansion may contain URI structure -/
def isReserved (c : Char) : Bool :=
  [':', '/', '?', '#', '[', ']', '@', '!', '$', '&', '\'', '(', ')', '*', '+', ',', ';', '='].contains c

/-! ### hexadecimal digits -/

def isHexDigit (c : Char) : Bool :=
  let n := c.toNat
  (48 ≤ n && n ≤ 57) || (65 ≤ n && n ≤ 70) || (97 ≤ n && n ≤ 102)

/-- the value of a hexadecimal digit -/
def hexValue (c : Char) : Nat :=
  let n := c.toNat
  if n ≤ 57 then n - 48 else if n ≤ 70 then n - 55 else n - 87

/-- the digit of a value below sixteen, in upper case -/
def hexDigit (n : Nat) : Char := if n < 10 then Char.ofNat (48 + n) else Char.ofNat (55 + n)

/-- the same digit in lower case -/
def hexDigitLower (n : Nat) : Char := if n < 10 then Char.ofNat (48 + n) else Char.ofNat (87 + n)

theorem hexValue_hexDigit : ∀ n, n < 16 → hexValue (hexDigit n) = n := by decide

theorem isHexDigit_hexDigit : ∀ n, n < 16 → isHexDigit (hexDigit n) = true := by decide

theorem hexValue_lt {c : Char} (h : isHexDigit c = true) : hexValue c < 16 := by
  simp only [isHexDigit, Bool.or_eq_true, Bool.and_eq_true, decide_eq_true_eq] at h
  simp only [hexValue]
  split
  · omega
  · split <;> omega

end UriTemplate
