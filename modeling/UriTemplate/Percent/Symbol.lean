import UriTemplate.Text.Utf8

/-!
# The symbols of a percent-encoded text

A symbol is a `%XX` triplet or a single character. A text is read from left to right: a `%` with two
hexadecimal digits behind it begins a triplet, every other character (a bare `%` too) is a symbol of
its own.

* `symbols`        the symbols of a text;
* `symbols_text`   nothing is lost: the texts of the symbols make up the text;
* `decodedBytes`   the bytes that a text stands for, a triplet for its byte and a character for its
                   encoding.
-/

namespace UriTemplate.Percent

inductive Symbol where
  | triplet (hi lo : Char)
  | plain (c : Char)
deriving DecidableEq, Repr

namespace Symbol

def text : Symbol → Text
  | triplet hi lo => ['%', hi, lo]
  | plain c => [c]

/-- the number of characters it takes -/
def width (s : Symbol) : Nat := s.text.length

def bytes : Symbol → List UInt8
  | triplet hi lo => [UInt8.ofNat (16 * hexValue hi + hexValue lo)]
  | plain c => Utf8.encodeChar c

end Symbol

/-- whether the text begins with a triplet -/
def startsTriplet : Text → Bool
  | '%' :: hi :: lo :: _ => isHexDigit hi && isHexDigit lo
  | _ => false

def isTripletAt (t : Text) (i : Nat) : Bool := startsTriplet (t.drop i)

/-- the first symbol, and the text behind it -/
def readSymbol? : Text → Option (Symbol × Text)
  | [] => none
  | '%' :: hi :: lo :: t =>
    if isHexDigit hi && isHexDigit lo then some (.triplet hi lo, t)
    else some (.plain '%', hi :: lo :: t)
  | c :: t => some (.plain c, t)

/-- the symbol at a position, and the position behind it; nothing at the end of the text -/
def symbolAt? (t : Text) (i : Nat) : Option (Symbol × Nat) :=
  (readSymbol? (t.drop i)).map fun r => (r.1, i + r.1.width)

def symbols : Text → List Symbol
  | [] => []
  | '%' :: hi :: lo :: t =>
    if isHexDigit hi && isHexDigit lo then .triplet hi lo :: symbols t
    else .plain '%' :: symbols (hi :: lo :: t)
  | c :: t => .plain c :: symbols t

def decodedBytes (t : Text) : List UInt8 := (symbols t).flatMap Symbol.bytes

/-! ### one symbol at a time -/

theorem symbols_nil : symbols [] = [] := rfl

/-- What is read first is the first of the symbols. -/
theorem symbols_eq_of_readSymbol {t r : Text} {s : Symbol} (h : readSymbol? t = some (s, r)) :
    symbols t = s :: symbols r := by
  unfold readSymbol? at h
  split at h
  · cases h
  · split at h <;> cases h <;> simp_all [symbols]
  · cases h
    rw [symbols]
    assumption

theorem text_of_readSymbol {t r : Text} {s : Symbol} (h : readSymbol? t = some (s, r)) :
    t = s.text ++ r := by
  unfold readSymbol? at h
  split at h
  · cases h
  · split at h <;> cases h <;> rfl
  · cases h; rfl

theorem symbols_text (t : Text) : (symbols t).flatMap Symbol.text = t := by
  fun_induction symbols t with
  | case1 => rfl
  | case2 hi lo t _ ih => simp [Symbol.text, ih]
  | case3 hi lo t _ ih => simp [Symbol.text, ih]
  | case4 c t _ ih => simp [Symbol.text, ih]

end UriTemplate.Percent
