import UriTemplate.Percent.Symbol

/-!
# Percent-encoding and decoding

* `encode`    writes a text so that it may stand in a URI: a character outside the allowed class
              becomes the `%XX` escapes of its UTF-8 bytes, in upper case. Under `Allow.unreserved`
              that includes every `%`; under `Allow.reserved` the delimiters of URIs stay, and so do
              triplets that are there already.
* `decode?`   replaces escapes by the characters that they spell in UTF-8. Each maximal run of ASCII
              characters is decoded by itself and has to be whole: a character outside ASCII never
              completes a sequence that the escapes before it began. A `%` that begins no triplet
              stays.
-/

namespace UriTemplate.Percent

/-! ### encoding -/

/-- what an expansion may leave as it is -/
inductive Allow where
  | unreserved
  | reserved
deriving DecidableEq, Repr

def Allow.keeps : Allow → Char → Bool
  | unreserved, c => isUnreserved c
  | reserved, c => isUnreserved c || isReserved c

def escape (b : UInt8) : Text := ['%', hexDigit (b.toNat / 16), hexDigit (b.toNat % 16)]

def encodeChar (allow : Allow) (c : Char) : Text :=
  if allow.keeps c then [c] else (Utf8.encodeChar c).flatMap escape

/-- a symbol where delimiters may stay: its triplet as it is -/
def encodeSymbol : Symbol → Text
  | .triplet hi lo => ['%', hi, lo]
  | .plain c => encodeChar .reserved c

def encode : Allow → Text → Text
  | .unreserved, t => t.flatMap (encodeChar .unreserved)
  | .reserved, t => (symbols t).flatMap encodeSymbol

theorem encode_unreserved_append (s t : Text) :
    encode .unreserved (s ++ t) = encode .unreserved s ++ encode .unreserved t := by
  simp [encode]

example : encode .unreserved ['5', '%', '4', '1', '/'] =
    ['5', '%', '2', '5', '4', '1', '%', '2', 'F'] := by
  decide

example : encode .reserved ['5', '%', '4', '1', '%', '/'] =
    ['5', '%', '4', '1', '%', '2', '5', '/'] := by
  decide

/-! ### decoding -/

/-- the bytes of a `%` with the piece of text behind it, up to the next `%` -/
def pieceBytes : Text → List UInt8
  | hi :: lo :: t =>
    if isHexDigit hi && isHexDigit lo then
      UInt8.ofNat (16 * hexValue hi + hexValue lo) :: Utf8.encode t
    else 0x25 :: Utf8.encode (hi :: lo :: t)
  | t => 0x25 :: Utf8.encode t

/-- the bytes of a run, which is cut at every `%` -/
def runBytes (run : Text) : List UInt8 :=
  match run.splitOn '%' with
  | [] => []
  | front :: pieces => Utf8.encode front ++ pieces.flatMap pieceBytes

/-- whether two characters next to each other stand in one run -/
def sameRun (c d : Char) : Bool := isAscii c == isAscii d

/-- the text of a run: one of ASCII characters is decoded, any other stays -/
def decodeRun? (run : Text) : Option Text :=
  if run.all isAscii then Utf8.decode? (runBytes run) else some run

/-- the decoded text, or nothing if the bytes of a run are not UTF-8 -/
def decode? (t : Text) : Option Text := do
  return (← (t.splitBy sameRun).mapM decodeRun?).flatten

example : decode? ['%', 'C', '3', '%', 'a', '9', '%', 'z'] = some ['é', '%', 'z'] := by decide

example : decode? ['%', 'C', '3', 'é'] = none := by decide

end UriTemplate.Percent
