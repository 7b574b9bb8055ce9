import UriTemplate.Text.Basic

/-!
# UTF-8

The bytes of a text, and strict reading of bytes.

* `encode`    the bytes of a text;
* `charOf?`   the character that a list of bytes encodes, if it is the encoding of one;
* `decode?`   reads the shortest encoding of a character at the front, again and again. No
              encoding begins another one, so there is at most one way to read; overlong forms,
              surrogates and cut-off sequences are the encoding of nothing.
-/

namespace UriTemplate.Utf8

def encodeChar (c : Char) : List UInt8 := String.utf8EncodeChar c

def encode (t : Text) : List UInt8 := t.flatMap encodeChar

/-- the number in the payload bits of a lead byte and its continuation bytes -/
def payload : List UInt8 → Nat
  | [a] => a.toNat
  | [a, b] => a.toNat % 32 * 64 + b.toNat % 64
  | [a, b, c] => (a.toNat % 16 * 64 + b.toNat % 64) * 64 + c.toNat % 64
  | [a, b, c, d] => ((a.toNat % 8 * 64 + b.toNat % 64) * 64 + c.toNat % 64) * 64 + d.toNat % 64
  | _ => 0

/-- the character with this encoding -/
def charOf? (bs : List UInt8) : Option Char :=
  let c := Char.ofNat (payload bs)
  if encodeChar c = bs then some c else none

/-- the text with this encoding, or nothing if the bytes are the encoding of no text -/
def decode? : List UInt8 → Option Text
  | [] => some []
  | a :: s =>
    match charOf? [a] with
    | some x => (decode? s).map (x :: ·)
    | none =>
      match s with
      | [] => none
      | b :: s =>
        match charOf? [a, b] with
        | some x => (decode? s).map (x :: ·)
        | none =>
          match s with
          | [] => none
          | c :: s =>
            match charOf? [a, b, c] with
            | some x => (decode? s).map (x :: ·)
            | none =>
              match s with
              | [] => none
              | d :: s =>
                match charOf? [a, b, c, d] with
                | some x => (decode? s).map (x :: ·)
                | none => none

example : decode? [0x41, 0xC3, 0xA9, 0xF0, 0x9F, 0x98, 0x80] = some ['A', 'é', '😀'] := by decide

example : decode? [0xC0, 0x80] = none ∧ decode? [0xED, 0xA0, 0x80] = none ∧ decode? [0xC3] = none := by
  decide

end UriTemplate.Utf8
