import UriTemplate.Operator

/-!
# Reading a URI at a cursor

A cursor is a place in a text that is being read: what is left to read, and how many characters lie
before it. In a text `t` the cursor at `pos` has `t.drop pos` left; two cursors of one text differ in
both or in neither. What stands at a cursor is read in two ways.

* `Cursor.literal?`   literal text matches where it stands verbatim, and else where whole symbols of
                      the URI spell the same bytes: `%7E` in a template matches `~` in a URI, and the
                      other way round. `matchLiteral?` is the same at a position;
* `spanEnds`          the span of an expression, the text that its variables share, consists of
                      triplets, characters that the operator can produce, and characters outside
                      ASCII. It may end at the front itself and at every symbol boundary up to the
                      first symbol that no span contains, never inside a triplet.
-/

namespace UriTemplate

structure Cursor where
  pos : Nat
  rest : Text
deriving DecidableEq, Repr

namespace Cursor

def start (t : Text) : Cursor := ⟨0, t⟩

def advance (c : Cursor) (n : Nat) : Cursor := ⟨c.pos + n, c.rest.drop n⟩

def atEnd (c : Cursor) : Bool := c.rest.isEmpty

/-- the cursor behind a character, if that character comes next; behind none at all, the same one -/
def skip? (c : Cursor) : Option Char → Option Cursor
  | none => some c
  | some x => if c.rest.head? = some x then some (c.advance 1) else none

/-- the text from one cursor to a later one -/
def textTo (c d : Cursor) : Text := c.rest.take (d.pos - c.pos)

/-- A cursor that stands in a text. -/
def In (t : Text) (c : Cursor) : Prop := c.pos ≤ t.length ∧ c.rest = t.drop c.pos

theorem start_in (t : Text) : (start t).In t := ⟨Nat.zero_le _, rfl⟩

theorem eq_of_pos_eq {t : Text} {c d : Cursor} (hc : c.In t) (hd : d.In t) (h : c.pos = d.pos) :
    c = d := by
  cases c; cases d
  simp_all [In]

end Cursor

/-! ### literal text -/

/-- how many characters spell the given bytes, symbol by symbol -/
def spelledLength? : List UInt8 → Text → Option Nat
  | [], _ => some 0
  | _ :: _, [] => none
  | b :: bs, '%' :: hi :: lo :: t =>
    if isHexDigit hi && isHexDigit lo then
      if (Percent.Symbol.triplet hi lo).bytes = [b] then (spelledLength? bs t).map (· + 3) else none
    else if b = 0x25 then (spelledLength? bs (hi :: lo :: t)).map (· + 1)
    else none
  | bs, c :: t =>
    let unit := Utf8.encodeChar c
    if unit.isPrefixOf bs then (spelledLength? (bs.drop unit.length) t).map (· + 1) else none

/-- how many characters of a URI a literal takes at its front -/
def literalLength? (literal t : Text) : Option Nat :=
  if literal.isPrefixOf t then some literal.length
  else spelledLength? (Percent.decodedBytes literal) t

/-- the position behind a literal, if it matches at a position; past the end only no text matches -/
def matchLiteral? (literal uri : Text) (pos : Nat) : Option Nat :=
  (literalLength? literal (uri.drop pos)).map (pos + ·)

def Cursor.literal? (c : Cursor) (literal : Text) : Option Cursor :=
  (literalLength? literal c.rest).map c.advance

example : matchLiteral? ['~', 'x'] ['a', '%', '7', 'e', 'x'] 1 = some 5 := by decide

example : matchLiteral? ['é'] ['%', 'C', '3', '%', 'A', '9'] 0 = some 6 := by decide

/-! ### spans -/

/-- whether a span may contain the character as a symbol of its own -/
def Operator.Row.spans (r : Row) (c : Char) : Bool := r.matchable c || !isAscii c

def spanEndsFrom (r : Operator.Row) (pos : Nat) : Text → List Cursor
  | [] => [⟨pos, []⟩]
  | '%' :: hi :: lo :: t =>
    ⟨pos, '%' :: hi :: lo :: t⟩ ::
      if isHexDigit hi && isHexDigit lo then spanEndsFrom r (pos + 3) t else []
  | c :: t => ⟨pos, c :: t⟩ :: if r.spans c then spanEndsFrom r (pos + 1) t else []

/-- the cursors at which a span may end, in ascending order -/
def spanEnds (r : Operator.Row) (c : Cursor) : List Cursor := spanEndsFrom r c.pos c.rest

example : (spanEnds Operator.simple.row (.start ['a', '%', '4', '1', 'é', '/', 'b'])).map Cursor.pos
    = [0, 1, 4, 5] := by decide

end UriTemplate
