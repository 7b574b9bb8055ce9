import Std.Data.TreeSet
import UriTemplate.Match.Cursor
import UriTemplate.Match.Split
import UriTemplate.Value.Basic

/-!
# Recovering variables from a URI

Expansion can be undone in more than one way, so the parts of a template are read off a URI by a
depth-first search. Literals match where they stand; an expression tries its choices in order and
keeps the first that lets the parts behind it consume the rest of the URI and whose span can be split.

* `Expression.choices`   where an expression may end: longer spans first, absence last;
* `search`               the search itself. It looks ahead to the part behind an expression, and it
                         remembers the expressions and positions from which it failed, so that no
                         such pair is searched twice;
* `recover?`             the variables of a whole URI.
-/

namespace UriTemplate

/-- one way to read an expression at a cursor -/
structure Choice where
  /-- where its span starts, behind the operator's first character; none if it is absent -/
  start : Option Cursor
  /-- where the parts behind it start -/
  stop : Cursor
deriving DecidableEq, Repr

/-- The choices of an expression at a cursor. Only an expression whose operator has a first character
can be absent, and it is where that character is not found. `required` rules out the empty span. -/
def Expression.choices (e : Expression) (required : Bool) (c : Cursor) : List Choice :=
  let r := e.operator.row
  match c.skip? r.first with
  | none => [⟨none, c⟩]
  | some start =>
    let ends := (spanEnds r start).reverse.filter fun stop => !(required && stop.pos == start.pos)
    ends.map (⟨some start, ·⟩) ++ if r.first.isSome then [⟨none, c⟩] else []

/-- the values that a choice gives to the variables; an absent expression binds none -/
def Expression.valuesOf? (e : Expression) (ch : Choice) : Option Params :=
  match ch.start with
  | none => some .empty
  | some start => e.split? (start.textTo ch.stop)

/-- A last expression without a first character has a span that is not empty, unless it shares its
text with an expression in front of it. -/
def Expression.isRequired (e : Expression) (behind : List Part) (afterExpression : Bool) : Bool :=
  e.operator.row.first.isNone && behind.isEmpty && !afterExpression

/-- whether the parts may begin at a cursor, as far as the first of them tells -/
def mayFollow (c : Cursor) : List Part → Bool
  | [] => c.atEnd
  | .literal t :: _ => (c.literal? t).isSome
  | .expression _ :: _ => true

/-! ### remembered failures -/

def compareFirst (a b : Nat × Nat) : Ordering := compare a.1 b.1

def compareSecond (a b : Nat × Nat) : Ordering := compare a.2 b.2

/-- the pairs of an expression, by the number of parts behind it, and a position that are known to
fail -/
abbrev Failures := Std.TreeSet (Nat × Nat) (compareLex compareFirst compareSecond)

instance : Std.TransCmp compareFirst := inferInstanceAs (Std.TransCmp (compareOn Prod.fst))

instance : Std.TransCmp compareSecond := inferInstanceAs (Std.TransCmp (compareOn Prod.snd))

theorem Failures.contains_empty (k : Nat × Nat) : (∅ : Failures).contains k = false := by simp

theorem Failures.contains_insert (known : Failures) (k l : Nat × Nat) :
    (known.insert k).contains l = (k = l || known.contains l) := by
  rw [Std.TreeSet.contains_insert]
  congr 1
  rw [Bool.eq_iff_iff]
  simp [compareLex, compareFirst, compareSecond, Prod.ext_iff]

/-! ### the search -/

/-- The first choice that works, where `next` reads the parts behind the expression. -/
def firstChoice (e : Expression) (behind : List Part)
    (next : Cursor → Failures → Option Params × Failures) :
    List Choice → Failures → Option Params × Failures
  | [], known => (none, known)
  | ch :: chs, known =>
    if ch.start.isSome && !mayFollow ch.stop behind then firstChoice e behind next chs known
    else
      match next ch.stop known with
      | (none, known) => firstChoice e behind next chs known
      | (some rest, known) =>
        match e.valuesOf? ch with
        | none => firstChoice e behind next chs known
        | some values => (some (values.orElse rest), known)

/-- Reads parts at a cursor, up to the end of the URI. Of a name with several values, the one of the
earliest expression stays. -/
def search : List Part → (afterExpression : Bool) → Cursor → Failures → Option Params × Failures
  | [], _, c, known => (if c.atEnd then some .empty else none, known)
  | .literal t :: ps, _, c, known =>
    match c.literal? t with
    | none => (none, known)
    | some c => search ps false c known
  | .expression e :: ps, after, c, known =>
    if known.contains (ps.length, c.pos) then (none, known)
    else
      match firstChoice e ps (search ps true) (e.choices (e.isRequired ps after) c) known with
      | (some params, known) => (some params, known)
      | (none, known) => (none, known.insert (ps.length, c.pos))

/-- the variables that a URI gives to the parts, or nothing if no reading consumes it -/
def recover? (ps : List Part) (uri : Text) : Option Params :=
  (search ps false (.start uri) ∅).1

/-- a URI that a template matches -/
structure Match where
  /-- the text of the template -/
  template : Text
  params : Params
deriving DecidableEq, Repr

def Template.recover? (t : Template) (uri : Text) : Option Match :=
  (UriTemplate.recover? t.parts uri).map fun params => ⟨t.source, params⟩

/-- recovered values as values to expand with -/
def Recovered.toValue : Recovered → Value
  | text t => .text t
  | items ts => .list (ts.map .text)

def Params.toBindings (p : Params) : Bindings := ⟨p.entries.map fun e => (e.1, e.2.toValue)⟩

end UriTemplate
