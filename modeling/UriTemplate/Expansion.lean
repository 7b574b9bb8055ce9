import UriTemplate.Template.Parse
import UriTemplate.Value.Written

/-!
# Expansion

Each variable of an expression contributes pieces of text, and the pieces of all variables are joined
with the operator's separator behind its first character. An undefined variable contributes nothing,
and neither does a list or map under a length; without any piece the expression is empty.

* `Variable.render`   the pieces of a variable with a value;
* `expand`            the text of a list of parts.

It fails only on a value that has no text, and then at the first one.
-/

namespace UriTemplate

namespace Operator.Row

/-- a value in the form that the operator allows -/
def encode (r : Row) (t : Text) : Text := Percent.encode r.allow t

/-- a name with a value that is encoded already -/
def assign (r : Row) (name encoded : Text) : Text :=
  if encoded.isEmpty then name ++ r.ifEmpty else name ++ '=' :: encoded

/-- one value of a variable, under its name if the operator writes names -/
def item (r : Row) (name t : Text) : Text :=
  if r.named then r.assign name (r.encode t) else r.encode t

/-- one pair of an exploded map: a named operator writes the key as a name, without encoding it -/
def pair (r : Row) (k v : Text) : Text :=
  if r.named then r.assign k (r.encode v) else r.encode k ++ '=' :: r.encode v

/-- values that share one piece, separated by commas -/
def joined (r : Row) (name : Text) (ts : List Text) : Text :=
  let list := [','].intercalate (ts.map r.encode)
  if r.named then r.assign name list else list

end Operator.Row

def pairText (e : Value × Value) : Except TextError (Text × Text) := do
  return (← e.1.toText, ← e.2.toText)

/-- the pieces of a variable with a value; what is not rendered is not looked at -/
def Variable.render (r : Operator.Row) (x : Variable) (v : Value) :
    Except TextError (List Text) :=
  match v.shape, x.modifier with
  | .undefined, _ => .ok []
  | .scalar v, m => do return [r.item x.name (m.cut (← v.toText))]
  | .items _, .truncated _ => .ok []
  | .items vs, .exploded => do return (← vs.mapM Value.toText).map (r.item x.name)
  | .items vs, .whole => do return [r.joined x.name (← vs.mapM Value.toText)]
  | .pairs _, .truncated _ => .ok []
  | .pairs es, .exploded => do return (← es.mapM pairText).map fun p => r.pair p.1 p.2
  | .pairs es, .whole => do
    return [r.joined x.name ((← es.mapM pairText).flatMap fun p => [p.1, p.2])]

/-- pieces joined behind the first character; nothing at all without a piece -/
def Operator.Row.assemble (r : Row) (pieces : List Text) : Text :=
  if pieces.isEmpty then [] else r.first.toList ++ [r.sep].intercalate pieces

def Expression.expand (e : Expression) (b : Bindings) : Except TextError Text := do
  let pieces ← e.vars.mapM fun x => x.render e.operator.row (b.get x.name)
  return e.operator.row.assemble pieces.flatten

def Part.expand (b : Bindings) : Part → Except TextError Text
  | literal t => .ok t
  | expression e => e.expand b

/-- the text of the parts, or why the first value without a text has none -/
def expand (ps : List Part) (b : Bindings) : Except TextError Text := do
  return (← ps.mapM (Part.expand b)).flatten

/-! ### expanding with named overrides -/

inductive ExpansionError where
  /-- the name cannot be given as an override: an argument of the call has it -/
  | takenName (name : Text)
  /-- a value has no text -/
  | value (e : TextError)
deriving DecidableEq, Repr

/-- the wording, where there is one -/
def ExpansionError.message? : ExpansionError → Option Text
  | takenName name =>
    some ("UriTemplateExpander.expand() got multiple values for argument '".toList ++ name ++ ['\''])
  | value e => e.message?

/-- the names that are taken -/
def takenNames : List Text := ["self".toList, "variables".toList]

/-- Expands a template with bindings and named overrides, which win, nulls too. -/
def expandWith (t : Template) (b overrides : Bindings) : Except ExpansionError Text :=
  match overrides.keys.find? fun name => name ∈ takenNames with
  | some name => .error (.takenName name)
  | none => (expand t.parts (b.override overrides)).mapError .value

end UriTemplate
