import UriTemplate.Expansion
import UriTemplate.Match.Search

/-!
# Resources

A resource is a template for the URIs of a family of documents, with some texts about them. Any of its
fields may be assigned later, to any text or to none.

* `Resource.get`, `Resource.set`   the fields, by name;
* `Resource.parsed`                the parsed template. It is kept and used again as long as its
                                   source is the text that the field holds.
-/

namespace UriTemplate

inductive Field where
  | uriTemplate
  | name
  | title
  | description
  | mimeType
deriving DecidableEq, Repr

def Field.all : List Field := [uriTemplate, name, title, description, mimeType]

structure Resource where
  uriTemplate : Option Text
  name : Option Text
  title : Option Text
  description : Option Text
  mimeType : Option Text
  /-- the last template that was parsed -/
  cached : Option Template
deriving DecidableEq, Repr

inductive ResourceError where
  /-- the field for the template holds no text -/
  | noTemplate
  | malformed (e : ParseError)
  /-- a value to expand with has no text -/
  | value (e : TextError)
deriving DecidableEq, Repr

/-- the wording, where there is one -/
def ResourceError.message? : ResourceError → Option Text
  | noTemplate => some "'NoneType' object is not iterable".toList
  | malformed e => some e.message
  | value e => e.message?

namespace Resource

def get (r : Resource) : Field → Option Text
  | .uriTemplate => r.uriTemplate
  | .name => r.name
  | .title => r.title
  | .description => r.description
  | .mimeType => r.mimeType

/-- a resource with these fields -/
def ofFields (f : Field → Option Text) : Resource where
  uriTemplate := f .uriTemplate
  name := f .name
  title := f .title
  description := f .description
  mimeType := f .mimeType
  cached := none

def set (r : Resource) (field : Field) (value : Option Text) : Resource :=
  match field with
  | .uriTemplate => { r with uriTemplate := value }
  | .name => { r with name := value }
  | .title => { r with title := value }
  | .description => { r with description := value }
  | .mimeType => { r with mimeType := value }

theorem get_ofFields (f : Field → Option Text) (x : Field) : (ofFields f).get x = f x := by
  cases x <;> rfl

theorem get_set_self (r : Resource) (x : Field) (v : Option Text) : (r.set x v).get x = v := by
  cases x <;> rfl

theorem get_set_of_ne {x y : Field} (r : Resource) (v : Option Text) (h : y ≠ x) :
    (r.set x v).get y = r.get y := by
  cases x <;> cases y <;> first | rfl | exact absurd rfl h

/-! ### the template -/

/-- parses the field anew -/
def reparse (r : Resource) : Except ResourceError Template × Resource :=
  match r.uriTemplate with
  | none => (.error .noTemplate, r)
  | some source =>
    match parse source with
    | .ok t => (.ok t, { r with cached := some t })
    | .error e => (.error (.malformed e), r)

/-- the parsed template, and the resource that keeps it -/
def parsed (r : Resource) : Except ResourceError Template × Resource :=
  match r.cached with
  | some t => if r.uriTemplate = some t.source then (.ok t, r) else r.reparse
  | none => r.reparse

def expand (r : Resource) (b : Bindings) : Except ResourceError Text × Resource :=
  let (t, r) := r.parsed
  (t.bind fun t => (UriTemplate.expand t.parts b).mapError .value, r)

def recover (r : Resource) (uri : Text) : Except ResourceError (Option Match) × Resource :=
  let (t, r) := r.parsed
  (t.map fun t => t.recover? uri, r)

end Resource
end UriTemplate
