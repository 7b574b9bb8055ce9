import UriTemplate.Record
import UriTemplate.Resource.Basic

/-!
# The wire form of resources

On the wire a resource is a map from names to texts. The template and the name have to be there, and
the template is parsed; the other fields may be absent or null. The rest is as for all records.

* `Field.declared`    what is declared of each field;
* `Resource.toWire`   the fields that hold a text, under their wire names;
* `Resource.ofWire`   the resource of a value, or every problem with it, one a field, in the order of
                      the fields.
-/

namespace UriTemplate

namespace Field

def wireName : Field → Text
  | uriTemplate => "uriTemplate".toList
  | name => "name".toList
  | title => "title".toList
  | description => "description".toList
  | mimeType => "mimeType".toList

/-- the name of the field itself, which is read as well -/
def ownName : Field → Text
  | uriTemplate => "uri_template".toList
  | mimeType => "mime_type".toList
  | f => f.wireName

def isRequired : Field → Bool
  | uriTemplate => true
  | name => true
  | _ => false

/-- what a field demands of its text -/
def check (f : Field) (t : Text) : Except ParseError Text :=
  if f = uriTemplate then (parse t).map fun _ => t else .ok t

/-- a field that has to be there may not be null -/
def declared (f : Field) : Declaration ParseError where
  wireName := f.wireName
  ownName := f.ownName
  required := f.isRequired
  nullable := !f.isRequired
  check := f.check

end Field

abbrev WireError := RecordError ParseError

def WireError.message (e : WireError) : Text :=
  e.problem.message "ResourceTemplate".toList ParseError.message

/-! ### writing and reading -/

def Resource.toWire (r : Resource) : List (Text × Text) :=
  Field.all.filterMap fun f => (r.get f).map fun t => (f.wireName, t)

def Resource.ofWire (v : Value) : Except (List WireError) Resource :=
  (readRecord Field.all Field.declared v).map ofFields

end UriTemplate
