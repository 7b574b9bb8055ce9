import UriTemplate.Text.Utf8
import UriTemplate.Value.Key

/-!
# Reading records

How a record is read from a dynamic value by the declarations of its fields. These rules belong to the
library that does the reading and are taken as it documents them; what a program adds are its own
declarations (`Declaration`).

* lookup (`Declaration.find?`)    a field is given under its wire name or, failing that, under its own
                                  name; all other keys are ignored;
* text (`Value.asText`)           the text of a field is a text, or bytes that spell one in UTF-8;
* null (`Declaration.ofValue`)    a null is for fields that may be null; behind every other value
                                  stands a text, which the field's own check may still reject;
* presence (`Declaration.read`)   a field that has to be there is missed under its wire name, any
                                  other is null where it is absent;
* collection (`readRecord`)       all fields are read, and what is wrong is told together, one error a
                                  field, in the order of the declarations. What is no map has no
                                  fields.
-/

namespace UriTemplate

/-- what is wrong with a value, where `ε` is why a check rejects a text -/
inductive Problem (ε : Type) where
  | notAMap
  | missing
  | notText
  | notUtf8
  | rejected (e : ε)
deriving DecidableEq, Repr

namespace Problem

/-- the kind of problem, in one word -/
def code {ε : Type} : Problem ε → Text
  | notAMap => "model_type".toList
  | missing => "missing".toList
  | notText => "string_type".toList
  | notUtf8 => "string_unicode".toList
  | rejected _ => "value_error".toList

/-- the wording, with the name of the record and the wording of its checks -/
def message {ε : Type} (record : Text) (ofCheck : ε → Text) : Problem ε → Text
  | notAMap => "Input should be a valid dictionary or instance of ".toList ++ record
  | missing => "Field required".toList
  | notText => "Input should be a valid string".toList
  | notUtf8 => "Input should be a valid string, unable to parse raw data as a unicode string".toList
  | rejected e => "Value error, ".toList ++ ofCheck e

end Problem

structure RecordError (ε : Type) where
  problem : Problem ε
  /-- the key at fault; none if it is the whole value -/
  key : Option Text
deriving DecidableEq, Repr

/-- what a program declares of a field -/
structure Declaration (ε : Type) where
  wireName : Text
  ownName : Text
  /-- whether the field has to be there -/
  required : Bool
  nullable : Bool
  /-- the text that is kept of a text, or why it is rejected -/
  check : Text → Except ε Text

section
variable {ε : Type}

/-- the text that a value is, or that its bytes spell -/
def Value.asText : Value → Except (Problem ε) Text
  | text t => .ok t
  | bytes bs => (Utf8.decode? bs).elim (.error .notUtf8) .ok
  | byteList bs => (Utf8.decode? bs).elim (.error .notUtf8) .ok
  | _ => .error .notText

namespace Declaration

/-- the key that a field is found under, with its value -/
def find? (d : Declaration ε) (es : List (Value × Value)) : Option (Text × Value) :=
  ((Value.find? es d.wireName).map fun v => (d.wireName, v)).or
    ((Value.find? es d.ownName).map fun v => (d.ownName, v))

/-- the text of a field from its value, or none for a null -/
def ofValue (d : Declaration ε) : Value → Except (Problem ε) (Option Text)
  | .null => if d.nullable then .ok none else .error .notText
  | v => do return some (← (d.check (← v.asText)).mapError .rejected)

def read (d : Declaration ε) (es : List (Value × Value)) :
    Except (RecordError ε) (Option Text) :=
  match d.find? es with
  | some (key, v) => (d.ofValue v).mapError fun p => ⟨p, some key⟩
  | none => if d.required then .error ⟨.missing, some d.wireName⟩ else .ok none

/-- what is wrong with a field, if something is -/
def error? (d : Declaration ε) (es : List (Value × Value)) : Option (RecordError ε) :=
  match d.read es with
  | .error e => some e
  | .ok _ => none

end Declaration

/-- The texts of all fields, or all that is wrong with them. -/
def readRecord {ι : Type} (fields : List ι) (declared : ι → Declaration ε) :
    Value → Except (List (RecordError ε)) (ι → Option Text)
  | .map es =>
    let errors := fields.filterMap fun f => (declared f).error? es
    if errors.isEmpty then .ok fun f => ((declared f).read es).toOption.join else .error errors
  | _ => .error [⟨.notAMap, none⟩]

end
end UriTemplate
