import UriTemplate.Value.Basic

/-!
# Values as keys

Keys of a map are compared by `sameKey`: texts and bytes by content, tuples item by item, and numbers
(truth values count as 0 and 1) by their mathematical value, whatever their kind. What is not a
number equals no key, not even itself.

* `ofEntries`     the map of a list of entries: the first of several equal keys stays, the last value
                  wins;
* `notAKey?`      why a value cannot be a key: lists, maps and lists of bytes may change, and so may
                  a tuple that holds one.
-/

namespace UriTemplate

/-- the mathematical value of a number, as far as keys tell numbers apart -/
inductive Quantity where
  | integer (n : Int)
  | other (x : Binary64)
deriving DecidableEq, Repr

namespace Value

def quantity? : Value → Option Quantity
  | bool b => some (.integer (if b then 1 else 0))
  | int n => some (.integer n)
  | float .nan => none
  | float x => some (match x.toInt? with | some n => .integer n | none => .other x)
  | _ => none

mutual

def sameKey : Value → Value → Bool
  | null, null => true
  | text s, text t => s = t
  | bytes s, bytes t => s = t
  | tuple vs, tuple ws => sameKeys vs ws
  | v, w =>
    match v.quantity?, w.quantity? with
    | some x, some y => x = y
    | _, _ => false

def sameKeys : List Value → List Value → Bool
  | [], [] => true
  | v :: vs, w :: ws => sameKey v w && sameKeys vs ws
  | _, _ => false

end

def ofEntries (es : List (Value × Value)) : Value :=
  map (es.foldl (fun t e => Table.insertBy sameKey e.1 e.2 t) [])

/-- the entry of a map under a text -/
def find? (es : List (Value × Value)) (key : Text) : Option Value :=
  (es.find? fun e => sameKey e.1 (text key)).map Prod.snd

/-- the kinds of values that may change, and so are no keys -/
inductive Mutable where
  | list
  | map
  | byteList
deriving DecidableEq, Repr

mutual

/-- the first part of a value that may change -/
def notAKey? : Value → Option Mutable
  | list _ => some .list
  | map _ => some .map
  | byteList _ => some .byteList
  | tuple vs => notKeys? vs
  | _ => none

def notKeys? : List Value → Option Mutable
  | [] => none
  | v :: vs => (notAKey? v).or (notKeys? vs)

end
end Value
end UriTemplate
