import UriTemplate.Text.Basic
import UriTemplate.Table
import UriTemplate.Number

/-!
# Values

The values that a template is expanded with are dynamic: texts, numbers, lists, maps and bytes, in
any nesting. An expansion first looks at the shape of a value:

* `Value.shape`   undefined, a scalar, a list of items or a map of pairs. A null, an empty list and
                  an empty map are undefined; the empty text is not. Bytes are a scalar (they spell
                  a text), a list of bytes is a list of numbers.
-/

namespace UriTemplate

inductive Value where
  | null
  | bool (b : Bool)
  | text (t : Text)
  | int (n : Int)
  | float (x : Binary64)
  | list (items : List Value)
  | tuple (items : List Value)
  | map (entries : List (Value × Value))
  | bytes (bs : List UInt8)
  | byteList (bs : List UInt8)

inductive Shape where
  | undefined
  | scalar (v : Value)
  | items (vs : List Value)
  | pairs (es : List (Value × Value))

namespace Value

def shapeOfItems : List Value → Shape
  | [] => .undefined
  | vs => .items vs

def shape : Value → Shape
  | null => .undefined
  | list vs => shapeOfItems vs
  | tuple vs => shapeOfItems vs
  | byteList bs => shapeOfItems (bs.map fun b => int b.toNat)
  | map [] => .undefined
  | map es => .pairs es
  | v => .scalar v

end Value

/-- values by name -/
abbrev Bindings := Table Text Value

/-- the value of a name; a name without one is null -/
def Bindings.get (b : Bindings) (name : Text) : Value := (b.find? name).getD .null

/-- `b` with the bindings of `upper`, which win, nulls too -/
def Bindings.override (b upper : Bindings) : Bindings :=
  upper.entries.foldl (fun b e => b.insert e.1 e.2) b

end UriTemplate
