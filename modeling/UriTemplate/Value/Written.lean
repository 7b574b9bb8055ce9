import UriTemplate.Number
import UriTemplate.Text.Quoted
import UriTemplate.Text.Utf8
import UriTemplate.Value.Basic

/-!
# The text of a value

`Value.toText` is what an expansion writes for a scalar and for each item of a list or map: texts as
they are, truth values as `true` and `false`, bytes as the text that they spell in UTF-8. A value that
is itself composite is written in literal form (`Value.literal`), with brackets, quotes and commas.

Bytes that are not UTF-8 have no text, and neither has a value with an integer of more than
`maxDigits` digits in it, at any depth. The first of them is reported.
-/

namespace UriTemplate

/-- why a value has no text -/
inductive TextError where
  /-- bytes that are not UTF-8 -/
  | invalidUtf8
  /-- an integer of more digits than are written -/
  | oversizedInteger
deriving DecidableEq, Repr

/-- the wording; bytes that are not UTF-8 are reported without one -/
def TextError.message? : TextError → Option Text
  | invalidUtf8 => none
  | oversizedInteger => some (digitLimitExceeded [])

namespace Value

def commaSeparated (ts : List Text) : Text := [',', ' '].intercalate ts

/-- an integer in base ten, if it is not too long -/
def integerText (n : Int) : Except TextError Text :=
  if maxDigits < (natText n.natAbs).length then .error .oversizedInteger else .ok (intText n)

mutual

/-- the literal form of a value inside a composite one -/
def literal : Value → Except TextError Text
  | null => .ok ['N', 'o', 'n', 'e']
  | bool b => .ok (if b then ['T', 'r', 'u', 'e'] else ['F', 'a', 'l', 's', 'e'])
  | text t => .ok (Quoted.text t)
  | int n => integerText n
  | float x => .ok x.toText
  | list vs => do return '[' :: (commaSeparated (← literals vs) ++ [']'])
  | tuple [v] => do return '(' :: ((← literal v) ++ [',', ')'])
  | tuple vs => do return '(' :: (commaSeparated (← literals vs) ++ [')'])
  | map es => do return '{' :: (commaSeparated (← entryLiterals es) ++ ['}'])
  | bytes bs => .ok (Quoted.bytes bs)
  | byteList bs => .ok ("bytearray(".toList ++ Quoted.guardedBytes bs ++ [')'])

def literals : List Value → Except TextError (List Text)
  | [] => .ok []
  | v :: vs => do return (← literal v) :: (← literals vs)

def entryLiterals : List (Value × Value) → Except TextError (List Text)
  | [] => .ok []
  | (k, v) :: es => do
    return ((← literal k) ++ ':' :: ' ' :: (← literal v)) :: (← entryLiterals es)

end

/-- the text of a value, or why it has none -/
def toText : Value → Except TextError Text
  | bool b => .ok (if b then ['t', 'r', 'u', 'e'] else ['f', 'a', 'l', 's', 'e'])
  | text t => .ok t
  | bytes bs => (Utf8.decode? bs).elim (.error .invalidUtf8) .ok
  | v => v.literal

end Value
end UriTemplate
