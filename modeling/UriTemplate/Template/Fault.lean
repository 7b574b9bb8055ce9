import UriTemplate.Text.Quoted
import UriTemplate.Number

/-!
# What can be wrong with a template

A parse stops at the leftmost expression that is at fault. The error keeps the cause, the text that
was parsed and the position of the brace that opens the expression.
-/

namespace UriTemplate

inductive Fault where
  /-- no closing brace before the next opening one or the end -/
  | unclosed
  | emptyExpression
  | emptyName
  /-- the length is not a decimal from 1 to 9999, or the name is exploded as well -/
  | invalidLength (digits name : Text)
  /-- the length has more digits than numbers are read with -/
  | oversizedLength (count : Nat)
deriving DecidableEq, Repr

structure ParseError where
  fault : Fault
  template : Text
  position : Nat
deriving DecidableEq, Repr

namespace Fault

def describe : Fault → Text
  | unclosed => "Unclosed expression".toList
  | emptyExpression => "Empty expression".toList
  | emptyName => "Empty variable name".toList
  | invalidLength digits name =>
    "Invalid prefix length ".toList ++ Quoted.text digits ++ " for ".toList ++ Quoted.text name
  | oversizedLength count =>
    digitLimitExceeded (": value has ".toList ++ natText count ++ " digits".toList)

/-- whether it is a fault of the grammar, which is reported with its place -/
def isGrammatical : Fault → Bool
  | oversizedLength _ => false
  | _ => true

end Fault

def ParseError.message (e : ParseError) : Text :=
  if e.fault.isGrammatical then
    e.fault.describe ++ " at position ".toList ++ natText e.position ++ " in ".toList ++
      Quoted.text e.template
  else e.fault.describe

end UriTemplate
