import UriTemplate.Operator
import UriTemplate.Number

/-!
# Templates

A template is a list of parts: literal text, and expressions that stand for the text of variables. An
expression has an operator and at least one variable; a variable may be truncated to a number of
characters or exploded into its items, not both.

* `Part.print`, `print`   the text of parts, with numbers in their plain form;
* `Template.names`        the names of the variables, each once, in order of first appearance.
-/

namespace UriTemplate

inductive Modifier where
  | whole
  | truncated (length : Nat)
  | exploded
deriving DecidableEq, Repr

structure Variable where
  name : Text
  modifier : Modifier
deriving DecidableEq, Repr

structure Expression where
  operator : Operator
  vars : List Variable
deriving DecidableEq, Repr

inductive Part where
  | literal (text : Text)
  | expression (e : Expression)
deriving DecidableEq, Repr

structure Template where
  /-- the text that was parsed -/
  source : Text
  parts : List Part
deriving DecidableEq, Repr

/-- the greatest length that a variable may be truncated to -/
def maxLength : Nat := 9999

namespace Modifier

/-- the characters of a value that the modifier lets through -/
def cut : Modifier → Text → Text
  | truncated n, t => t.take n
  | _, t => t

end Modifier

def Variable.isExploded (v : Variable) : Bool := v.modifier = .exploded

/-! ### printing -/

def Variable.print (v : Variable) : Text :=
  match v.modifier with
  | .whole => v.name
  | .truncated n => v.name ++ ':' :: natText n
  | .exploded => v.name ++ ['*']

def Expression.print (e : Expression) : Text :=
  '{' :: (e.operator.sign.toList ++ [','].intercalate (e.vars.map Variable.print) ++ ['}'])

def Part.print : Part → Text
  | literal t => t
  | expression e => e.print

def print (ps : List Part) : Text := ps.flatMap Part.print

/-! ### expressions and names -/

def Part.expression? : Part → Option Expression
  | literal _ => none
  | expression e => some e

def expressions (ps : List Part) : List Expression := ps.filterMap Part.expression?

def vars (ps : List Part) : List Variable := (expressions ps).flatMap Expression.vars

def names (ps : List Part) : List Text := ((vars ps).map Variable.name).eraseDups

def Template.names (t : Template) : List Text := UriTemplate.names t.parts

end UriTemplate
