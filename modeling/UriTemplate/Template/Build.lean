import UriTemplate.Template.Basic
import UriTemplate.Text.Quoted

/-!
# Building templates by hand

Parts need not come from a parse: names and literals may then hold any character. What is checked is
only that a variable has a name and one modifier at most with a length in range, and that an
expression has an operator and a variable.

* `Variable.build`, `Expression.build`   a variable and an expression, or the first fault.
-/

namespace UriTemplate

inductive BuildError where
  | emptyName
  | truncatedAndExploded
  | lengthOutOfRange
  | unknownOperator (sign : Text)
  | noVariables
deriving DecidableEq, Repr

def BuildError.message : BuildError → Text
  | emptyName => "variable name must not be empty".toList
  | truncatedAndExploded => "prefix and explode cannot both be set".toList
  | lengthOutOfRange => "prefix must be 1-".toList ++ natText maxLength
  | unknownOperator sign => Quoted.text sign ++ " is not a valid Operator".toList
  | noVariables => "expression needs at least one variable".toList

def Variable.build (name : Text) (length : Option Int) (exploded : Bool) :
    Except BuildError Variable :=
  if name.isEmpty then .error .emptyName
  else match length with
    | none => .ok ⟨name, if exploded then .exploded else .whole⟩
    | some n =>
      if exploded then .error .truncatedAndExploded
      else if 1 ≤ n ∧ n ≤ maxLength then .ok ⟨name, .truncated n.toNat⟩
      else .error .lengthOutOfRange

/-- the operator with this sign; no character at all is simple expansion -/
def Operator.ofSign? : Text → Option Operator
  | [] => some .simple
  | t => ofText? t

def Expression.build (sign : Text) (vars : List Variable) : Except BuildError Expression :=
  match Operator.ofSign? sign with
  | none => .error (.unknownOperator sign)
  | some o => if vars.isEmpty then .error .noVariables else .ok ⟨o, vars⟩

end UriTemplate
