import UriTemplate.Percent.Coding

/-!
# Expression operators

The character at the front of an expression chooses one of eight ways to expand. Each is a row of
data (`Operator.row`), which expansion and matching both read.

* `Operator.matchable`   the ASCII characters that an expansion may consist of, apart from triplets.
-/

namespace UriTemplate

inductive Operator where
  | simple
  | reserved
  | fragment
  | label
  | path
  | parameter
  | query
  | continuation
deriving DecidableEq, Repr

/-- how an operator expands -/
structure Operator.Row where
  /-- written once in front of an expansion that is not empty -/
  first : Option Char
  /-- written between variables, and between the items of an exploded one -/
  sep : Char
  /-- whether values are written as `name=value` -/
  named : Bool
  /-- written behind a name whose value is empty -/
  ifEmpty : Text
  allow : Percent.Allow

namespace Operator

def row : Operator → Row
  | simple => ⟨none, ',', false, [], .unreserved⟩
  | reserved => ⟨none, ',', false, [], .reserved⟩
  | fragment => ⟨some '#', ',', false, [], .reserved⟩
  | label => ⟨some '.', '.', false, [], .unreserved⟩
  | path => ⟨some '/', '/', false, [], .unreserved⟩
  | parameter => ⟨some ';', ';', true, [], .unreserved⟩
  | query => ⟨some '?', '&', true, ['='], .unreserved⟩
  | continuation => ⟨some '&', '&', true, ['='], .unreserved⟩

/-- the character that stands for it in a template; simple expansion has none -/
def sign : Operator → Option Char
  | simple => none
  | reserved => some '+'
  | fragment => some '#'
  | label => some '.'
  | path => some '/'
  | parameter => some ';'
  | query => some '?'
  | continuation => some '&'

def all : List Operator :=
  [simple, reserved, fragment, label, path, parameter, query, continuation]

def ofChar? (c : Char) : Option Operator := all.find? fun o => o.sign = some c

/-- the operator whose sign is the whole text -/
def ofText? : Text → Option Operator
  | [c] => ofChar? c
  | _ => none

theorem ofChar?_eq_some {c : Char} {o : Operator} : ofChar? c = some o ↔ o.sign = some c := by
  constructor
  · intro h
    simpa using List.find?_some h
  · intro h
    cases o <;> simp only [sign, reduceCtorEq, Option.some.injEq] at h <;> subst h <;> rfl

/-! ### characters of an expansion -/

def Row.matchable (r : Row) (c : Char) : Bool :=
  match r.allow with
  | .reserved => isUnreserved c || isReserved c
  | .unreserved => isUnreserved c || c = ',' || c = '=' || c = r.sep

theorem not_matchable_percent (o : Operator) : o.row.matchable '%' = false := by
  cases o <;> decide

end Operator
end UriTemplate
