import UriTemplate.Template.Basic
import UriTemplate.Template.Fault

/-!
# Reading templates

`parse` reads a template from left to right. Outside braces every character but `{` is literal text, a
stray `}` too. The text between braces is an operator character, if it starts with one, and variables
separated by commas: `name`, `name*` or `name:length`, where the first colon ends the name.

* `Variable.ofToken`      one variable;
* `Expression.ofBody`     the text between the braces;
* `partsFrom`             all parts, with the place of the first fault.
-/

namespace UriTemplate

/-- the length behind a colon: ASCII digits with a value from 1 to `maxLength` -/
def lengthOfDigits (name digits : Text) : Except Fault Nat :=
  if name.getLast? = some '*' || digits.isEmpty || !digits.all Char.isDigit then
    .error (.invalidLength digits name)
  else if maxDigits < digits.length then
    .error (.oversizedLength digits.length)
  else
    let n := Nat.ofDigitChars 10 digits 0
    if 1 ≤ n ∧ n ≤ maxLength then .ok n else .error (.invalidLength digits name)

def Variable.ofToken (token : Text) : Except Fault Variable :=
  let name := token.takeWhile (· ≠ ':')
  match token.dropWhile (· ≠ ':') with
  | _ :: digits =>
    if name.isEmpty then .error .emptyName
    else do return ⟨name, .truncated (← lengthOfDigits name digits)⟩
  | [] =>
    let (name, modifier) :=
      if token.getLast? = some '*' then (token.dropLast, Modifier.exploded) else (token, .whole)
    if name.isEmpty then .error .emptyName else .ok ⟨name, modifier⟩

/-- the operator at the front of a body, and what is left -/
def takeOperator : Text → Operator × Text
  | [] => (.simple, [])
  | c :: t =>
    match Operator.ofChar? c with
    | some o => (o, t)
    | none => (.simple, c :: t)

def Expression.ofBody (body : Text) : Except Fault Expression :=
  if body.isEmpty then .error .emptyExpression
  else do
    let (operator, list) := takeOperator body
    return ⟨operator, ← (list.splitOn ',').mapM Variable.ofToken⟩

/-- puts a character in front of the literal that the parts begin with, or begins one -/
def consLiteral (c : Char) : List Part → List Part
  | .literal t :: ps => .literal (c :: t) :: ps
  | ps => .literal [c] :: ps

/-- an expression that has been opened: the place of its brace, and its body so far, reversed -/
structure OpenExpression where
  position : Nat
  body : Text

/-- The parts of a text that starts at a position, inside an expression or outside. A fault comes
with the place of its expression. -/
def partsFrom (pos : Nat) : Option OpenExpression → Text → Except (Fault × Nat) (List Part)
  | none, [] => .ok []
  | some o, [] => .error (.unclosed, o.position)
  | none, c :: t =>
    if c = '{' then partsFrom (pos + 1) (some ⟨pos, []⟩) t
    else (partsFrom (pos + 1) none t).map (consLiteral c)
  | some o, c :: t =>
    if c = '}' then
      match Expression.ofBody o.body.reverse with
      | .ok e => (partsFrom (pos + 1) none t).map (.expression e :: ·)
      | .error f => .error (f, o.position)
    else if c = '{' then .error (.unclosed, o.position)
    else partsFrom (pos + 1) (some { o with body := c :: o.body }) t

/-- a template has a part: the empty one is an empty literal -/
def orEmptyLiteral : List Part → List Part
  | [] => [.literal []]
  | ps => ps

def parse (t : Text) : Except ParseError Template :=
  match partsFrom 0 none t with
  | .ok ps => .ok ⟨t, orEmptyLiteral ps⟩
  | .error (f, pos) => .error ⟨f, t, pos⟩

end UriTemplate
