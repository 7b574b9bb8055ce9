import UriTemplate.Percent.Coding
import UriTemplate.Template.Basic
import UriTemplate.Table

/-!
# Splitting a span among variables

A span is cut at the operator's separator into segments, and the segments are handed out.

* `assignInOrder`   an operator without names gives each variable a segment, in order. Surplus
                    segments go to the first exploded variable, else to the last one; variables
                    without a segment stay unbound.
* `takeSegment`     an operator with names gives each segment to a variable with its key. Variables
                    are passed in declared order and never returned to; an exploded variable takes
                    every segment that no scalar variable behind it has the name of.
* `split?`          the values of an expression's variables, or nothing if the span cannot be theirs:
                    a segment that no variable takes, or escapes that are not UTF-8.
-/

namespace UriTemplate

/-- a value that was recovered from a URI -/
inductive Recovered where
  | text (t : Text)
  | items (ts : List Text)
deriving DecidableEq, Repr

abbrev Params := Table Text Recovered

/-! ### values of segments -/

def Modifier.recover? (m : Modifier) (segment : Text) : Option Recovered := do
  return .text (m.cut (← Percent.decode? segment))

/-- one empty segment is what a list without items leaves -/
def recoverItems? (segments : List Text) : Option Recovered :=
  if segments = [[]] then some (.items []) else do return .items (← segments.mapM Percent.decode?)

/-! ### by position -/

/-- the variables that get a segment, with their values, in declared order -/
def assignInOrder (sep : Char) : List Variable → List Text → Option (List (Text × Recovered))
  | [], _ => some []
  | _, [] => some []
  | x :: xs, s :: ss =>
    if x.isExploded then
      let count := max 1 ((s :: ss).length - xs.length)
      do return (x.name, ← recoverItems? ((s :: ss).take count)) ::
          (← assignInOrder sep xs ((s :: ss).drop count))
    else if xs.isEmpty then
      do return [(x.name, ← x.modifier.recover? ([sep].intercalate (s :: ss)))]
    else
      do return (x.name, ← x.modifier.recover? s) :: (← assignInOrder sep xs ss)

/-! ### by name -/

/-- the text before the first `=` of a segment, and the text behind it -/
def key (segment : Text) : Text := segment.takeWhile (· ≠ '=')

def valueText (segment : Text) : Text := (segment.dropWhile (· ≠ '=')).drop 1

/-- the variable that takes a segment with this key, and the variables behind it -/
def taker? (key : Text) : List Variable → Option (Variable × List Variable)
  | [] => none
  | x :: xs =>
    if x.isExploded then
      if xs.any fun y => !y.isExploded && y.name = key then taker? key xs else some (x, xs)
    else if x.name = key then some (x, xs)
    else taker? key xs

/-- what has been handed out so far -/
structure Assignment where
  /-- the variables that may still take a segment -/
  remaining : List Variable
  /-- raw texts of scalar variables -/
  scalars : Table Text Text
  /-- raw segments of exploded variables -/
  lists : Table Text (List Text)
  /-- the variable that took the last segment, and whether its place is that of the last declared
  one -/
  last : Option (Variable × Bool)
deriving DecidableEq, Repr

namespace Assignment

def start (xs : List Variable) : Assignment := ⟨xs, .empty, .empty, none⟩

/-- Hands out a segment that no variable takes: it belongs to the raw text of the last declared
variable, if that one took the segment before and is a scalar. The test is of places. To compare
objects comes to the same as long as each variable is an object of its own, as it is behind a parse;
one object that was put in two places by hand would get the segment also from the first of them. -/
def overflow? (sep : Char) (a : Assignment) (segment : Text) : Option Assignment :=
  match a.last with
  | some (x, true) =>
    if x.isExploded then none
    else do
      let raw ← a.scalars.find? x.name
      return { a with
        remaining := []
        scalars := a.scalars.insert x.name (raw ++ sep :: segment) }
  | _ => none

def takeSegment (sep : Char) (a : Assignment) (segment : Text) : Option Assignment :=
  match taker? (key segment) a.remaining with
  | none => a.overflow? sep segment
  | some (x, xs) =>
    if x.isExploded then
      let segments := (a.lists.find? x.name).getD []
      some { a with
        remaining := x :: xs
        lists := a.lists.insert x.name (segments ++ [segment])
        last := some (x, xs.isEmpty) }
    else
      some { a with
        remaining := xs
        scalars := a.scalars.insert x.name (valueText segment)
        last := some (x, xs.isEmpty) }

/-- the value of a variable, if it took a segment; a scalar under its name comes first -/
def value? (a : Assignment) (x : Variable) : Option (List (Text × Recovered)) :=
  match a.scalars.find? x.name, a.lists.find? x.name with
  | some raw, _ => do return [(x.name, ← x.modifier.recover? raw)]
  | none, some segments => do return [(x.name, ← recoverItems? segments)]
  | none, none => some []

end Assignment

def assignByName (sep : Char) (xs : List Variable) (segments : List Text) :
    Option (List (Text × Recovered)) := do
  let a ← segments.foldlM (fun a s => a.takeSegment sep s) (Assignment.start xs)
  return (← xs.mapM a.value?).flatten

/-! ### the values of a span -/

/-- the segments of a span; under an operator with names an empty span has none -/
def Operator.Row.segments (r : Row) (span : Text) : List Text :=
  if r.named && span.isEmpty then [] else span.splitOn r.sep

def Expression.split? (e : Expression) (span : Text) : Option Params :=
  let r := e.operator.row
  let assign := if r.named then assignByName else assignInOrder
  (assign r.sep e.vars (r.segments span)).map Table.ofList

end UriTemplate
