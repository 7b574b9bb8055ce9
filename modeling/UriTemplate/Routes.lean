import UriTemplate.Outcome
import UriTemplate.Match.Search
import UriTemplate.Template.Parse
import UriTemplate.Text.Classes
import UriTemplate.Value.Key

/-!
# Routes

Routes are templates in the order of their arrival; a URI belongs to the first one that matches it.
There is no ranking by how specific a template is.

* `add`, `remove`, `clear`     the changes. Adding a template that is there moves nothing; a template
                               that is blank but not empty, or malformed, is refused.
* `resolve`, `contains`        the questions.
* `step`, `run`                the same as data: one step, and the outcomes of a list of steps.

Templates and URIs come in as values, and what is not a text is refused or, on removal, ignored.
-/

namespace UriTemplate

structure Routes where
  templates : List Template
deriving DecidableEq, Repr

inductive RouteError where
  | templateNotText
  | uriNotText
  | blankTemplate
  | malformed (e : ParseError)
  /-- a value that may change was looked up -/
  | notAKey (kind : Value.Mutable)
deriving DecidableEq, Repr

/-- the name of a kind of values that may change -/
def Value.Mutable.name : Value.Mutable → Text
  | list => ['l', 'i', 's', 't']
  | map => ['d', 'i', 'c', 't']
  | byteList => "bytearray".toList

def RouteError.message : RouteError → Text
  | templateNotText => "Template must be a string".toList
  | uriNotText => "URI must be a string".toList
  | blankTemplate => "Template cannot be empty".toList
  | malformed e => e.message
  | notAKey kind => "unhashable type: '".toList ++ kind.name ++ ['\'']

namespace Routes

def empty : Routes := ⟨[]⟩

/-- the texts of the templates, in order -/
def sources (r : Routes) : List Text := r.templates.map Template.source

def find? (r : Routes) (source : Text) : Option Template :=
  r.templates.find? fun t => t.source = source

/-- the match of the first template that has one -/
def match? (r : Routes) (uri : Text) : Option Match := r.templates.findSome? fun t => t.recover? uri

def append (r : Routes) (t : Template) : Routes := ⟨r.templates ++ [t]⟩

def erase (r : Routes) (source : Text) : Routes := ⟨r.templates.filter fun t => t.source ≠ source⟩

/-! ### what the operations do to the sources -/

theorem sources_append (r : Routes) (t : Template) :
    (r.append t).sources = r.sources ++ [t.source] := by
  simp [append, sources]

theorem sources_erase (r : Routes) (source : Text) :
    (r.erase source).sources = r.sources.filter fun s => s ≠ source := by
  simp [erase, sources, List.filter_map, Function.comp_def]

theorem isSome_find?_iff {r : Routes} {source : Text} :
    (r.find? source).isSome = true ↔ source ∈ r.sources := by
  simp [find?, sources]

theorem source_of_find? {r : Routes} {source : Text} {t : Template} (h : r.find? source = some t) :
    t.source = source := by
  simpa using List.find?_some h

/-! ### steps -/

abbrev Result (α : Type) := Outcome Routes RouteError α

def addText (r : Routes) (source : Text) : Result Template :=
  if !source.isEmpty && source.isBlank then ⟨.error .blankTemplate, [], r⟩
  else match r.find? source with
    | some t => ⟨.ok t, [.alreadyRegistered source], r⟩
    | none =>
      match parse source with
      | .ok t => ⟨.ok t, [.registered source], r.append t⟩
      | .error e => ⟨.error (.malformed e), [], r⟩

def add (r : Routes) : Value → Result Template
  | .text source => r.addText source
  | _ => ⟨.error .templateNotText, [], r⟩

def removeText (r : Routes) (source : Text) : Result Unit :=
  if (r.find? source).isSome then ⟨.ok (), [.removed source], r.erase source⟩ else ⟨.ok (), [], r⟩

/-- Among no routes nothing is looked up, so there a value that is no key does no harm. -/
def remove (r : Routes) : Value → Result Unit
  | .text source => r.removeText source
  | v =>
    match v.notAKey? with
    | some kind => if r.templates.isEmpty then ⟨.ok (), [], r⟩ else ⟨.error (.notAKey kind), [], r⟩
    | none => ⟨.ok (), [], r⟩

def resolve (r : Routes) : Value → Result (Option Match)
  | .text uri =>
    match r.match? uri with
    | some m => ⟨.ok (some m), [], r⟩
    | none => ⟨.ok none, [.unmatched uri], r⟩
  | _ => ⟨.error .uriNotText, [], r⟩

def contains (r : Routes) : Value → Result Bool
  | .text source => ⟨.ok (r.find? source).isSome, [], r⟩
  | v =>
    match v.notAKey? with
    | some kind => ⟨.error (.notAKey kind), [], r⟩
    | none => ⟨.ok false, [], r⟩

def clear (_ : Routes) : Result Unit := ⟨.ok (), [.cleared], empty⟩

/-! ### steps as data -/

inductive Step where
  | add (template : Value)
  | remove (template : Value)
  | resolve (uri : Value)
  | contains (template : Value)
  | clear

inductive Answer where
  | done
  | added (t : Template)
  | found (m : Option Match)
  | present (b : Bool)
deriving DecidableEq, Repr

def Result.as {α : Type} (o : Result α) (f : α → Answer) : Result Answer :=
  ⟨o.answer.map f, o.log, o.state⟩

def step (r : Routes) : Step → Result Answer
  | .add v => (r.add v).as .added
  | .remove v => (r.remove v).as fun _ => .done
  | .resolve v => (r.resolve v).as .found
  | .contains v => (r.contains v).as .present
  | .clear => r.clear.as fun _ => .done

/-- the routes behind a list of steps -/
def after (r : Routes) (ss : List Step) : Routes := ss.foldl (fun r s => (r.step s).state) r

/-- the outcome of each of a list of steps -/
def run (r : Routes) : List Step → List (Result Answer)
  | [] => []
  | s :: ss => let o := r.step s; o :: run o.state ss

end Routes
end UriTemplate
