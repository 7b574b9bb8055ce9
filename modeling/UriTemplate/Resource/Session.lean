import UriTemplate.Resource.Catalogue
import UriTemplate.Resource.Wire

/-!
# Sessions

A session works on resources that are held in named slots, and on one catalogue of them. Resources are
created once and referred to by number, so a change through a slot shows through the catalogue, while
a new resource in the slot leaves the catalogue with the old one.

* `Session.step`   one step;
* `Session.run`    the outcomes of a list of steps. A step that fails does not end the session.
-/

namespace UriTemplate

structure Session (ε α : Type) where
  /-- all resources in the order of their creation -/
  resources : List Resource
  slots : Table Text Ref
  catalogue : Catalogue ε α

inductive SessionError (ε : Type) where
  | unknownSlot (slot : Text)
  /-- what was wrong with a wire form -/
  | invalid (errors : List WireError)
  | resource (e : ResourceError)
  | catalogue (e : CatalogueError ε)
deriving DecidableEq, Repr

namespace Session

inductive Step (ε α : Type) where
  | new (slot : Text) (data : Value)
  | wire (slot : Text)
  | parsed (slot : Text)
  | set (slot : Text) (field : Field) (value : Option Text)
  | expand (slot : Text) (bindings : Bindings)
  | recover (slot uri : Text)
  | add (slot : Text) (handler : Handler ε α)
  | remove (template : Text)
  | clear
  | resolve (uri : Value)
  | read (uri : Value)

inductive Answer (α : Type) where
  | done
  | wire (fields : List (Text × Text))
  | parsed (t : Template)
  | expanded (uri : Text)
  | found (m : Option Match)
  | resolved (r : Option (List (Text × Text) × Match))
  | result (a : α)
deriving DecidableEq, Repr

section
variable {ε α β : Type}

abbrev Result (ε α β : Type) := Outcome (Session ε α) (SessionError ε) β

def empty : Session ε α := ⟨[], .empty, .empty⟩

/-- the template that a resource has now -/
def patternOf (s : Session ε α) (ref : Ref) : Option Text :=
  s.resources[ref]?.bind Resource.uriTemplate

/-- the template and the name that each listed resource has now, in the order of the routes -/
def listing? (s : Session ε α) : Option (List (Option Text × Option Text)) := do
  let rs ← (← s.catalogue.resources?).mapM fun ref => s.resources[ref]?
  return rs.map fun r => (r.uriTemplate, r.name)

/-! ### steps on a slot -/

def create (s : Session ε α) (slot : Text) (r : Resource) : Session ε α :=
  { s with
    resources := s.resources ++ [r]
    slots := s.slots.insert slot s.resources.length }

def fetch? (s : Session ε α) (slot : Text) : Option (Ref × Resource) := do
  let ref ← s.slots.find? slot
  return (ref, ← s.resources[ref]?)

/-- A step on the resource in a slot, which the step may change. -/
def onSlot (s : Session ε α) (slot : Text)
    (f : Resource → Except ResourceError (Answer α) × Resource) : Result ε α (Answer α) :=
  match s.fetch? slot with
  | none => ⟨.error (.unknownSlot slot), [], s⟩
  | some (ref, r) =>
    let (answer, r) := f r
    ⟨answer.mapError .resource, [], { s with resources := s.resources.set ref r }⟩

/-! ### steps on the catalogue -/

/-- the outcome of a catalogue step as one of the session -/
def onCatalogue (s : Session ε α) (o : Catalogue.Result ε α β) (f : β → Answer α) :
    Result ε α (Answer α) :=
  ⟨(o.answer.map f).mapError .catalogue, o.log, { s with catalogue := o.state }⟩

/-- the wire form of a resource that was referred to -/
def wireOf (s : Session ε α) (ref : Ref) : List (Text × Text) :=
  s.resources[ref]?.elim [] Resource.toWire

def step (s : Session ε α) : Step ε α → Result ε α (Answer α)
  | .new slot data =>
    match Resource.ofWire data with
    | .ok r => ⟨.ok (.wire r.toWire), [], s.create slot r⟩
    | .error es => ⟨.error (.invalid es), [], s⟩
  | .wire slot => s.onSlot slot fun r => (.ok (.wire r.toWire), r)
  | .parsed slot => s.onSlot slot fun r => let (t, r) := r.parsed; (t.map .parsed, r)
  | .set slot field value => s.onSlot slot fun r => (.ok .done, r.set field value)
  | .expand slot b => s.onSlot slot fun r => let (t, r) := r.expand b; (t.map .expanded, r)
  | .recover slot uri => s.onSlot slot fun r => let (m, r) := r.recover uri; (m.map .found, r)
  | .add slot handler =>
    match s.fetch? slot with
    | none => ⟨.error (.unknownSlot slot), [], s⟩
    | some (ref, r) => s.onCatalogue (s.catalogue.add ref r.uriTemplate handler) fun _ => .done
  | .remove template => s.onCatalogue (s.catalogue.remove template) fun _ => .done
  | .clear => s.onCatalogue s.catalogue.clear fun _ => .done
  | .resolve uri =>
    s.onCatalogue (s.catalogue.resolve uri) fun o =>
      .resolved (o.map fun r => (s.wireOf r.1, r.2))
  | .read uri => s.onCatalogue (s.catalogue.read s.patternOf uri) .result

/-- the session behind a list of steps -/
def after (s : Session ε α) (steps : List (Step ε α)) : Session ε α :=
  steps.foldl (fun s st => (s.step st).state) s

/-- the outcome of each of a list of steps -/
def run (s : Session ε α) : List (Step ε α) → List (Result ε α (Answer α))
  | [] => []
  | st :: steps => let o := s.step st; o :: run o.state steps

end
end Session
end UriTemplate
