import UriTemplate.Text.Basic

/-!
# Outcomes of a step

A step on routes or resources ends with an answer or an error, reports events in order, and leaves a
state, also when it fails.

* `Event.message`, `Event.level`, `Event.source`   what an event says, how loudly, and on whose
                                                   behalf.
-/

namespace UriTemplate

inductive Level where
  | debug
  | info
deriving DecidableEq, Repr

/-- who reports an event -/
inductive Source where
  | routes
  | resources
deriving DecidableEq, Repr

inductive Event where
  | alreadyRegistered (template : Text)
  | registered (template : Text)
  | removed (template : Text)
  | unmatched (uri : Text)
  | cleared
  | overriding (template : Text)
  /-- the template is the one that the resource has now, which may be none -/
  | dispatching (uri : Text) (template : Option Text)
deriving DecidableEq, Repr

/-- how a missing text is shown in a message -/
def shown (t : Option Text) : Text := t.getD ['N', 'o', 'n', 'e']

namespace Event

def message : Event → Text
  | alreadyRegistered t => "Template already registered: '".toList ++ t ++ ['\'']
  | registered t => "Registered template '".toList ++ t ++ ['\'']
  | removed t => "Removed template '".toList ++ t ++ ['\'']
  | unmatched uri => "No template matches '".toList ++ uri ++ ['\'']
  | cleared => "Cleared all templates".toList
  | overriding t => "Overriding resource template '".toList ++ t ++ ['\'']
  | dispatching uri t =>
    "Dispatching '".toList ++ uri ++ "' to template '".toList ++ shown t ++ ['\'']

def level : Event → Level
  | overriding _ => .info
  | _ => .debug

def source : Event → Source
  | overriding _ => .resources
  | dispatching _ _ => .resources
  | _ => .routes

end Event

/-- how a step ends -/
structure Outcome (σ ε α : Type) where
  answer : Except ε α
  log : List Event
  /-- the state behind the step -/
  state : σ

end UriTemplate
