import UriTemplate.Routes
import UriTemplate.Resource.Basic

/-!
# Catalogues

A catalogue routes a URI to the handler of the first template that matches it. It holds references to
resources, not copies: a resource that changes after it was added shows its new fields.

* `add`, `remove`, `clear`   the changes. Adding under a template that is there replaces the resource
                             and the handler and keeps the place.
* `resolve`                  the resource that was added under the first template that matches.
* `dispatch`, `read`         the call that a URI leads to, and its result. The handler is looked up
                             by the template that the resource has now.
-/

namespace UriTemplate

/-- a reference to a resource: its number in the order of creation -/
abbrev Ref := Nat

/-- what answers a read: it is given the URI and the variables recovered from it -/
abbrev Handler (ε α : Type) := Text → Params → Except ε α

structure Catalogue (ε α : Type) where
  routes : Routes
  registered : Table Text Ref
  handlers : Table Text (Handler ε α)

inductive CatalogueError (ε : Type) where
  | route (e : RouteError)
  | unknownResource (uri : Text)
  /-- a route without a resource -/
  | unregistered (template : Text)
  /-- no handler under the template that the resource has now -/
  | noHandler (template : Option Text)
  /-- what the handler itself failed with -/
  | handler (e : ε)
deriving DecidableEq, Repr

/-- the wording, where `ofHandler` gives that of a handler's own errors -/
def CatalogueError.message {ε : Type} (ofHandler : ε → Text) : CatalogueError ε → Text
  | route e => e.message
  | unknownResource uri => "Unknown resource: ".toList ++ uri
  | unregistered t => t
  | noHandler t => shown t
  | handler e => ofHandler e

/-- a handler with what it is called with -/
structure Call (ε α : Type) where
  handler : Handler ε α
  uri : Text
  params : Params

def Call.result {ε α : Type} (c : Call ε α) : Except ε α := c.handler c.uri c.params

namespace Catalogue

section
variable {ε α β : Type}

abbrev Result (ε α β : Type) := Outcome (Catalogue ε α) (CatalogueError ε) β

def empty : Catalogue ε α := ⟨.empty, .empty, .empty⟩

/-- the template of a resource as a value -/
def patternValue : Option Text → Value
  | some t => .text t
  | none => .null

def isRegistered (c : Catalogue ε α) (pattern : Option Text) : Bool :=
  pattern.any fun t => c.registered.contains t

/-- Adds a resource, by its reference and its present template. -/
def add (c : Catalogue ε α) (ref : Ref) (pattern : Option Text) (handler : Handler ε α) :
    Result ε α Unit :=
  let o := c.routes.add (patternValue pattern)
  let log := (if c.isRegistered pattern then [Event.overriding (shown pattern)] else []) ++ o.log
  match o.answer with
  | .error e => ⟨.error (.route e), log, { c with routes := o.state }⟩
  | .ok t =>
    ⟨.ok (), log, {
      routes := o.state
      registered := c.registered.insert t.source ref
      handlers := c.handlers.insert t.source handler }⟩

def remove (c : Catalogue ε α) (template : Text) : Result ε α Unit :=
  let o := c.routes.removeText template
  ⟨.ok (), o.log, {
    routes := o.state
    registered := c.registered.erase template
    handlers := c.handlers.erase template }⟩

def clear (c : Catalogue ε α) : Result ε α Unit :=
  let o := c.routes.clear
  ⟨.ok (), o.log, ⟨o.state, .empty, .empty⟩⟩

/-- the resources in the order of the routes, if every route has one -/
def resources? (c : Catalogue ε α) : Option (List Ref) := c.routes.sources.mapM c.registered.find?

def resolve (c : Catalogue ε α) (uri : Value) : Result ε α (Option (Ref × Match)) :=
  let o := c.routes.resolve uri
  let answer := match o.answer with
    | .error e => .error (.route e)
    | .ok none => .ok none
    | .ok (some m) =>
      match c.registered.find? m.template with
      | some ref => .ok (some (ref, m))
      | none => .error (.unregistered m.template)
  ⟨answer, o.log, { c with routes := o.state }⟩

/-- The call that a URI leads to, where `patternOf` gives the present template of a resource. -/
def dispatch (c : Catalogue ε α) (patternOf : Ref → Option Text) :
    Value → Result ε α (Call ε α)
  | .text uri =>
    let o := c.resolve (.text uri)
    match o.answer with
    | .error e => { o with answer := .error e }
    | .ok none => { o with answer := .error (.unknownResource uri) }
    | .ok (some (ref, m)) =>
      let pattern := patternOf ref
      let answer := match pattern.bind c.handlers.find? with
        | some handler => .ok ⟨handler, uri, m.params⟩
        | none => .error (.noHandler pattern)
      ⟨answer, o.log ++ [.dispatching uri pattern], o.state⟩
  | _ => ⟨.error (.route .uriNotText), [], c⟩

def read (c : Catalogue ε α) (patternOf : Ref → Option Text) (uri : Value) : Result ε α α :=
  let o := c.dispatch patternOf uri
  { o with answer := o.answer.bind fun call => call.result.mapError .handler }

end
end Catalogue
end UriTemplate
