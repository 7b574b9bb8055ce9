import UriTemplate.Proofs.Resource.Catalogue
import UriTemplate.Resource.Session

/-!
# Sessions keep their catalogue in order

Resources are shared: a session changes them while its catalogue refers to them. Nothing that can be
done to a resource reaches the list of entries that the catalogue holds (`Catalogue.Holds`).

* `Session.record`                  what a step makes of the list of entries;
* `Session.Effect`                  all that a step can do to a session;
* `Session.after_aligned`           behind every list of steps the routes, the resources and the
                                    handlers have the same patterns in the same order;
* `Session.after_refines_entries`   as long as no resource in the catalogue gets another template,
                                    the catalogue behaves as the list of entries.
-/

namespace UriTemplate

/-! ### parsing and the fields -/

namespace Resource

theorem get_reparse (r : Resource) : r.reparse.2.get = r.get := by
  unfold reparse
  split
  · rfl
  · split <;> rfl

/-- a parse touches none of the fields -/
theorem get_parsed (r : Resource) : r.parsed.2.get = r.get := by
  unfold parsed
  split
  · split
    · rfl
    · exact get_reparse r
  · exact get_reparse r

theorem uriTemplate_eq_of_get {r r' : Resource} (h : r'.get = r.get) :
    r'.uriTemplate = r.uriTemplate := congrFun h .uriTemplate

end Resource

namespace Session
open Catalogue Routes

section
variable {ε α β : Type} {s : Session ε α} {l : List (Entry ε α)} {st : Step ε α}

/-! ### what a step means for the list of entries -/

/-- the list of entries behind a step -/
def record (s : Session ε α) (l : List (Entry ε α)) : Step ε α → List (Entry ε α)
  | .add slot handler =>
    match s.fetch? slot with
    | some (ref, r) =>
      match accept (patternValue r.uriTemplate) with
      | .ok t => put ⟨t.source, ref, handler⟩ l
      | .error _ => l
    | none => l
  | .remove pattern => discard pattern l
  | .clear => []
  | _ => l

/-- the list of entries behind a list of steps -/
def recordAll (s : Session ε α) (l : List (Entry ε α)) : List (Step ε α) → List (Entry ε α)
  | [] => l
  | st :: steps => recordAll (s.step st).state (s.record l st) steps

/-- A session whose catalogue holds the list, and has all resources that the list refers to. -/
structure Holds (s : Session ε α) (l : List (Entry ε α)) : Prop where
  catalogue : s.catalogue.Holds l
  refs : ∀ x ∈ l, x.ref < s.resources.length

/-! ### what a step can do -/

/-- The session and the list of entries behind a step. Only the steps that succeed do more than
parse. -/
inductive Effect (s : Session ε α) (l : List (Entry ε α)) (st : Step ε α) :
    Session ε α → List (Entry ε α) → Prop
  | nothing : Effect s l st s l
  | created (slot : Text) (r : Resource) (hok : ∃ a, (s.step st).answer = .ok a) :
      Effect s l st (s.create slot r) l
  | parsed {ref : Ref} {r r' : Resource} (hr : s.resources[ref]? = some r) (hget : r'.get = r.get) :
      Effect s l st { s with resources := s.resources.set ref r' } l
  | assigned {slot : Text} {ref : Ref} {r : Resource} {field : Field} {v : Option Text}
      (hst : st = .set slot field v) (hr : s.fetch? slot = some (ref, r))
      (hok : ∃ a, (s.step st).answer = .ok a) :
      Effect s l st { s with resources := s.resources.set ref (r.set field v) } l
  | catalogued {c : Catalogue ε α} {l' : List (Entry ε α)} (hc : c.Holds l')
      (hl' : ∀ x ∈ l', x ∈ l ∨ s.patternOf x.ref = some x.pattern)
      (hok : ∃ a, (s.step st).answer = .ok a) : Effect s l st { s with catalogue := c } l'

theorem getElem?_of_fetch? {slot : Text} {ref : Ref} {r : Resource}
    (h : s.fetch? slot = some (ref, r)) : s.resources[ref]? = some r := by
  simp only [fetch?, Option.bind_eq_bind, Option.bind_eq_some_iff, Option.pure_def,
    Option.some.injEq, Prod.mk.injEq] at h
  obtain ⟨_, -, _, hr, rfl, rfl⟩ := h
  exact hr

theorem patternOf_of_getElem? {ref : Ref} {r : Resource} (h : s.resources[ref]? = some r) :
    s.patternOf ref = r.uriTemplate := by
  rw [patternOf, h, Option.bind_some]

theorem onSlot_of_fetch? {slot : Text} {ref : Ref} {r : Resource}
    (h : s.fetch? slot = some (ref, r))
    (f : Resource → Except ResourceError (Answer α) × Resource) :
    s.onSlot slot f = ⟨(f r).1.mapError .resource, [],
      { s with resources := s.resources.set ref (f r).2 }⟩ := by
  rw [onSlot, h]

/-- A step on a slot that leaves the fields of its resource. -/
theorem effect_onSlot {slot : Text} {f : Resource → Except ResourceError (Answer α) × Resource}
    (hf : ∀ r, (f r).2.get = r.get) : Effect s l st (s.onSlot slot f).state l := by
  cases hr : s.fetch? slot with
  | none =>
    rw [onSlot, hr]
    exact .nothing
  | some p =>
    rw [onSlot_of_fetch? hr]
    exact .parsed (getElem?_of_fetch? hr) (hf p.2)

theorem effect_set (slot : Text) (field : Field) (v : Option Text) :
    Effect s l (.set slot field v) (s.step (.set slot field v)).state l := by
  cases hr : s.fetch? slot with
  | none =>
    rw [step, onSlot, hr]
    exact .nothing
  | some p =>
    obtain ⟨ref, r⟩ := p
    have hstep : s.step (.set slot field v) =
        ⟨.ok .done, [], { s with resources := s.resources.set ref (r.set field v) }⟩ :=
      onSlot_of_fetch? hr fun r => (.ok .done, r.set field v)
    rw [hstep]
    exact .assigned rfl hr ⟨.done, by rw [hstep]⟩

theorem pattern_of_accept {pattern : Option Text} {t : Template}
    (h : accept (patternValue pattern) = .ok t) : pattern = some t.source := by
  have htext := eq_text_of_accept h
  cases pattern with
  | none => cases htext
  | some p =>
    cases htext
    rfl

theorem effect_add (h : s.catalogue.Holds l) (slot : Text) (handler : Handler ε α) :
    Effect s l (.add slot handler) (s.step (.add slot handler)).state
      (s.record l (.add slot handler)) := by
  cases hr : s.fetch? slot with
  | none =>
    simp only [step, record, hr]
    exact .nothing
  | some p =>
    obtain ⟨ref, r⟩ := p
    have hstep : s.step (.add slot handler) =
        s.onCatalogue (s.catalogue.add ref r.uriTemplate handler) fun _ => .done := by
      simp only [step, hr]
    obtain ⟨e, he, -, hstate⟩ | ⟨t, ht, hanswer, hstate⟩ := h.add_cases ref r.uriTemplate handler
    · simp only [hstep, record, hr, he, onCatalogue, hstate]
      exact .nothing
    · have hpattern := pattern_of_accept ht
      simp only [hstep, record, hr, ht, onCatalogue]
      refine .catalogued hstate (fun x hx => ?_) ⟨.done, ?_⟩
      · rcases mem_put hx with rfl | ⟨hx, -⟩
        · exact .inr ((patternOf_of_getElem? (getElem?_of_fetch? hr)).trans hpattern)
        · exact .inl hx
      · rw [hstep, onCatalogue, hanswer]
        rfl

theorem state_resolve (s : Session ε α) (v : Value) : (s.step (.resolve v)).state = s := by
  show { s with catalogue := (s.catalogue.resolve v).state } = s
  rw [Catalogue.resolve_state]

theorem state_read (s : Session ε α) (v : Value) : (s.step (.read v)).state = s := by
  show { s with catalogue := (s.catalogue.read s.patternOf v).state } = s
  rw [Catalogue.read_state]

theorem effect (h : s.catalogue.Holds l) (st : Step ε α) :
    Effect s l st (s.step st).state (s.record l st) := by
  cases st with
  | new slot data =>
    cases hdata : Resource.ofWire data with
    | ok r =>
      have hstep : s.step (.new slot data) = ⟨.ok (.wire r.toWire), [], s.create slot r⟩ := by
        rw [step, hdata]
      rw [hstep]
      exact .created slot r ⟨_, by rw [hstep]⟩
    | error es =>
      rw [step, hdata]
      exact .nothing
  | wire slot => exact effect_onSlot fun _ => rfl
  | parsed slot => exact effect_onSlot Resource.get_parsed
  | set slot field v => exact effect_set slot field v
  | expand slot b => exact effect_onSlot Resource.get_parsed
  | recover slot uri => exact effect_onSlot Resource.get_parsed
  | add slot handler => exact effect_add h slot handler
  | remove pattern =>
    exact .catalogued (h.remove pattern) (fun x hx => .inl (List.mem_of_mem_filter hx)) ⟨.done, rfl⟩
  | clear => exact .catalogued (Holds.clear s.catalogue) (fun x hx => by cases hx) ⟨.done, rfl⟩
  | resolve uri =>
    rw [state_resolve]
    exact .nothing
  | read uri =>
    rw [state_read]
    exact .nothing

/-! ### what every step keeps -/

theorem holds_empty : (empty : Session ε α).Holds [] := ⟨Catalogue.holds_empty, nofun⟩

theorem lt_of_patternOf {ref : Ref} {pattern : Text} (h : s.patternOf ref = some pattern) :
    ref < s.resources.length := by
  obtain ⟨r, hr, -⟩ := Option.bind_eq_some_iff.1 h
  exact (List.getElem?_eq_some_iff.1 hr).1

theorem Holds.step (h : s.Holds l) (st : Step ε α) : (s.step st).state.Holds (s.record l st) := by
  obtain ⟨hcatalogue, hrefs⟩ := h
  have heffect := effect hcatalogue st
  generalize (s.step st).state = s', s.record l st = l' at heffect ⊢
  cases heffect with
  | nothing => exact ⟨hcatalogue, hrefs⟩
  | created slot r =>
    refine ⟨hcatalogue, fun x hx => ?_⟩
    show x.ref < (s.resources ++ [r]).length
    rw [List.length_append]
    exact Nat.lt_add_right _ (hrefs x hx)
  | parsed => exact ⟨hcatalogue, fun x hx => by rw [List.length_set]; exact hrefs x hx⟩
  | assigned => exact ⟨hcatalogue, fun x hx => by rw [List.length_set]; exact hrefs x hx⟩
  | catalogued hc hl' =>
    refine ⟨hc, fun x hx => ?_⟩
    rcases hl' x hx with hx | hx
    · exact hrefs x hx
    · exact lt_of_patternOf hx

/-- A step that fails changes neither the catalogue nor a field of a resource. -/
theorem Holds.of_error (h : s.Holds l) {e : SessionError ε} (he : (s.step st).answer = .error e) :
    (s.step st).state.catalogue = s.catalogue ∧ (s.step st).state.slots = s.slots ∧
      (s.step st).state.resources.map Resource.get = s.resources.map Resource.get := by
  have hnot : ¬∃ a, (s.step st).answer = .ok a := by
    rintro ⟨a, ha⟩
    rw [he] at ha
    cases ha
  have heffect := effect h.catalogue st
  generalize (s.step st).state = s', s.record l st = l' at heffect ⊢
  cases heffect with
  | nothing => exact ⟨rfl, rfl, rfl⟩
  | @parsed ref r r' hr hget =>
    refine ⟨rfl, rfl, ?_⟩
    obtain ⟨hlt, rfl⟩ := List.getElem?_eq_some_iff.1 hr
    show (s.resources.set ref r').map Resource.get = _
    have hlt' : ref < (s.resources.map Resource.get).length := by rwa [List.length_map]
    rw [List.map_set, hget, ← List.getElem_map Resource.get (h := hlt'), List.set_getElem_self]
  | created _ _ hok => exact absurd hok hnot
  | assigned _ _ hok => exact absurd hok hnot
  | catalogued _ _ hok => exact absurd hok hnot

theorem Holds.after (h : s.Holds l) (steps : List (Step ε α)) :
    (after s steps).Holds (recordAll s l steps) := by
  induction steps generalizing s l with
  | nil => exact h
  | cons st steps ih => exact ih (h.step st)

theorem run_append (s : Session ε α) (steps : List (Step ε α)) (st : Step ε α) :
    run s (steps ++ [st]) = run s steps ++ [(Session.after s steps).step st] := by
  induction steps generalizing s with
  | nil => rfl
  | cons st' steps ih => exact congrArg (s.step st' :: ·) (ih (s.step st').state)

/-! ### patterns that stay -/

/-- whether a step assigns the template of a resource that the catalogue refers to -/
def Reassigns (s : Session ε α) : Step ε α → Prop
  | .set slot .uriTemplate _ =>
    ∃ p, s.fetch? slot = some p ∧ p.1 ∈ s.catalogue.registered.entries.map Prod.snd
  | _ => False

/-- no resource in the catalogue gets another template while it is there -/
def Steady (s : Session ε α) : List (Step ε α) → Prop
  | [] => True
  | st :: steps => ¬s.Reassigns st ∧ Steady (s.step st).state steps

/-- Every resource that the list refers to has the pattern of its entry. -/
def Current (s : Session ε α) (l : List (Entry ε α)) : Prop :=
  ∀ x ∈ l, s.patternOf x.ref = some x.pattern

theorem patternOf_set {ref : Ref} {r r' : Resource} (hr : s.resources[ref]? = some r)
    (h : r'.uriTemplate = r.uriTemplate) (ref' : Ref) :
    ({ s with resources := s.resources.set ref r' } : Session ε α).patternOf ref' =
      s.patternOf ref' := by
  by_cases heq : ref = ref'
  · subst heq
    rw [patternOf_of_getElem? hr, ← h]
    apply patternOf_of_getElem?
    exact List.getElem?_set_self (List.getElem?_eq_some_iff.1 hr).1
  · exact congrArg (Option.bind · Resource.uriTemplate) (List.getElem?_set_ne heq)

theorem Current.step (hcurrent : s.Current l) (h : s.Holds l) (hst : ¬s.Reassigns st) :
    (s.step st).state.Current (s.record l st) := by
  have heffect := effect h.catalogue st
  generalize (s.step st).state = s', s.record l st = l' at heffect ⊢
  cases heffect with
  | nothing => exact hcurrent
  | created slot r =>
    intro x hx
    rw [← hcurrent x hx]
    exact congrArg (Option.bind · Resource.uriTemplate) (List.getElem?_append_left (h.refs x hx))
  | parsed hr hget =>
    intro x hx
    rw [patternOf_set hr (Resource.uriTemplate_eq_of_get hget)]
    exact hcurrent x hx
  | @assigned slot ref r field v hset hr =>
    intro x hx
    rw [← hcurrent x hx]
    by_cases hfield : field = .uriTemplate
    · have hne : ref ≠ x.ref := by
        rintro rfl
        refine hst ?_
        rw [hset, hfield]
        refine ⟨(x.ref, r), hr, ?_⟩
        rw [h.catalogue.registered]
        exact List.mem_map.2 ⟨(x.pattern, x.ref), List.mem_map.2 ⟨x, hx, rfl⟩, rfl⟩
      exact congrArg (Option.bind · Resource.uriTemplate) (List.getElem?_set_ne hne)
    · exact patternOf_set (getElem?_of_fetch? hr)
        (Resource.get_set_of_ne r v fun heq => hfield heq.symm) x.ref
  | catalogued hc hl' =>
    intro x hx
    rcases hl' x hx with hx | hx
    · exact hcurrent x hx
    · exact hx

theorem Current.after (hcurrent : s.Current l) (h : s.Holds l) {steps : List (Step ε α)}
    (hsteps : s.Steady steps) : (Session.after s steps).Current (recordAll s l steps) := by
  induction steps generalizing s l with
  | nil => exact hcurrent
  | cons st steps ih => exact ih (hcurrent.step h hsteps.1) (h.step st) hsteps.2

end

/-! ### the maps of the catalogue -/

/-- The routes, the resources and the handlers are about the same patterns in the same order. -/
structure Aligned {ε α : Type} (s : Session ε α) : Prop where
  registered : s.catalogue.registered.keys = s.catalogue.routes.sources
  handlers : s.catalogue.handlers.keys = s.catalogue.routes.sources
  /-- every route has a resource, and the resource exists -/
  listed : ∃ entries, s.listing? = some entries
  resolved : ∀ uri, ∃ r, (s.step (.resolve (.text uri))).answer = .ok (.resolved r)
  failed : ∀ st e, (s.step st).answer = .error e → (s.step st).state.catalogue = s.catalogue

section
variable {ε α : Type} {s : Session ε α} {l : List (Entry ε α)}

theorem Holds.answer_resolve (h : s.Holds l) (uri : Text) :
    (s.step (.resolve (.text uri))).answer =
      .ok (.resolved ((firstMatch? l uri).map fun p => (s.wireOf p.1.ref, p.2))) := by
  rw [Session.step, onCatalogue, h.catalogue.answer_resolve]
  cases firstMatch? l uri <;> rfl

theorem Holds.aligned (h : s.Holds l) : s.Aligned where
  registered := by rw [h.catalogue.registered, keys_column, h.catalogue.sources]
  handlers := by rw [h.catalogue.handlers, keys_column, h.catalogue.sources]
  listed := by
    have hrefs : ∀ ref ∈ l.map Entry.ref, ∃ r, s.resources[ref]? = some r := by
      rw [List.forall_mem_map]
      exact fun x hx => ⟨_, List.getElem?_eq_getElem (h.refs x hx)⟩
    obtain ⟨rs, hrs⟩ := exists_mapM hrefs
    refine ⟨rs.map fun r => (r.uriTemplate, r.name), ?_⟩
    simp only [listing?, h.catalogue.resources?, Option.bind_eq_bind, Option.bind_some, hrs]
    rfl
  resolved uri := ⟨_, h.answer_resolve uri⟩
  failed _ _ he := (h.of_error he).1

/-- Behind every list of steps, failed ones among them, the three maps of the catalogue agree, so
that listing and resolving never miss a key; and a step that fails changes none of them. -/
theorem after_aligned (steps : List (Step ε α)) : (after empty steps).Aligned :=
  (holds_empty.after steps).aligned

/-! ### the catalogue as a list -/

/-- The catalogue behaves as a list of entries. -/
structure Refines (s : Session ε α) (l : List (Entry ε α)) : Prop where
  nodup : (l.map Entry.pattern).Nodup
  routes : s.catalogue.routes.sources = l.map Entry.pattern
  registered : s.catalogue.registered.entries = l.map fun x => (x.pattern, x.ref)
  handlers : s.catalogue.handlers.entries = l.map fun x => (x.pattern, x.handler)
  current : ∀ x ∈ l, s.patternOf x.ref = some x.pattern
  added : ∀ slot ref r handler, s.fetch? slot = some (ref, r) →
    (s.step (.add slot handler)).answer =
      ((accept (patternValue r.uriTemplate)).map fun _ => .done).mapError fun e =>
        .catalogue (.route e)
  /-- the resource and the match of the first entry that matches -/
  found : ∀ uri, (s.catalogue.resolve (.text uri)).answer =
    .ok ((firstMatch? l uri).map fun p => (p.1.ref, p.2))
  resolved : ∀ uri, (s.step (.resolve (.text uri))).answer =
    .ok (.resolved ((firstMatch? l uri).map fun p => (s.wireOf p.1.ref, p.2)))
  /-- the one call that a read makes -/
  called : ∀ uri, (s.catalogue.dispatch s.patternOf (.text uri)).answer =
    match firstMatch? l uri with
    | some (x, m) => .ok ⟨x.handler, uri, m.params⟩
    | none => .error (.unknownResource uri)
  /-- what the handler answers or fails with is passed on -/
  read : ∀ uri, (s.step (.read (.text uri))).answer =
    match firstMatch? l uri with
    | some (x, m) =>
      ((x.handler uri m.params).map .result).mapError fun e => .catalogue (.handler e)
    | none => .error (.catalogue (.unknownResource uri))
  /-- what only asks leaves the session -/
  asked : ∀ v, (s.step (.resolve v)).state = s ∧ (s.step (.read v)).state = s
  /-- what fails leaves the catalogue, and the fields of all resources -/
  failed : ∀ st e, (s.step st).answer = .error e →
    (s.step st).state.catalogue = s.catalogue ∧ (s.step st).state.slots = s.slots ∧
      (s.step st).state.resources.map Resource.get = s.resources.map Resource.get

theorem Holds.answer_add (h : s.Holds l) {slot : Text} {ref : Ref} {r : Resource}
    (hr : s.fetch? slot = some (ref, r)) (handler : Handler ε α) :
    (s.step (.add slot handler)).answer =
      ((accept (patternValue r.uriTemplate)).map fun _ => .done).mapError fun e =>
        .catalogue (.route e) := by
  rw [Session.step, hr]
  dsimp only [onCatalogue]
  obtain ⟨e, he, hanswer, -⟩ | ⟨t, ht, hanswer, -⟩ :=
    h.catalogue.add_cases ref r.uriTemplate handler
  · rw [he, hanswer]
    rfl
  · rw [ht, hanswer]
    rfl

theorem Holds.answer_read (h : s.Holds l) (hcurrent : s.Current l) (uri : Text) :
    (s.step (.read (.text uri))).answer =
      match firstMatch? l uri with
      | some (x, m) =>
        ((x.handler uri m.params).map .result).mapError fun e => .catalogue (.handler e)
      | none => .error (.catalogue (.unknownResource uri)) := by
  rw [Session.step, onCatalogue, Catalogue.read]
  dsimp only
  rw [h.catalogue.answer_dispatch hcurrent]
  cases firstMatch? l uri with
  | none => rfl
  | some p =>
    obtain ⟨x, m⟩ := p
    show Except.mapError _ (Except.map _ ((x.handler uri m.params).mapError _)) =
      Except.mapError _ ((x.handler uri m.params).map _)
    cases x.handler uri m.params <;> rfl

theorem Holds.refines (h : s.Holds l) (hcurrent : s.Current l) : s.Refines l where
  nodup := h.catalogue.nodup
  routes := h.catalogue.sources
  registered := congrArg Table.entries h.catalogue.registered
  handlers := congrArg Table.entries h.catalogue.handlers
  current := hcurrent
  added _ _ _ handler hr := h.answer_add hr handler
  found := h.catalogue.answer_resolve
  resolved := h.answer_resolve
  called := h.catalogue.answer_dispatch hcurrent
  read := h.answer_read hcurrent
  asked v := ⟨state_resolve s v, state_read s v⟩
  failed _ _ := h.of_error

/-- Behind every list of steps, failed ones among them, that assigns no template to a resource in
the catalogue, the catalogue behaves as the list of entries that the records of the steps lead to;
and the next outcome of the run is that of a step there. -/
theorem after_refines_entries (steps : List (Step ε α)) (h : Steady empty steps) :
    (after empty steps).Refines (recordAll empty [] steps) ∧
      (∀ st, run empty (steps ++ [st]) = run empty steps ++ [(after empty steps).step st]) ∧
      ∀ uri (wording : ε → Text),
        (CatalogueError.unknownResource uri).message wording =
          "Unknown resource: ".toList ++ uri := by
  refine ⟨?_, run_append empty steps, fun _ _ => rfl⟩
  have hcurrent : (empty : Session ε α).Current [] := nofun
  exact (holds_empty.after steps).refines (hcurrent.after holds_empty h)

/-- A resource gets another template before it is added, and its handler another one later. -/
theorem after_refines_entries_replaced :
    let steps : List (Step Nat Text) :=
      [.new ['r'] (.map
          [(.text "uriTemplate".toList, .text ['a']), (.text "name".toList, .text [])]),
        .set ['r'] .uriTemplate (some ['b', '/', '{', 'x', '}']),
        .add ['r'] fun _ _ => .ok ['1'], .add ['r'] fun _ _ => .error 2]
    Steady empty steps ∧
      ((after empty steps).step (.read (.text ['b', '/', '7']))).answer =
        .error (.catalogue (.handler 2)) := by
  intro steps
  have hsteady : Steady empty steps := by
    refine ⟨id, ?_, id, id, trivial⟩
    rintro ⟨p, -, hp⟩
    cases hp
  refine ⟨hsteady, ?_⟩
  obtain ⟨h, -⟩ := after_refines_entries steps hsteady
  have hentries : recordAll empty [] steps =
      [⟨['b', '/', '{', 'x', '}'], 0, fun _ _ => .error 2⟩] := by rfl
  have hmatch : matchOf? ['b', '/', '{', 'x', '}'] ['b', '/', '7'] =
      some ⟨['b', '/', '{', 'x', '}'], ⟨[(['x'], .text ['7'])]⟩⟩ := by decide +kernel
  rw [h.read, hentries, firstMatch?, List.findSome?_cons, hmatch]
  rfl

end
end Session
end UriTemplate
