import UriTemplate.Proofs.Resource.Slots
import UriTemplate.Proofs.Resource.Wire

/-!
# The kept template is never stale

A resource keeps the last template that it parsed, through assignments and failed parses, and uses
it again when its field holds that text. No history of a session lets this be seen.

* `Resource.reading`              what a parse of the field gives;
* `Resource.Genuine`              the template that is kept is what its own text is parsed as, so a
                                  parse gives the reading (`Genuine.parsed_fst`);
* `Session.Genuine.step`          every step keeps this for all resources;
* `Session.after_parses_current`  behind every list of steps a resource is parsed, expanded and
                                  matched as the text that it was given last.
-/

namespace UriTemplate

/-! ### one resource -/

namespace Resource

/-- what a parse of the field gives -/
def reading (r : Resource) : Except ResourceError Template :=
  match r.uriTemplate with
  | none => .error .noTemplate
  | some source => (parse source).mapError .malformed

/-- The template that is kept is what its own text is parsed as. -/
def Genuine (r : Resource) : Prop := ∀ t, r.cached = some t → parse t.source = .ok t

/-- A new resource keeps no template. -/
theorem genuine_of_ofWire {v : Value} {r : Resource} (h : ofWire v = .ok r) : r.Genuine := by
  obtain ⟨_, _, -, rfl, -⟩ := ofWire_eq_ok_iff.1 h
  exact nofun

variable {r : Resource}

/-- An assignment leaves the kept template, also where it no longer is the one of the field. -/
theorem Genuine.set (h : r.Genuine) (field : Field) (v : Option Text) :
    (r.set field v).Genuine := by
  cases field <;> exact h

theorem reparse_fst (r : Resource) : r.reparse.1 = r.reading := by
  unfold reparse reading
  cases r.uriTemplate with
  | none => rfl
  | some source =>
    dsimp only
    cases parse source <;> rfl

theorem Genuine.reparse (h : r.Genuine) : r.reparse.2.Genuine := by
  unfold Resource.reparse
  cases r.uriTemplate with
  | none => exact h
  | some source =>
    dsimp only
    cases ht : parse source with
    | error e => exact h
    | ok t =>
      -- the new template has the text of the field as its own
      intro t' heq
      cases heq
      rw [source_of_parse ht, ht]

/-- The kept template is used only where its text is that of the field, and there it is right. -/
theorem Genuine.parsed_fst (h : r.Genuine) : r.parsed.1 = r.reading := by
  unfold Resource.parsed
  split
  · next t ht =>
    split
    · next hsource =>
      rw [reading, hsource]
      dsimp only
      rw [h t ht]
      rfl
    · exact reparse_fst r
  · exact reparse_fst r

theorem Genuine.parsed (h : r.Genuine) : r.parsed.2.Genuine := by
  unfold Resource.parsed
  split
  · split
    · exact h
    · exact h.reparse
  · exact h.reparse

end Resource

/-! ### all resources of a session -/

namespace Session

section
variable {ε α : Type} {s : Session ε α} {slot : Text} {ref : Ref} {r : Resource}

def Genuine (s : Session ε α) : Prop := ∀ r ∈ s.resources, r.Genuine

theorem genuine_empty : (empty : Session ε α).Genuine := nofun

theorem Genuine.onSlot (h : s.Genuine) {f : Resource → Except ResourceError (Answer α) × Resource}
    (hf : ∀ r, r.Genuine → (f r).2.Genuine) : (s.onSlot slot f).state.Genuine := by
  cases hr : s.fetch? slot with
  | none =>
    rw [Session.onSlot, hr]
    exact h
  | some p =>
    obtain ⟨ref, r⟩ := p
    rw [onSlot_of_fetch? hr]
    intro r' hr'
    rcases List.mem_or_eq_of_mem_set hr' with hr' | rfl
    · exact h r' hr'
    · exact hf r (h r (List.mem_of_getElem? (getElem?_of_fetch? hr)))

theorem Genuine.step (h : s.Genuine) (st : Step ε α) : (s.step st).state.Genuine := by
  cases st with
  | new slot data =>
    unfold Session.step
    dsimp only
    cases hdata : Resource.ofWire data with
    | error es => exact h
    | ok r =>
      intro r' hr'
      rcases List.mem_append.1 hr' with hr' | hr'
      · exact h r' hr'
      · rw [List.mem_singleton.1 hr']
        exact Resource.genuine_of_ofWire hdata
  | wire slot => exact h.onSlot fun r hr => hr
  | parsed slot => exact h.onSlot fun r hr => hr.parsed
  | set slot field v => exact h.onSlot fun r hr => hr.set field v
  | expand slot b => exact h.onSlot fun r hr => hr.parsed
  | recover slot uri => exact h.onSlot fun r hr => hr.parsed
  | add slot handler =>
    unfold Session.step
    dsimp only
    split <;> exact h
  | remove pattern => exact h
  | clear => exact h
  | resolve uri => exact h
  | read uri => exact h

theorem Genuine.after (h : s.Genuine) (steps : List (Step ε α)) : (after s steps).Genuine := by
  induction steps generalizing s with
  | nil => exact h
  | cons st steps ih => exact ih (h.step st)

/-! ### what the steps on a slot answer -/

theorem Genuine.of_fetch? (h : s.Genuine) (hr : s.fetch? slot = some (ref, r)) : r.Genuine :=
  h r (List.mem_of_getElem? (getElem?_of_fetch? hr))

theorem Genuine.answer_parsed (h : s.Genuine) (hr : s.fetch? slot = some (ref, r)) :
    (s.step (.parsed slot)).answer = (r.reading.map .parsed).mapError .resource := by
  rw [Session.step, onSlot_of_fetch? hr, ← (h.of_fetch? hr).parsed_fst]

theorem Genuine.answer_expand (h : s.Genuine) (hr : s.fetch? slot = some (ref, r)) (b : Bindings) :
    (s.step (.expand slot b)).answer =
      ((r.reading.bind fun t => (UriTemplate.expand t.parts b).mapError .value).map
        .expanded).mapError .resource := by
  rw [Session.step, onSlot_of_fetch? hr, ← (h.of_fetch? hr).parsed_fst]
  rfl

theorem Genuine.answer_recover (h : s.Genuine) (hr : s.fetch? slot = some (ref, r)) (uri : Text) :
    (s.step (.recover slot uri)).answer =
      ((r.reading.map fun t => t.recover? uri).map .found).mapError .resource := by
  rw [Session.step, onSlot_of_fetch? hr, ← (h.of_fetch? hr).parsed_fst]
  rfl

/-- Behind every list of steps, failed parses and assignments of old and of malformed texts among
them, a resource has the text that it was given last, is parsed as that text, and is expanded and
matched as that parse. -/
theorem after_parses_current (steps : List (Step ε α)) {source : Text}
    (hr : (after empty steps).fetch? slot = some (ref, r)) (hsource : r.uriTemplate = some source) :
    lastGiven slot steps = some (some source) ∧
    ((after empty steps).step (.parsed slot)).answer =
      ((parse source).map .parsed).mapError (fun e => .resource (.malformed e)) ∧
    (∀ b, ((after empty steps).step (.expand slot b)).answer =
      match parse source with
      | .error e => .error (.resource (.malformed e))
      | .ok t => match expand t.parts b with
        | .ok uri => .ok (.expanded uri)
        | .error e => .error (.resource (.value e))) ∧
    ∀ uri, ((after empty steps).step (.recover slot uri)).answer =
      ((parse source).map fun t => .found (t.recover? uri)).mapError
        fun e => .resource (.malformed e) := by
  have h : (after empty steps).Genuine := genuine_empty.after steps
  have hreading : r.reading = (parse source).mapError .malformed := by
    rw [Resource.reading, hsource]
  refine ⟨?_, ?_, fun b => ?_, fun uri => ?_⟩
  · have hheld : (after empty steps).held slot = lastGiven slot steps :=
      apart_empty.held_after steps
    rw [← hheld, held_of_fetch? hr, hsource]
  · rw [h.answer_parsed hr, hreading]
    cases parse source <;> rfl
  · rw [h.answer_expand hr, hreading]
    cases parse source with
    | error e => rfl
    | ok t =>
      dsimp only [Except.mapError, Except.bind]
      cases expand t.parts b <;> rfl
  · rw [h.answer_recover hr, hreading]
    cases parse source <;> rfl

/-- A template that is parsed, assigned over by a malformed one, on which a parse fails, and by
another one, as which it is matched from then on. -/
theorem after_parses_current_replaced :
    let a : Text := ['a', '/', '{', 'x', '}']
    let b : Text := ['b', '/', '{', 'y', '}']
    let steps : List (Step Unit Unit) :=
      [.new ['r'] (.map [(.text "uriTemplate".toList, .text a), (.text "name".toList, .text [])]),
        .parsed ['r'], .set ['r'] .uriTemplate (some ['{']), .parsed ['r'],
        .set ['r'] .uriTemplate (some b)]
    ∃ ref r, (after empty steps).fetch? ['r'] = some (ref, r) ∧ r.uriTemplate = some b ∧
      lastGiven ['r'] steps = some (some b) ∧
      ((after empty steps).step (.recover ['r'] ['b', '/', '7'])).answer =
        .ok (.found (some ⟨b, ⟨[(['y'], .text ['7'])]⟩⟩)) := by
  intro a b steps
  -- the template that is kept is still the first one
  have hr : (after empty steps).fetch? ['r'] =
      some (0, ⟨some b, some [], none, none, none, some ⟨a, [.literal ['a', '/'],
        .expression ⟨.simple, [⟨['x'], .whole⟩]⟩]⟩⟩) := by
    decide +kernel
  obtain ⟨hlast, -, -, hrecover⟩ := after_parses_current steps hr rfl
  refine ⟨_, _, hr, rfl, hlast, ?_⟩
  rw [hrecover]
  decide +kernel

end
end Session
end UriTemplate
