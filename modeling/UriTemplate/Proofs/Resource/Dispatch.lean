import UriTemplate.Proofs.Resource.Session

/-!
# Whose handler a read calls

A read finds the resource by the pattern that matched and the handler by the template that the
resource has now. The two differ where a resource got another template while the catalogue refers to
it, and there a read may pass the variables of one pattern to the handler of another.

* `Session.additions`, `lastAdded?`   all that a list of steps has added to the catalogue, whatever
                                      became of it, and the last handler under a pattern;
* `Session.Attributed`                every entry has the handler that was added last under its
                                      pattern. Every step keeps this (`Attributed.step`);
* `Session.calls_iff`                 all calls that a read can make;
* `Session.calls_lastAdded_iff`       when it is the right one.
-/

namespace UriTemplate
namespace Session
open Catalogue Routes

section
variable {ε α : Type}

/-! ### what was added -/

/-- the pattern and the handler that a step adds to the catalogue -/
def addition? (s : Session ε α) : Step ε α → Option (Text × Handler ε α)
  | .add slot handler =>
    match (s.step (.add slot handler)).answer with
    | .ok _ => (s.fetch? slot).bind fun p => p.2.uriTemplate.map fun pattern => (pattern, handler)
    | .error _ => none
  | _ => none

/-- all additions of a list of steps, in order -/
def additions (s : Session ε α) : List (Step ε α) → List (Text × Handler ε α)
  | [] => []
  | st :: steps => (s.addition? st).toList ++ additions (s.step st).state steps

/-- the handler that came last under a pattern -/
def lastAdded? (added : List (Text × Handler ε α)) (pattern : Text) : Option (Handler ε α) :=
  (added.reverse.find? fun a => a.1 = pattern).map Prod.snd

variable {added : List (Text × Handler ε α)} {pattern : Text} {handler : Handler ε α}

theorem lastAdded?_concat_self :
    lastAdded? (added ++ [(pattern, handler)]) pattern = some handler := by
  simp [lastAdded?]

theorem lastAdded?_concat_of_ne {other : Text} (h : other ≠ pattern) :
    lastAdded? (added ++ [(pattern, handler)]) other = lastAdded? added other := by
  simp [lastAdded?, h.symm]

/-! ### whose handlers the catalogue keeps -/

/-- Every entry has the handler that was added last under its pattern. -/
def Attributed (l : List (Entry ε α)) (added : List (Text × Handler ε α)) : Prop :=
  ∀ x ∈ l, lastAdded? added x.pattern = some x.handler

variable {s : Session ε α} {l : List (Entry ε α)}

theorem attributed_nil : Attributed ([] : List (Entry ε α)) [] := nofun

theorem Attributed.exists_lastAdded? (ha : Attributed l added)
    (h : pattern ∈ l.map Entry.pattern) : ∃ handler, lastAdded? added pattern = some handler := by
  obtain ⟨x, hx, rfl⟩ := List.mem_map.1 h
  exact ⟨x.handler, ha x hx⟩

/-- What a step adds it puts into the list of entries, and nothing else comes in. -/
theorem record_cases (h : s.Holds l) (st : Step ε α) :
    (s.addition? st = none ∧ ∀ x ∈ s.record l st, x ∈ l) ∨
    ∃ pattern ref handler, s.addition? st = some (pattern, handler) ∧
      s.record l st = put ⟨pattern, ref, handler⟩ l := by
  cases st with
  | add slot handler =>
    cases hr : s.fetch? slot with
    | none =>
      have hanswer : (s.step (.add slot handler)).answer = .error (.unknownSlot slot) := by
        rw [Session.step, hr]
      rw [addition?, hanswer, record, hr]
      exact .inl ⟨rfl, fun _ hx => hx⟩
    | some p =>
      obtain ⟨ref, r⟩ := p
      rw [addition?, h.answer_add hr, record, hr]
      dsimp only
      cases ht : accept (patternValue r.uriTemplate) with
      | error e => exact .inl ⟨rfl, fun _ hx => hx⟩
      | ok t =>
        refine .inr ⟨t.source, ref, handler, ?_, rfl⟩
        show (r.uriTemplate.map fun pattern => (pattern, handler)) = _
        rw [pattern_of_accept ht, Option.map_some]
  | remove pattern => exact .inl ⟨rfl, fun _ hx => List.mem_of_mem_filter hx⟩
  | clear => exact .inl ⟨rfl, fun _ hx => absurd hx List.not_mem_nil⟩
  | _ => exact .inl ⟨rfl, fun _ hx => hx⟩

theorem Attributed.step (ha : Attributed l added) (h : s.Holds l) (st : Step ε α) :
    Attributed (s.record l st) (added ++ (s.addition? st).toList) := by
  obtain ⟨hnone, hsub⟩ | ⟨pattern, ref, handler, hsome, hput⟩ := record_cases h st
  · rw [hnone, Option.toList_none, List.append_nil]
    exact fun x hx => ha x (hsub x hx)
  · rw [hsome, hput, Option.toList_some]
    intro x hx
    rcases mem_put hx with rfl | ⟨hx, hne⟩
    · exact lastAdded?_concat_self
    · -- an entry that was not replaced has another pattern
      rw [lastAdded?_concat_of_ne hne]
      exact ha x hx

theorem Attributed.after (ha : Attributed l added) (h : s.Holds l) (steps : List (Step ε α)) :
    Attributed (recordAll s l steps) (added ++ additions s steps) := by
  induction steps generalizing s l added with
  | nil =>
    rw [additions, List.append_nil]
    exact ha
  | cons st steps ih =>
    rw [additions, ← List.append_assoc]
    exact ih (ha.step h st) (h.step st)

/-! ### the call of a read -/

/-- A read of the URI makes this call. -/
def Calls (s : Session ε α) (uri : Text) (call : Call ε α) : Prop :=
  (s.catalogue.dispatch s.patternOf (.text uri)).answer = .ok call

variable {uri : Text} {call : Call ε α}

/-- what the handler answers or fails with is passed on -/
theorem Calls.answer_read (h : s.Calls uri call) :
    (s.step (.read (.text uri))).answer =
      (call.result.map .result).mapError fun e => .catalogue (.handler e) := by
  rw [Session.step, onCatalogue, Catalogue.read]
  dsimp only
  rw [h]
  show Except.mapError _ (Except.map _ (call.result.mapError _)) =
    Except.mapError _ (call.result.map _)
  cases call.result <;> rfl

theorem Holds.calls_iff_entries (h : s.Holds l) :
    s.Calls uri call ↔ ∃ x m y, firstMatch? l uri = some (x, m) ∧ y ∈ l ∧
      s.patternOf x.ref = some y.pattern ∧ call = ⟨y.handler, uri, m.params⟩ := by
  rw [Calls, h.catalogue.answer_dispatch_now]
  cases firstMatch? l uri with
  | none => exact ⟨nofun, nofun⟩
  | some p =>
    obtain ⟨x, m⟩ := p
    dsimp only
    constructor
    · intro hcall
      cases hfind : (s.patternOf x.ref).bind (column Entry.handler l).find? with
      | none =>
        rw [hfind] at hcall
        cases hcall
      | some handler =>
        rw [hfind] at hcall
        cases hcall
        obtain ⟨pattern, hpattern, hfind⟩ := Option.bind_eq_some_iff.1 hfind
        obtain ⟨y, hy, heq⟩ := List.mem_map.1 (Table.mem_of_find? hfind)
        cases heq
        exact ⟨x, m, y, rfl, hy, hpattern, rfl⟩
    · rintro ⟨x', m', y, heq, hy, hpattern, rfl⟩
      cases heq
      rw [hpattern, Option.bind_some, find?_column Entry.handler h.catalogue.nodup hy]

theorem Holds.match?_eq_some_iff (h : s.Holds l) {m : Match} :
    s.catalogue.routes.match? uri = some m ↔ ∃ x, firstMatch? l uri = some (x, m) := by
  rw [h.catalogue.match?_eq, Option.map_eq_some_iff]
  constructor
  · rintro ⟨⟨x, _⟩, hx, rfl⟩
    exact ⟨x, hx⟩
  · rintro ⟨x, hx⟩
    exact ⟨(x, m), hx, rfl⟩

/-- A read calls the handler that was added last under the template which the resource behind the
first match has now, if that is the pattern of a route, with the variables of that match. -/
theorem Holds.calls_iff (h : s.Holds l) (ha : Attributed l added) :
    s.Calls uri call ↔ ∃ m ref pattern,
      s.catalogue.routes.match? uri = some m ∧ s.catalogue.registered.find? m.template = some ref ∧
      s.patternOf ref = some pattern ∧ pattern ∈ s.catalogue.routes.sources ∧
      lastAdded? added pattern = some call.handler ∧ call.uri = uri ∧ call.params = m.params := by
  have hregistered : ∀ x m, firstMatch? l uri = some (x, m) →
      s.catalogue.registered.find? m.template = some x.ref := by
    intro x m hfirst
    obtain ⟨hx, hm⟩ := mem_of_firstMatch? hfirst
    rw [h.catalogue.registered, hm, find?_column Entry.ref h.catalogue.nodup hx]
  rw [h.calls_iff_entries, h.catalogue.sources]
  constructor
  · rintro ⟨x, m, y, hfirst, hy, hpattern, rfl⟩
    exact ⟨m, x.ref, y.pattern, h.match?_eq_some_iff.2 ⟨x, hfirst⟩, hregistered x m hfirst,
      hpattern, List.mem_map_of_mem hy, ha y hy, rfl, rfl⟩
  · rintro ⟨m, ref, pattern, hm, href, hpattern, hsource, hlast, huri, hparams⟩
    obtain ⟨x, hfirst⟩ := h.match?_eq_some_iff.1 hm
    rw [hregistered x m hfirst] at href
    cases href
    obtain ⟨y, hy, rfl⟩ := List.mem_map.1 hsource
    rw [ha y hy] at hlast
    obtain ⟨handler, uri', params⟩ := call
    cases hlast
    cases huri
    cases hparams
    exact ⟨x, m, y, hfirst, hy, hpattern, rfl⟩

/-! ### the handler of the pattern that matched -/

/-- Behind every list of steps, assignments to resources in the catalogue among them, a read calls
the handler that was added last under the first pattern that matches, if it calls one, exactly if
the resource behind that pattern has no pattern now under which another handler was added last. What
is called answers the read. -/
theorem calls_lastAdded_iff (steps : List (Step ε α)) (uri : Text) :
    let s := after empty steps
    let added := additions empty steps
    (∀ call, s.Calls uri call → (s.step (.read (.text uri))).answer =
      (call.result.map .result).mapError fun e => .catalogue (.handler e)) ∧
    ((∀ call, s.Calls uri call → ∃ m, s.catalogue.routes.match? uri = some m ∧
        lastAdded? added m.template = some call.handler ∧ call.uri = uri ∧
        call.params = m.params) ↔
      ∀ m ref pattern, s.catalogue.routes.match? uri = some m →
        s.catalogue.registered.find? m.template = some ref → s.patternOf ref = some pattern →
        pattern ∈ s.catalogue.routes.sources →
        lastAdded? added pattern = lastAdded? added m.template) := by
  intro s added
  have hs : s.Holds (recordAll empty [] steps) := holds_empty.after steps
  have hadded : Attributed (recordAll empty [] steps) added :=
    attributed_nil.after holds_empty steps
  refine ⟨fun call hcall => hcall.answer_read, fun hright m ref pattern hm href hpattern hsource => ?_,
    fun hright call hcall => ?_⟩
  · have hentry : pattern ∈ (recordAll empty [] steps).map Entry.pattern := by
      rwa [← hs.catalogue.sources]
    obtain ⟨handler, hlast⟩ := hadded.exists_lastAdded? hentry
    have hcall : s.Calls uri ⟨handler, uri, m.params⟩ :=
      (hs.calls_iff hadded).2 ⟨m, ref, pattern, hm, href, hpattern, hsource, hlast, rfl, rfl⟩
    obtain ⟨m', hm', hlast', -⟩ := hright _ hcall
    rw [hm] at hm'
    cases hm'
    rw [hlast, hlast']
  · obtain ⟨m, ref, pattern, hm, href, hpattern, hsource, hlast, huri, hparams⟩ :=
      (hs.calls_iff hadded).1 hcall
    rw [hright m ref pattern hm href hpattern hsource] at hlast
    exact ⟨m, hm, hlast, huri, hparams⟩

/-- A resource that was added under one pattern gets the pattern of another one: what the first
pattern matches goes to the handler of the second one. -/
theorem calls_other_handler :
    let a : Text := ['a', '/', '{', 'x', '}']
    let b : Text := ['b', '/', '{', 'y', '}']
    let data (pattern : Text) : Value :=
      .map [(.text "uriTemplate".toList, .text pattern), (.text "name".toList, .text [])]
    let steps : List (Step Unit Text) :=
      [.new ['r'] (data a), .new ['s'] (data b), .add ['r'] fun _ _ => .ok ['1'],
        .add ['s'] fun _ _ => .ok ['2'], .set ['r'] .uriTemplate (some b)]
    ∃ call m, (after empty steps).Calls ['a', '/', '7'] call ∧
      (after empty steps).catalogue.routes.match? ['a', '/', '7'] = some m ∧ m.template = a ∧
      call.params = m.params ∧ call.result = .ok ['2'] ∧
      lastAdded? (additions empty steps) m.template ≠ some call.handler := by
  intro a b data steps
  have hs : (after empty steps).Holds (recordAll empty [] steps) := holds_empty.after steps
  have hentries : recordAll empty [] steps =
      [⟨a, 0, fun _ _ => .ok ['1']⟩, ⟨b, 1, fun _ _ => .ok ['2']⟩] := by rfl
  have hadded : additions empty steps =
      [(a, fun _ _ => .ok ['1']), (b, fun _ _ => .ok ['2'])] := by rfl
  rw [hentries] at hs
  have hmatch : matchOf? a ['a', '/', '7'] = some ⟨a, ⟨[(['x'], .text ['7'])]⟩⟩ := by
    decide +kernel
  have hfirst : firstMatch? [⟨a, 0, fun _ _ => .ok ['1']⟩, ⟨b, 1, fun _ _ => .ok ['2']⟩]
      ['a', '/', '7'] = some (Entry.mk a 0 fun _ _ => Except.ok (ε := Unit) ['1'],
        ⟨a, ⟨[(['x'], .text ['7'])]⟩⟩) := by
    rw [firstMatch?, List.findSome?_cons, hmatch]
    rfl
  refine ⟨⟨fun _ _ => .ok ['2'], ['a', '/', '7'], ⟨[(['x'], .text ['7'])]⟩⟩, _, ?_,
    hs.match?_eq_some_iff.2 ⟨_, hfirst⟩, rfl, rfl, rfl, ?_⟩
  · have hpattern : (after empty steps).patternOf 0 = some b := by decide +kernel
    exact hs.calls_iff_entries.2
      ⟨_, _, ⟨b, 1, fun _ _ => .ok ['2']⟩, hfirst, List.mem_of_mem_tail List.mem_cons_self, hpattern,
        rfl⟩
  · rw [hadded]
    intro hlast
    have hsame := congrFun (congrFun (Option.some.inj hlast) []) Table.empty
    cases hsame

end
end Session
end UriTemplate
