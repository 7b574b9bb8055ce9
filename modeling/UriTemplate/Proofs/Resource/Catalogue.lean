import UriTemplate.Proofs.Routes
import UriTemplate.Proofs.Table
import UriTemplate.Resource.Catalogue

/-!
# A catalogue is one list of entries

A catalogue keeps its routes, the resources and the handlers apart. They are three views of one
list, whose entries hold a pattern, a resource and a handler each.

* `Catalogue.put`, `discard`   what an addition and a removal do to the list;
* `firstMatch?`                the entry that a URI belongs to;
* `Holds`                      the three views show the list, in its order. Every change keeps this,
                               and the answers of a catalogue are told by the list.
-/

namespace UriTemplate
namespace Catalogue
open Routes

/-! ### lists of entries -/

/-- named, so that looking for a pattern below does not use the unnamed one of another definition -/
local instance : LawfulBEq Text := List.instLawfulBEq

/-- what a catalogue knows about one pattern -/
structure Entry (ε α : Type) where
  pattern : Text
  ref : Ref
  handler : Handler ε α

section
variable {ε α β : Type} {l : List (Entry ε α)} {x : Entry ε α}

/-- An entry takes the place of the one with its pattern, and else the last one. -/
def put (x : Entry ε α) (l : List (Entry ε α)) : List (Entry ε α) :=
  if x.pattern ∈ l.map Entry.pattern then l.map fun y => if y.pattern = x.pattern then x else y
  else l ++ [x]

def discard (pattern : Text) (l : List (Entry ε α)) : List (Entry ε α) :=
  l.filter fun y => y.pattern ≠ pattern

/-- the variables that a pattern gets from a URI, if it is one and matches -/
def matchOf? (pattern uri : Text) : Option Match :=
  match parse pattern with
  | .ok t => t.recover? uri
  | .error _ => none

/-- the first entry whose pattern matches, with its match -/
def firstMatch? (l : List (Entry ε α)) (uri : Text) : Option (Entry ε α × Match) :=
  l.findSome? fun x => (matchOf? x.pattern uri).map fun m => (x, m)

theorem put_of_mem (h : x.pattern ∈ l.map Entry.pattern) :
    put x l = l.map fun y => if y.pattern = x.pattern then x else y := if_pos h

theorem put_of_not_mem (h : x.pattern ∉ l.map Entry.pattern) : put x l = l ++ [x] := if_neg h

/-- an addition changes nothing about other patterns -/
theorem mem_put {y : Entry ε α} (h : y ∈ put x l) : y = x ∨ y ∈ l ∧ y.pattern ≠ x.pattern := by
  by_cases hx : x.pattern ∈ l.map Entry.pattern
  · rw [put_of_mem hx] at h
    obtain ⟨z, hz, rfl⟩ := List.mem_map.1 h
    split
    · exact .inl rfl
    · next hne => exact .inr ⟨hz, hne⟩
  · rw [put_of_not_mem hx] at h
    rcases List.mem_append.1 h with h | h
    · exact .inr ⟨h, fun heq => hx (heq ▸ List.mem_map_of_mem h)⟩
    · exact .inl (List.mem_singleton.1 h)

theorem map_pattern_put_of_mem (h : x.pattern ∈ l.map Entry.pattern) :
    (put x l).map Entry.pattern = l.map Entry.pattern := by
  rw [put_of_mem h, List.map_map]
  refine List.map_congr_left fun y _ => ?_
  show (if y.pattern = x.pattern then x else y).pattern = y.pattern
  split
  · next heq => exact heq.symm
  · rfl

/-! ### tables that show a list -/

/-- the table of one datum of the entries -/
def column (f : Entry ε α → β) (l : List (Entry ε α)) : Table Text β :=
  ⟨l.map fun x => (x.pattern, f x)⟩

theorem keys_column (f : Entry ε α → β) (l : List (Entry ε α)) :
    (column f l).keys = l.map Entry.pattern := by
  simp [column, Table.keys]

theorem insert_column (f : Entry ε α → β) (hl : (l.map Entry.pattern).Nodup) (x : Entry ε α) :
    (column f l).insert x.pattern (f x) = column f (put x l) := by
  rw [← keys_column f] at hl
  by_cases hx : x.pattern ∈ l.map Entry.pattern
  · rw [put_of_mem hx, Table.insert_of_mem hl (by rwa [keys_column])]
    unfold column
    rw [List.map_map, List.map_map]
    refine congrArg Table.mk (List.map_congr_left fun y _ => ?_)
    dsimp only [Function.comp_apply]
    split <;> rfl
  · rw [put_of_not_mem hx, Table.insert_of_not_mem (by rwa [keys_column])]
    unfold column
    rw [List.map_append, List.map_singleton]

theorem erase_column (f : Entry ε α → β) (pattern : Text) (l : List (Entry ε α)) :
    (column f l).erase pattern = column f (discard pattern l) := by
  unfold column Table.erase discard
  rw [List.filter_map]
  rfl

theorem find?_column (f : Entry ε α → β) (hl : (l.map Entry.pattern).Nodup) (hx : x ∈ l) :
    (column f l).find? x.pattern = some (f x) := by
  rw [← keys_column f] at hl
  exact Table.find?_of_mem hl (List.mem_map.2 ⟨x, hx, rfl⟩)

/-! ### catalogues that hold a list -/

/-- The routes, the resources and the handlers of a catalogue show one list of entries. -/
structure Holds (c : Catalogue ε α) (l : List (Entry ε α)) : Prop where
  valid : c.routes.Valid
  sources : c.routes.sources = l.map Entry.pattern
  registered : c.registered = column Entry.ref l
  handlers : c.handlers = column Entry.handler l

variable {c : Catalogue ε α}

theorem Holds.nodup (h : c.Holds l) : (l.map Entry.pattern).Nodup := h.sources ▸ h.valid.nodup

theorem holds_empty : (empty : Catalogue ε α).Holds [] := ⟨valid_empty, rfl, rfl, rfl⟩

/-- An addition fails and changes nothing, or puts an entry into the list. -/
theorem Holds.add_cases (h : c.Holds l) (ref : Ref) (pattern : Option Text)
    (handler : Handler ε α) :
    (∃ e, accept (patternValue pattern) = .error e ∧
      (c.add ref pattern handler).answer = .error (.route e) ∧
      (c.add ref pattern handler).state = c) ∨
    ∃ t, accept (patternValue pattern) = .ok t ∧ (c.add ref pattern handler).answer = .ok () ∧
      (c.add ref pattern handler).state.Holds (put ⟨t.source, ref, handler⟩ l) := by
  unfold add
  obtain ⟨e, he, hadd⟩ | ⟨t, ht, hmem, hadd⟩ | ⟨t, ht, hnew, hadd⟩ :=
    Routes.add_cases h.valid (patternValue pattern)
  · rw [hadd]
    exact .inl ⟨e, he, rfl, rfl⟩
  · rw [hadd]
    refine .inr ⟨t, ht, rfl, h.valid, ?_, ?_, ?_⟩
    · rw [h.sources] at hmem
      exact h.sources.trans (map_pattern_put_of_mem hmem).symm
    · exact h.registered ▸ insert_column Entry.ref h.nodup ⟨t.source, ref, handler⟩
    · exact h.handlers ▸ insert_column Entry.handler h.nodup ⟨t.source, ref, handler⟩
  · rw [hadd]
    refine .inr ⟨t, ht, rfl, h.valid.append hnew (eq_text_of_accept ht ▸ ht), ?_, ?_, ?_⟩
    · rw [h.sources] at hnew
      rw [put_of_not_mem hnew, List.map_append, ← h.sources]
      exact sources_append _ _
    · exact h.registered ▸ insert_column Entry.ref h.nodup ⟨t.source, ref, handler⟩
    · exact h.handlers ▸ insert_column Entry.handler h.nodup ⟨t.source, ref, handler⟩

theorem Holds.remove (h : c.Holds l) (pattern : Text) :
    (c.remove pattern).state.Holds (discard pattern l) := by
  have hroutes : (c.remove pattern).state.routes = c.routes.erase pattern :=
    removeText_state c.routes pattern
  refine ⟨hroutes ▸ h.valid.erase pattern, ?_, ?_, ?_⟩
  · rw [hroutes, sources_erase, h.sources, List.filter_map]
    rfl
  · show c.registered.erase pattern = _
    rw [h.registered, erase_column]
  · show c.handlers.erase pattern = _
    rw [h.handlers, erase_column]

theorem Holds.clear (c : Catalogue ε α) : c.clear.state.Holds [] := ⟨valid_empty, rfl, rfl, rfl⟩

/-- every route has a resource -/
theorem Holds.resources? (h : c.Holds l) : c.resources? = some (l.map Entry.ref) := by
  rw [Catalogue.resources?, h.sources, h.registered, List.mapM_map]
  exact mapM_eq_some_map fun x hx => find?_column Entry.ref h.nodup hx

/-! ### what is found -/

theorem mem_of_firstMatch? {uri : Text} {m : Match} (h : firstMatch? l uri = some (x, m)) :
    x ∈ l ∧ m.template = x.pattern := by
  obtain ⟨front, y, behind, rfl, hy, -⟩ := List.findSome?_eq_some_iff.1 h
  obtain ⟨m', hm, heq⟩ := Option.map_eq_some_iff.1 hy
  cases heq
  refine ⟨List.mem_append_right _ List.mem_cons_self, ?_⟩
  unfold matchOf? at hm
  split at hm
  · next t ht => rw [template_of_recover? hm, source_of_parse ht]
  · cases hm

theorem findSome?_recover? {ts : List Template} (hts : ∀ t ∈ ts, parse t.source = .ok t)
    (h : ts.map Template.source = l.map Entry.pattern) (uri : Text) :
    (ts.findSome? fun t => t.recover? uri) = (firstMatch? l uri).map Prod.snd := by
  induction l generalizing ts with
  | nil =>
    rw [List.map_eq_nil_iff.1 h]
    rfl
  | cons x l ih =>
    obtain ⟨t, ts, rfl, hx, hl⟩ := List.map_eq_cons_iff.1 h
    obtain ⟨ht, hts⟩ := List.forall_mem_cons.1 hts
    have hmatch : matchOf? x.pattern uri = t.recover? uri := by rw [matchOf?, ← hx, ht]
    rw [firstMatch?, List.findSome?_cons, List.findSome?_cons, hmatch]
    cases t.recover? uri with
    | none => exact ih hts hl
    | some m => rfl

theorem Holds.match?_eq (h : c.Holds l) (uri : Text) :
    c.routes.match? uri = (firstMatch? l uri).map Prod.snd :=
  findSome?_recover? (fun _ ht => h.valid.parse_eq_ok ht) h.sources uri

theorem Holds.answer_resolve (h : c.Holds l) (uri : Text) :
    (c.resolve (.text uri)).answer = .ok ((firstMatch? l uri).map fun p => (p.1.ref, p.2)) := by
  have hroutes : (c.routes.resolve (.text uri)).answer =
      .ok ((firstMatch? l uri).map Prod.snd) := by
    rw [← h.match?_eq, Routes.resolve]
    split
    next m hm => rw [hm]
    next hm => rw [hm]
  unfold resolve
  dsimp only
  rw [hroutes]
  cases hfirst : firstMatch? l uri with
  | none => rfl
  | some p =>
    obtain ⟨x, m⟩ := p
    obtain ⟨hx, hm⟩ := mem_of_firstMatch? hfirst
    dsimp only [Option.map_some]
    rw [h.registered, hm, find?_column Entry.ref h.nodup hx]

theorem resolve_state (c : Catalogue ε α) (v : Value) : (c.resolve v).state = c := by
  show { c with routes := (c.routes.resolve v).state } = c
  rw [Routes.resolve_state]

variable {patternOf : Ref → Option Text}

/-- A URI leads to the handler under the pattern that the resource behind its match has now. -/
theorem Holds.answer_dispatch_now (h : c.Holds l) (patternOf : Ref → Option Text) (uri : Text) :
    (c.dispatch patternOf (.text uri)).answer =
      match firstMatch? l uri with
      | some (x, m) =>
        match (patternOf x.ref).bind (column Entry.handler l).find? with
        | some handler => .ok ⟨handler, uri, m.params⟩
        | none => .error (.noHandler (patternOf x.ref))
      | none => .error (.unknownResource uri) := by
  unfold dispatch
  dsimp only
  rw [h.answer_resolve, h.handlers]
  cases firstMatch? l uri <;> rfl

/-- A URI leads to one call, of the handler that the entry holds, as long as its resource has the
pattern still. -/
theorem Holds.answer_dispatch (h : c.Holds l)
    (hcurrent : ∀ x ∈ l, patternOf x.ref = some x.pattern) (uri : Text) :
    (c.dispatch patternOf (.text uri)).answer =
      match firstMatch? l uri with
      | some (x, m) => .ok ⟨x.handler, uri, m.params⟩
      | none => .error (.unknownResource uri) := by
  rw [h.answer_dispatch_now]
  cases hfirst : firstMatch? l uri with
  | none => rfl
  | some p =>
    obtain ⟨x, m⟩ := p
    obtain ⟨hx, -⟩ := mem_of_firstMatch? hfirst
    dsimp only
    rw [hcurrent x hx, Option.bind_some, find?_column Entry.handler h.nodup hx]

theorem dispatch_state (c : Catalogue ε α) (patternOf : Ref → Option Text) (v : Value) :
    (c.dispatch patternOf v).state = c := by
  unfold dispatch
  split
  · dsimp only
    split <;> exact resolve_state c _
  · rfl

theorem read_state (c : Catalogue ε α) (patternOf : Ref → Option Text) (v : Value) :
    (c.read patternOf v).state = c := dispatch_state c patternOf v

end
end Catalogue
end UriTemplate
