import UriTemplate.Proofs.Template.Braces
import UriTemplate.Routes

/-!
# Routes are a list of template texts

All that routes do is told by the list of the texts of their templates, in order, and by the parser.

* `accept`, `record`          what an addition answers, whatever routes there are, and what a step
                              makes of the list of texts.
* `Routes.Valid`              no text stands twice, and every template is what its own text is
                              accepted as. A step keeps it (`Valid.step`), so no kept template goes
                              stale.
* `Routes.add_cases`          the three ways in which an addition ends.
* `Routes.Refines`            routes behave as a list of texts.
* `Routes.after_refines`      behind every list of steps, failed ones among them, the routes behave as
                              the list that the records of the steps lead to.
-/

namespace UriTemplate
namespace Routes

/-! ### what the steps mean for a list of texts -/

/-- what an addition answers: the template of the text, unless the text is blank but not empty -/
def accept : Value → Except RouteError Template
  | .text s =>
    if !s.isEmpty && s.isBlank then .error .blankTemplate else (parse s).mapError .malformed
  | _ => .error .templateNotText

/-- the list of texts behind a step -/
def record (l : List Text) : Step → List Text
  | .add v =>
    match accept v with
    | .ok t => if l.contains t.source then l else l ++ [t.source]
    | .error _ => l
  | .remove (.text s) => l.erase s
  | .clear => []
  | _ => l

theorem accept_text_eq_ok_iff {s : Text} {t : Template} :
    accept (.text s) = .ok t ↔ (s = [] ∨ ∃ c ∈ s, isBlankChar c = false) ∧ parse s = .ok t := by
  have hblank : (!s.isEmpty && s.isBlank) = true ↔ ¬ (s = [] ∨ ∃ c ∈ s, isBlankChar c = false) := by
    simp [Text.isBlank]
  rw [accept]
  split
  next h => simp [hblank.mp h]
  next h =>
    rw [hblank, not_not] at h
    cases parse s <;> simp [Except.mapError, h]

/-- a value that is accepted is the text of its template -/
theorem eq_text_of_accept {v : Value} {t : Template} (h : accept v = .ok t) :
    v = .text t.source := by
  cases v with
  | text s => rw [source_of_parse (accept_text_eq_ok_iff.1 h).2]
  | _ => cases h

/-! ### valid routes -/

structure Valid (r : Routes) : Prop where
  nodup : r.sources.Nodup
  accepted : ∀ t ∈ r.templates, accept (.text t.source) = .ok t

theorem valid_empty : empty.Valid := ⟨List.nodup_nil, nofun⟩

section
variable {r : Routes}

theorem Valid.parse_eq_ok (hr : r.Valid) {t : Template} (ht : t ∈ r.templates) :
    parse t.source = .ok t := (accept_text_eq_ok_iff.1 (hr.accepted t ht)).2

theorem Valid.append (hr : r.Valid) {t : Template} (hnew : t.source ∉ r.sources)
    (ht : accept (.text t.source) = .ok t) : (r.append t).Valid where
  nodup := by
    rw [sources_append, List.nodup_append]
    refine ⟨hr.nodup, by simp, ?_⟩
    rintro s hs _ hs' rfl
    exact hnew (List.mem_singleton.1 hs' ▸ hs)
  accepted u hu := by
    obtain hu | hu := List.mem_append.1 hu
    · exact hr.accepted u hu
    · rwa [List.mem_singleton.1 hu]

theorem Valid.erase (hr : r.Valid) (s : Text) : (r.erase s).Valid where
  nodup := by
    rw [sources_erase]
    exact hr.nodup.filter _
  accepted t ht := hr.accepted t (List.mem_of_mem_filter ht)

/-! ### one step -/

/-- An addition fails and leaves the routes, or finds its template there, or appends it. -/
theorem add_cases (hr : r.Valid) (v : Value) :
    (∃ e, accept v = .error e ∧ r.add v = ⟨.error e, [], r⟩) ∨
    (∃ t, accept v = .ok t ∧ t.source ∈ r.sources ∧
      r.add v = ⟨.ok t, [.alreadyRegistered t.source], r⟩) ∨
    (∃ t, accept v = .ok t ∧ t.source ∉ r.sources ∧
      r.add v = ⟨.ok t, [.registered t.source], r.append t⟩) := by
  cases v with
  | text s =>
    simp only [add, addText, accept]
    split
    next => exact .inl ⟨_, rfl, rfl⟩
    next hs =>
      cases hfind : r.find? s with
      | some t =>
        obtain rfl := source_of_find? hfind
        have hparse := hr.parse_eq_ok (List.mem_of_find?_eq_some hfind)
        refine .inr (.inl ⟨t, by rw [hparse]; rfl, ?_, rfl⟩)
        exact isSome_find?_iff.1 (by rw [hfind]; rfl)
      | none =>
        have hnew : s ∉ r.sources := by
          rw [← isSome_find?_iff, hfind]
          exact Bool.false_ne_true
        cases hparse : parse s with
        | ok t =>
          obtain rfl := source_of_parse hparse
          exact .inr (.inr ⟨t, rfl, hnew, rfl⟩)
        | error e => exact .inl ⟨_, rfl, rfl⟩
  | _ => exact .inl ⟨_, rfl, rfl⟩

/-- Where nothing has the text, nothing is taken out. -/
theorem erase_of_not_mem {s : Text} (h : s ∉ r.sources) : r.erase s = r := by
  have hkeep : ∀ t ∈ r.templates, decide (t.source ≠ s) = true := fun t ht =>
    decide_eq_true fun heq => h (List.mem_map.2 ⟨t, ht, heq⟩)
  unfold erase
  rw [List.filter_eq_self.2 hkeep]

theorem removeText_state (r : Routes) (s : Text) : (r.removeText s).state = r.erase s := by
  unfold removeText
  split
  next => rfl
  next h => rw [erase_of_not_mem (mt isSome_find?_iff.2 h)]

/-- A removal is of a text, which does not fail, or leaves the routes. -/
theorem remove_cases (r : Routes) (v : Value) :
    (∃ s, v = .text s ∧ (r.remove v).answer = .ok () ∧ (r.remove v).state = r.erase s) ∨
    (∀ s, v ≠ .text s) ∧ (r.remove v).state = r := by
  unfold remove
  split
  next s =>
    refine .inl ⟨s, rfl, ?_, removeText_state r s⟩
    unfold removeText
    split <;> rfl
  next hv =>
    refine .inr ⟨hv, ?_⟩
    split
    · split <;> rfl
    · rfl

theorem resolve_state (r : Routes) (v : Value) : (r.resolve v).state = r := by
  unfold resolve
  split
  · split <;> rfl
  · rfl

theorem contains_state (r : Routes) (v : Value) : (r.contains v).state = r := by
  unfold contains
  split
  · rfl
  · split <;> rfl

@[simp] theorem Result.as_state {α : Type} (o : Result α) (f : α → Answer) :
    (o.as f).state = o.state := rfl

@[simp] theorem Result.as_answer {α : Type} (o : Result α) (f : α → Answer) :
    (o.as f).answer = o.answer.map f := rfl

theorem Valid.step (hr : r.Valid) (s : Step) : (r.step s).state.Valid := by
  cases s with
  | add v =>
    rw [Routes.step, Result.as_state]
    obtain ⟨e, -, h⟩ | ⟨t, -, -, h⟩ | ⟨t, ht, hnew, h⟩ := add_cases hr v
    · rwa [h]
    · rwa [h]
    · rw [h]
      exact hr.append hnew (eq_text_of_accept ht ▸ ht)
  | remove v =>
    rw [Routes.step, Result.as_state]
    obtain ⟨s, -, -, h⟩ | ⟨-, h⟩ := remove_cases r v
    · exact h ▸ hr.erase s
    · rwa [h]
  | resolve v => rwa [Routes.step, Result.as_state, resolve_state]
  | contains v => rwa [Routes.step, Result.as_state, contains_state]
  | clear => exact valid_empty

/-- A step does to the texts what its record says. -/
theorem sources_step (hr : r.Valid) (s : Step) :
    (r.step s).state.sources = record r.sources s := by
  cases s with
  | add v =>
    rw [step, Result.as_state]
    obtain ⟨e, ht, h⟩ | ⟨t, ht, hmem, h⟩ | ⟨t, ht, hnew, h⟩ := add_cases hr v
    · simp only [record, ht, h]
    · simp only [record, ht, h, List.contains_iff_mem, if_pos hmem]
    · simp only [record, ht, h, List.contains_iff_mem, if_neg hnew, sources_append]
  | remove v =>
    rw [step, Result.as_state]
    obtain ⟨s, rfl, -, h⟩ | ⟨hv, h⟩ := remove_cases r v
    · rw [h, sources_erase, record, hr.nodup.erase_eq_filter]
      exact List.filter_congr fun u _ => by simp [bne, decide_not, beq_eq_decide]
    · cases v with
      | text s => exact absurd rfl (hv s)
      | _ => rw [h]; rfl
  | resolve v => rw [step, Result.as_state, resolve_state]; rfl
  | contains v => rw [step, Result.as_state, contains_state]; rfl
  | clear => rfl

theorem answer_add (hr : r.Valid) (v : Value) :
    (r.step (.add v)).answer = (accept v).map .added := by
  rw [step, Result.as_answer]
  obtain ⟨e, ht, h⟩ | ⟨t, ht, -, h⟩ | ⟨t, ht, -, h⟩ := add_cases hr v <;> rw [ht, h]

theorem state_of_error (hr : r.Valid) {s : Step} {e : RouteError}
    (h : (r.step s).answer = .error e) : (r.step s).state = r := by
  cases s with
  | add v =>
    rw [answer_add hr] at h
    obtain ⟨e', -, hadd⟩ | ⟨t, ht, -⟩ | ⟨t, ht, -⟩ := add_cases hr v
    · rw [step, Result.as_state, hadd]
    · rw [ht] at h; cases h
    · rw [ht] at h; cases h
  | remove v =>
    obtain ⟨s, -, hok, -⟩ | ⟨-, hstate⟩ := remove_cases r v
    · rw [step, Result.as_answer, hok] at h
      cases h
    · exact hstate
  | resolve v => exact resolve_state r v
  | contains v => exact contains_state r v
  | clear => cases h

/-! ### what is found -/

theorem match?_eq_none_iff (hr : r.Valid) {uri : Text} :
    r.match? uri = none ↔ ∀ s ∈ r.sources, ∀ t, parse s = .ok t → t.recover? uri = none := by
  simp only [match?, List.findSome?_eq_none_iff, sources, List.forall_mem_map]
  refine forall₂_congr fun t ht => ?_
  rw [hr.parse_eq_ok ht]
  simp

/-- The match is that of the first text whose template has one. -/
theorem match?_eq_some_iff (hr : r.Valid) {uri : Text} {m : Match} :
    r.match? uri = some m ↔
      ∃ front s behind t, r.sources = front ++ s :: behind ∧ parse s = .ok t ∧
        t.recover? uri = some m ∧ ∀ u ∈ front, ∀ t, parse u = .ok t → t.recover? uri = none := by
  rw [match?, List.findSome?_eq_some_iff]
  constructor
  · rintro ⟨front, t, behind, heq, hm, hnone⟩
    have hmem {u} (hu : u ∈ front ++ t :: behind) : parse u.source = .ok u :=
      hr.parse_eq_ok (heq ▸ hu)
    refine ⟨front.map Template.source, t.source, behind.map Template.source, t, ?_, ?_, hm, ?_⟩
    · rw [sources, heq, List.map_append, List.map_cons]
    · exact hmem (by simp)
    · rintro _ hmap t' ht'
      obtain ⟨u, hu, rfl⟩ := List.mem_map.1 hmap
      rw [hmem (List.mem_append_left _ hu)] at ht'
      cases ht'
      exact hnone _ hu
  · rintro ⟨front, s, behind, t, heq, ht, hm, hnone⟩
    obtain ⟨ts, us, htemplates, rfl, hus⟩ := List.map_eq_append_iff.1 heq
    obtain ⟨t', vs, rfl, rfl, rfl⟩ := List.map_eq_cons_iff.1 hus
    have hmem {u} (hu : u ∈ ts ++ t' :: vs) : parse u.source = .ok u :=
      hr.parse_eq_ok (htemplates ▸ hu)
    obtain rfl : t' = t := by simpa [hmem] using ht
    refine ⟨ts, t', vs, htemplates, hm, fun u hu => ?_⟩
    exact hnone _ (List.mem_map_of_mem hu) u (hmem (List.mem_append_left _ hu))

/-- a match names the text of its template -/
theorem template_of_recover? {t : Template} {uri : Text} {m : Match}
    (h : t.recover? uri = some m) : m.template = t.source := by
  obtain ⟨params, -, rfl⟩ := Option.map_eq_some_iff.1 h
  rfl

theorem answer_resolve (r : Routes) (uri : Text) :
    (r.step (.resolve (.text uri))).answer = .ok (.found (r.match? uri)) := by
  rw [step, Result.as_answer, resolve]
  split
  next m h => rw [h]; rfl
  next h => rw [h]; rfl

/-! ### runs -/

theorem run_append (r : Routes) (ss : List Step) (s : Step) :
    run r (ss ++ [s]) = run r ss ++ [(after r ss).step s] := by
  induction ss generalizing r with
  | nil => rfl
  | cons s' ss ih => exact congrArg (r.step s' :: ·) (ih (r.step s').state)

theorem Valid.after (hr : r.Valid) (ss : List Step) : (after r ss).Valid := by
  induction ss generalizing r with
  | nil => exact hr
  | cons s ss ih => exact ih (hr.step s)

theorem sources_after (hr : r.Valid) (ss : List Step) :
    (after r ss).sources = ss.foldl record r.sources := by
  induction ss generalizing r with
  | nil => rfl
  | cons s ss ih =>
    rw [List.foldl_cons, ← sources_step hr]
    exact ih (hr.step s)

end

/-- Routes behave as a list of texts. -/
structure Refines (r : Routes) (l : List Text) : Prop where
  sources : r.sources = l
  nodup : l.Nodup
  parses : ∀ s ∈ l, ∃ t, parse s = .ok t
  notBlank : ∀ s ∈ l, s = [] ∨ ∃ c ∈ s, isBlankChar c = false
  /-- what fails leaves the routes -/
  failed : ∀ s e, (r.step s).answer = .error e → (r.step s).state = r
  /-- what only asks leaves the routes -/
  asked : ∀ v, (r.step (.resolve v)).state = r ∧ (r.step (.contains v)).state = r
  added : ∀ v, (r.step (.add v)).answer = (accept v).map .added
  /-- every URI has an answer -/
  resolves : ∀ uri, ∃ m, (r.step (.resolve (.text uri))).answer = .ok (.found m)
  found : ∀ uri m, (r.step (.resolve (.text uri))).answer = .ok (.found (some m)) ↔
    ∃ front s behind t, l = front ++ s :: behind ∧ parse s = .ok t ∧ t.recover? uri = some m ∧
      m.template = s ∧ ∀ u ∈ front, ∀ t, parse u = .ok t → t.recover? uri = none
  missed : ∀ uri, (r.step (.resolve (.text uri))).answer = .ok (.found none) ↔
    ∀ s ∈ l, ∀ t, parse s = .ok t → t.recover? uri = none

theorem Valid.refines {r : Routes} (hr : r.Valid) : r.Refines r.sources where
  sources := rfl
  nodup := hr.nodup
  parses s hs := by
    obtain ⟨t, ht, rfl⟩ := List.mem_map.1 hs
    exact ⟨t, hr.parse_eq_ok ht⟩
  notBlank s hs := by
    obtain ⟨t, ht, rfl⟩ := List.mem_map.1 hs
    exact (accept_text_eq_ok_iff.1 (hr.accepted t ht)).1
  failed _ _ := state_of_error hr
  asked v := ⟨resolve_state r v, contains_state r v⟩
  added := answer_add hr
  resolves uri := ⟨_, answer_resolve r uri⟩
  found uri m := by
    rw [answer_resolve, Except.ok.injEq, Answer.found.injEq, match?_eq_some_iff hr]
    refine exists₄_congr fun front s behind t => and_congr_right fun _ => and_congr_right fun ht =>
      and_congr_right fun hm => ?_
    rw [template_of_recover? hm, source_of_parse ht]
    exact (and_iff_right rfl).symm
  missed uri := by
    rw [answer_resolve, Except.ok.injEq, Answer.found.injEq, match?_eq_none_iff hr]

/-- Behind every list of steps, failed ones among them, the routes behave as the list of texts that
the records of the steps lead to; and the next outcome of the run is that of a step there. -/
theorem after_refines (ss : List Step) :
    (after empty ss).Refines (ss.foldl record []) ∧
      ∀ s, run empty (ss ++ [s]) = run empty ss ++ [(after empty ss).step s] := by
  refine ⟨?_, run_append empty ss⟩
  have h := (valid_empty.after ss).refines
  rwa [sources_after valid_empty] at h

/-- A text that is added again stays where it is, and moves to the end if it was removed before. -/
example :
    [Step.add (.text ['a']), .add (.text ['b']), .add (.text ['a'])].foldl record [] =
        [['a'], ['b']] ∧
      [Step.add (.text ['a']), .add (.text ['b']), .remove (.text ['a']),
        .add (.text ['a'])].foldl record [] = [['b'], ['a']] := by
  decide

end Routes
end UriTemplate
