import UriTemplate.Proofs.Routes

/-!
# A match does not depend on other routes

Routes are tried in order, so a new route, which stands last, is only asked for a URI that no other
one matches. What a URI has found it keeps as long as that one template stays.

* `Step.Spares`             the steps that leave a template where it is;
* `match?_step`             such a step keeps the matches of that template, `match?_after` a list of
                            them;
* `match?_of_unique`        the order of the routes does not tell as long as one template matches;
* `after_match_unaffected`  both for all routes that steps lead to.
-/

namespace UriTemplate
namespace Routes

/-- whether a step leaves the template with this text among the routes -/
def Step.Spares (source : Text) : Step → Prop
  | .remove v => v ≠ .text source
  | .clear => False
  | _ => True

section
variable {r r' : Routes} {uri : Text} {m : Match}

/-! ### one change -/

/-- A new template is asked last. -/
theorem match?_append (r : Routes) (t : Template) (uri : Text) :
    (r.append t).match? uri = (r.match? uri).or (t.recover? uri) := by
  show (r.templates ++ [t]).findSome? _ = _
  rw [List.findSome?_append, List.findSome?_singleton]
  rfl

/-- The templates in front of the one that matches have no match, with or without the erased one. -/
theorem match?_erase (h : r.match? uri = some m) {source : Text} (hne : source ≠ m.template) :
    (r.erase source).match? uri = some m := by
  obtain ⟨front, t, behind, heq, hm, hnone⟩ := List.findSome?_eq_some_iff.1 h
  have hkeep : decide (t.source ≠ source) = true := by
    rw [← template_of_recover? hm]
    exact decide_eq_true hne.symm
  apply List.findSome?_eq_some_iff.2
  refine ⟨front.filter fun u => u.source ≠ source, t, behind.filter fun u => u.source ≠ source, ?_,
    hm, fun u hu => ?_⟩
  · rw [erase, heq, List.filter_append, List.filter_cons, if_pos hkeep]
  · exact hnone u (List.mem_of_mem_filter hu)

theorem match?_step (hr : r.Valid) (h : r.match? uri = some m) {st : Step}
    (hst : st.Spares m.template) : (r.step st).state.match? uri = some m := by
  cases st with
  | add v =>
    rw [step, Result.as_state]
    obtain ⟨e, -, hadd⟩ | ⟨t, -, -, hadd⟩ | ⟨t, -, -, hadd⟩ := add_cases hr v
    · rwa [hadd]
    · rwa [hadd]
    · rw [hadd]
      show (r.append t).match? uri = some m
      rw [match?_append, h, Option.some_or]
  | remove v =>
    rw [step, Result.as_state]
    obtain ⟨s, rfl, -, hstate⟩ | ⟨-, hstate⟩ := remove_cases r v
    · rw [hstate]
      exact match?_erase h fun heq => hst (congrArg Value.text heq)
    · rwa [hstate]
  | resolve v => rwa [step, Result.as_state, resolve_state]
  | contains v => rwa [step, Result.as_state, contains_state]
  | clear => exact hst.elim

/-! ### many changes -/

theorem match?_after (hr : r.Valid) (h : r.match? uri = some m) {ss : List Step}
    (hss : ∀ st ∈ ss, st.Spares m.template) : (after r ss).match? uri = some m := by
  induction ss generalizing r with
  | nil => exact h
  | cons st ss ih =>
    obtain ⟨hst, hss⟩ := List.forall_mem_cons.1 hss
    exact ih (hr.step st) (match?_step hr h hst) hss

theorem after_append (r : Routes) (ss more : List Step) :
    after r (ss ++ more) = after (after r ss) more := List.foldl_append

/-! ### the same templates in another order -/

theorem match?_eq_none_congr (hr : r.Valid) (hr' : r'.Valid)
    (h : ∀ s, s ∈ r.sources ↔ s ∈ r'.sources) : r.match? uri = none ↔ r'.match? uri = none := by
  rw [match?_eq_none_iff hr, match?_eq_none_iff hr']
  exact forall_congr' fun s => imp_congr_left (h s)

theorem source_of_match? (hr : r.Valid) (h : r.match? uri = some m) :
    ∃ s ∈ r.sources, ∃ t, parse s = .ok t ∧ t.recover? uri = some m := by
  obtain ⟨front, s, behind, t, heq, ht, hm, -⟩ := (match?_eq_some_iff hr).1 h
  refine ⟨s, ?_, t, ht, hm⟩
  rw [heq]
  exact List.mem_append_right _ List.mem_cons_self

/-- Where one template matches, its match is found in any order. -/
theorem match?_of_unique (hr : r.Valid) (hr' : r'.Valid)
    (h : ∀ s, s ∈ r.sources ↔ s ∈ r'.sources)
    (hunique : ∃! s, s ∈ r.sources ∧ ∃ t m, parse s = .ok t ∧ t.recover? uri = some m) :
    r.match? uri = r'.match? uri := by
  obtain ⟨s, ⟨hs, t, m, ht, hm⟩, honly⟩ := hunique
  -- all that a route of either can find is the match of `s`
  have hfound : ∀ {q : Routes}, q.Valid → (∀ u, u ∈ r.sources ↔ u ∈ q.sources) →
      q.match? uri = some m := by
    intro q hq hsame
    cases hmatch : q.match? uri with
    | none =>
      have hnone := (match?_eq_none_iff hq).1 hmatch s ((hsame s).1 hs) t ht
      rw [hm] at hnone
      cases hnone
    | some m' =>
      obtain ⟨s', hs', t', ht', hm'⟩ := source_of_match? hq hmatch
      obtain rfl : s' = s := honly s' ⟨(hsame s').2 hs', t', m', ht', hm'⟩
      rw [ht] at ht'
      cases ht'
      rw [← hm', hm]
  rw [hfound hr fun _ => Iff.rfl, hfound hr' h]

theorem answer_resolve_eq_iff {o : Option Match} :
    (r.step (.resolve (.text uri))).answer = .ok (.found o) ↔ r.match? uri = o := by
  rw [answer_resolve, Except.ok.injEq, Answer.found.injEq]

end

/-- Additions, successful or not, and removals of other templates leave what a URI has found; and
routes with the same templates, in whatever order, find nothing for the same URIs, and the same for
a URI that one template matches. -/
theorem after_match_unaffected (ss : List Step) (uri : Text) :
    (∀ m more, ((after empty ss).step (.resolve (.text uri))).answer = .ok (.found (some m)) →
      (∀ st ∈ more, st.Spares m.template) →
      ((after empty (ss ++ more)).step (.resolve (.text uri))).answer = .ok (.found (some m))) ∧
    ∀ ss', (∀ s, s ∈ (after empty ss).sources ↔ s ∈ (after empty ss').sources) →
      (((after empty ss).step (.resolve (.text uri))).answer = .ok (.found none) ↔
        ((after empty ss').step (.resolve (.text uri))).answer = .ok (.found none)) ∧
      ((∃! s, s ∈ (after empty ss).sources ∧
          ∃ t m, parse s = .ok t ∧ t.recover? uri = some m) →
        ((after empty ss).step (.resolve (.text uri))).answer =
          ((after empty ss').step (.resolve (.text uri))).answer) := by
  have hr : (after empty ss).Valid := valid_empty.after ss
  refine ⟨fun m more hm hmore => ?_, fun ss' hsame => ?_⟩
  · rw [answer_resolve_eq_iff] at hm
    rw [after_append, answer_resolve_eq_iff]
    exact match?_after hr hm hmore
  · have hr' : (after empty ss').Valid := valid_empty.after ss'
    constructor
    · rw [answer_resolve_eq_iff, answer_resolve_eq_iff]
      exact match?_eq_none_congr hr hr' hsame
    · intro hunique
      rw [answer_resolve, answer_resolve, match?_of_unique hr hr' hsame hunique]

/-- A template that would match anything comes later, one is refused and another one goes; and two
templates that stand in either order. -/
theorem after_match_unaffected_reordered :
    let a : Text := ['a', '/', '{', 'x', '}']
    let uri : Text := ['a', '/', '7']
    let m : Match := ⟨a, ⟨[(['x'], .text ['7'])]⟩⟩
    let ss : List Step := [.add (.text ['b']), .add (.text a)]
    let ss' : List Step := [.add (.text a), .add (.text ['b'])]
    let more : List Step := [.add (.text ['{', '+', 'x', '}']), .add (.text ['{']),
      .remove (.text ['b'])]
    ((after empty ss).step (.resolve (.text uri))).answer = .ok (.found (some m)) ∧
      (∀ st ∈ more, st.Spares m.template) ∧
      ((after empty (ss ++ more)).step (.resolve (.text uri))).answer = .ok (.found (some m)) ∧
      (∀ s, s ∈ (after empty ss).sources ↔ s ∈ (after empty ss').sources) ∧
      (∃! s, s ∈ (after empty ss).sources ∧ ∃ t m, parse s = .ok t ∧ t.recover? uri = some m) ∧
      ((after empty ss').step (.resolve (.text uri))).answer = .ok (.found (some m)) := by
  intro a uri m ss ss' more
  have hfound : ((after empty ss).step (.resolve (.text uri))).answer = .ok (.found (some m)) := by
    decide +kernel
  have hmore : ∀ st ∈ more, st.Spares m.template := by
    have hne : Value.text ['b'] ≠ .text a := by
      intro h
      exact absurd (Value.text.inj h) (by decide)
    simp only [more, List.forall_mem_cons]
    exact ⟨trivial, trivial, hne, nofun⟩
  have hss : (after empty ss).sources = [['b'], a] := by decide +kernel
  have hss' : (after empty ss').sources = [a, ['b']] := by decide +kernel
  have hsame : ∀ s, s ∈ (after empty ss).sources ↔ s ∈ (after empty ss').sources := by
    intro s
    rw [hss, hss']
    exact (List.Perm.swap _ _ _).mem_iff
  have hunique : ∃! s, s ∈ (after empty ss).sources ∧
      ∃ t m, parse s = .ok t ∧ t.recover? uri = some m := by
    refine ⟨a, ⟨by rw [hss]; decide, ⟨a, _⟩, m, by rfl, by decide +kernel⟩, ?_⟩
    rintro s ⟨hs, t, m', ht, hm'⟩
    rw [hss] at hs
    rcases List.mem_cons.1 hs with rfl | hs
    · have hmiss : Template.recover? ⟨['b'], [.literal ['b']]⟩ uri = none := by decide +kernel
      cases ht
      exact absurd (hm'.symm.trans hmiss) (Option.some_ne_none m')
    · exact List.mem_singleton.1 hs
  obtain ⟨hkeep, horder⟩ := after_match_unaffected ss uri
  have hagain := (horder ss' hsame).2 hunique
  exact ⟨hfound, hmore, hkeep m more hfound hmore, hsame, hunique, hagain.symm.trans hfound⟩

end Routes
end UriTemplate
