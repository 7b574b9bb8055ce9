import UriTemplate.Proofs.Match.Reading
import UriTemplate.Proofs.Match.Segments
import UriTemplate.Proofs.Template.WellFormed

/-!
# Every expansion matches its own template

What the parts wrote, each taken for what it is, is a reading of the URI: a literal stands verbatim,
an expression without pieces is absent (or an empty span), and any other one is its first character
and a span. `exists_reads_expansion` puts these together from the last part to the first. Which
reading the search settles on is another matter.
-/

namespace UriTemplate
open Cursor Percent

/-! ### reading one expression as it was written -/

section
variable {e : Expression} {b : Bindings} {ps : List Part} {after : Bool} {c : Cursor} {rest : Text}

/-- an expression is absent, or its first character and a span -/
theorem Expression.expansion_cases (e : Expression) (b : Bindings) :
    (e.operator.row.first.isSome = true ∧ e.expansion b = []) ∨
      e.expansion b = e.operator.row.first.toList ++ e.span b := by
  by_cases hp : e.pieces b = []
  · have hnil := expansion_of_no_pieces hp
    cases hf : e.operator.row.first with
    | some x => exact .inl ⟨rfl, hnil⟩
    | none =>
      right
      rw [hnil, Expression.span, hp]
      rfl
  · exact .inr (expansion_of_pieces hp)

/-- the cursor behind a text, if `rest` is what comes after it -/
def Cursor.behind (c : Cursor) (t rest : Text) : Cursor := ⟨c.pos + t.length, rest⟩

theorem Cursor.over_behind (c : Cursor) (s t rest : Text) :
    Over ⟨c.pos + s.length, t ++ rest⟩ t (c.behind (s ++ t) rest) := by
  refine ⟨rfl, ?_⟩
  simp only [behind, List.length_append]
  omega

theorem reads_present {values : Params} {span : Text} {r : List Stretch}
    (hrest : c.rest = e.operator.row.first.toList ++ span ++ rest)
    (hspan : Consists e.operator.row.matchable span) (hvalues : e.split? span = some values)
    (hne : e.operator.row.first = none → ps = [] → after = false → span ≠ [])
    (hr : Reads ps true (c.behind (e.operator.row.first.toList ++ span) rest) r) :
    Reads (.expression e :: ps) after c
      (.present (c.behind (e.operator.row.first.toList ++ span) rest) values :: r) := by
  rw [List.append_assoc] at hrest
  have hstart := over_of_append hrest
  have hstop := c.over_behind e.operator.row.first.toList span rest
  have hspans : Consists e.operator.row.spans span := hspan.mono fun _ => spans_of_matchable
  have hsplit : e.split? (textTo ⟨c.pos + e.operator.row.first.toList.length, span ++ rest⟩
      (c.behind (e.operator.row.first.toList ++ span) rest)) = some values := by
    rw [hstop.textTo]
    exact hvalues
  refine .present (skip?_eq_some_iff.2 hstart) (mem_spanEnds_iff.2 ⟨span, hstop, hspans⟩) ?_
    hsplit hr
  intro hf hps hafter hpos
  apply hne hf hps hafter
  have hlen := hstop.pos
  rw [hpos] at hlen
  exact List.length_eq_zero_iff.1 (by omega)

end

/-! ### reading all parts as they were written -/

/-- What makes an expression readable where it was written: names and keys that can be walked, and
texts whose escapes are UTF-8. -/
structure Expression.Readable (e : Expression) (b : Bindings) : Prop where
  walkable : e.Walkable b
  names_ne_nil : ∀ x ∈ e.vars, x.name ≠ []
  texts : ∀ x ∈ e.vars, ∀ t ∈ x.texts (b.content x.name), e.operator.row.Readable t

/-- A last expression that may not be empty is not. -/
def VisibleEnd (b : Bindings) (after : Bool) (ps : List Part) : Prop :=
  ∀ front e, ps = front ++ [.expression e] → e.operator.row.first = none →
    (front = [] → after = false) → (∀ f, front.getLast? ≠ some (.expression f)) → e.expansion b ≠ []

theorem VisibleEnd.tail {b : Bindings} {after : Bool} {p : Part} {ps : List Part}
    (h : VisibleEnd b after (p :: ps)) : VisibleEnd b p.expression?.isSome ps := by
  intro front e hps hf hafter hlast
  refine h (p :: front) e (by rw [hps]; rfl) hf (fun hnil => by cases hnil) fun f => ?_
  cases front with
  | nil =>
    intro hp
    cases hp
    exact absurd (hafter rfl) (by simp [Part.expression?])
  | cons q front =>
    rw [List.getLast?_cons_cons]
    exact hlast f

theorem exists_reads_expansion {b : Bindings} {ps : List Part} {after : Bool} {c : Cursor}
    (hps : ∀ e, .expression e ∈ ps → e.Readable b) (hend : VisibleEnd b after ps)
    (hc : c.rest = expansion ps b) : ∃ r, Reads ps after c r := by
  induction ps generalizing after c with
  | nil => exact ⟨[], .done (atEnd_iff.2 hc)⟩
  | cons p ps ih =>
    have hps' : ∀ e, .expression e ∈ ps → e.Readable b :=
      fun e he => hps e (List.mem_cons_of_mem _ he)
    rw [expansion_cons] at hc
    cases p with
    | literal t =>
      have hover := over_of_append hc
      obtain ⟨r, hr⟩ := ih hps' hend.tail (c := c.behind t (expansion ps b)) rfl
      exact ⟨_, .literal (literal?_of_over hover) hr⟩
    | expression e =>
      have he := hps e List.mem_cons_self
      have hrest : c.rest = e.expansion b ++ expansion ps b := hc
      rcases e.expansion_cases b with ⟨hf, hnil⟩ | hexp
      · rw [hnil, List.nil_append] at hrest
        obtain ⟨r, hr⟩ := ih hps' hend.tail hrest
        exact ⟨_, .absent hf hr⟩
      · rw [hexp] at hrest
        obtain ⟨values, hvalues⟩ :=
          Expression.exists_split?_span he.walkable he.names_ne_nil he.texts
        have hspan := Expression.consists_span he.walkable.toPlainNames
        obtain ⟨r, hr⟩ := ih hps' hend.tail (c := c.behind _ (expansion ps b)) rfl
        refine ⟨_, reads_present hrest hspan hvalues ?_ hr⟩
        rintro hf rfl rfl hnil
        refine hend [] e rfl hf (fun _ => rfl) (fun f hf => by cases hf) ?_
        rw [hexp, hf, hnil]
        rfl

/-- A template matches what it expands to, for any texts, lists of texts and maps of texts: names
and keys that an operator with names writes as they are have to be plain, an exploded variable stands
at the end there, texts that keep their triplets have none, and a last expression that may not be
empty is not. -/
theorem isSome_recover?_expansion {source : Text} {t : Template} {b : Bindings}
    (hparse : parse source = .ok t)
    (hvalues : ∀ x ∈ vars t.parts, (b.get x.name).content?.isSome = true)
    (hwalk : ∀ e, .expression e ∈ t.parts → e.Walkable b)
    (htexts : ∀ e, .expression e ∈ t.parts → e.operator.row.allow = .reserved →
      ∀ x ∈ e.vars, ∀ u ∈ x.texts (b.content x.name), ∀ i, isTripletAt u i = false)
    (hlast : ∀ front e, t.parts = front ++ [.expression e] → e.operator.row.first = none →
      (∀ f, front.getLast? ≠ some (.expression f)) → e.expand b ≠ .ok []) :
    ∃ uri, expand t.parts b = .ok uri ∧ (t.recover? uri).isSome = true := by
  have hwell := wellFormed_of_parse hparse
  have hreadable : ∀ e, .expression e ∈ t.parts → e.Readable b := by
    intro e he
    refine ⟨hwalk e he, fun x hx => ((hwell.expression he).vars x hx).name_ne_nil, ?_⟩
    intro x hx u hu
    cases ha : e.operator.row.allow with
    | unreserved => exact Operator.readable_of_unreserved ha u
    | reserved => exact Operator.readable_of_not_isTripletAt _ (htexts e he ha x hx u hu)
  have hend : VisibleEnd b false t.parts := by
    intro front e hps hf _ hfront hnil
    apply hlast front e hps hf hfront
    rw [Expression.expand_eq_ok, hnil]
    intro x hx
    apply hvalues x
    rw [mem_vars_iff, hps]
    exact ⟨e, List.mem_append_right _ List.mem_cons_self, hx⟩
  obtain ⟨r, hr⟩ := exists_reads_expansion hreadable hend (c := .start (expansion t.parts b)) rfl
  refine ⟨_, expand_eq_ok hvalues, ?_⟩
  rw [Template.recover?, Option.isSome_map]
  exact isSome_recover?_of_reads hr

/-- two expressions without anything between them, the second an exploded map -/
theorem isSome_recover?_expansion_map :
    ∃ uri, expand [.expression ⟨.reserved, [⟨['a'], .whole⟩]⟩,
        .expression ⟨.query, [⟨['m'], .exploded⟩]⟩]
      ⟨[(['a'], .text ['/']), (['m'], .map [(.text ['k'], .text ['v'])])]⟩ = .ok uri ∧
    (Template.recover? ⟨['{', '+', 'a', '}', '{', '?', 'm', '*', '}'],
      [.expression ⟨.reserved, [⟨['a'], .whole⟩]⟩,
        .expression ⟨.query, [⟨['m'], .exploded⟩]⟩]⟩ uri).isSome = true := by
  have hparse : parse ['{', '+', 'a', '}', '{', '?', 'm', '*', '}'] =
      .ok ⟨['{', '+', 'a', '}', '{', '?', 'm', '*', '}'],
        [.expression ⟨.reserved, [⟨['a'], .whole⟩]⟩,
          .expression ⟨.query, [⟨['m'], .exploded⟩]⟩]⟩ := by rfl
  refine isSome_recover?_expansion hparse (by decide) ?_ ?_ ?_
  · intro e he
    simp only [List.mem_cons, Part.expression.injEq, List.not_mem_nil, or_false] at he
    rcases he with rfl | rfl
    · exact ⟨⟨by decide, by decide⟩, by decide, by decide⟩
    · exact ⟨⟨by decide, by decide⟩, by decide, by decide⟩
  · intro e he ha x hx u hu i
    simp only [List.mem_cons, Part.expression.injEq, List.not_mem_nil, or_false] at he
    rcases he with rfl | rfl
    · obtain rfl := List.mem_singleton.1 hx
      obtain rfl : u = ['/'] := List.mem_singleton.1 hu
      cases i with
      | zero => rfl
      | succ n =>
        rw [isTripletAt, List.drop_succ_cons, List.drop_nil]
        rfl
    · cases ha
  · intro front e hparts hf
    have hlast := congrArg List.getLast? hparts
    rw [List.getLast?_concat] at hlast
    cases hlast
    cases hf

end UriTemplate
