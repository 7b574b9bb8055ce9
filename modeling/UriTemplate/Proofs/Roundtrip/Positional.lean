import UriTemplate.Proofs.Match.Shares
import UriTemplate.Proofs.Roundtrip.Values

/-!
# Expansions that are split by position

An operator without names that encodes everything but unreserved characters writes a separator only
between pieces. Where at most one variable brings more than one piece, the positions tell whose piece
is whose, and the split gives the values back:

* `Variable.Returns`               the value that is read back for the value of a variable;
* `shares_pieces`                  each variable gets the pieces that it wrote;
* `recover?_expansion_by_position` matching a template with such an expression at its end.
-/

namespace UriTemplate
open Cursor Percent

/-- The value that is read back: as much of a text as was written, and all items of an exploded list.
The list of one empty text is left out: what it writes is read as no item. -/
inductive Variable.Returns (b : Bindings) (x : Variable) : Recovered → Prop
  | text {t : Text} (hx : x.isExploded = false) (ht : (b.get x.name).text? = some t) :
      Returns b x (.text (x.modifier.cut t))
  | items {ts : List Text} (hx : x.isExploded = true)
      (hts : (b.get x.name).content? = some (.items ts)) (hne : ts ≠ [[]]) :
      Returns b x (.items ts)

/-! ### one variable -/

section
variable {o : Operator} {b : Bindings} {x : Variable} {v : Recovered}

theorem modifier_of_isExploded (hx : x.isExploded = true) : x.modifier = .exploded :=
  of_decide_eq_true hx

namespace Variable.Returns

theorem isSome_content? (h : x.Returns b v) : (b.get x.name).content?.isSome = true := by
  cases h with
  | text _ ht => exact UriTemplate.isSome_content? (.inl (Option.isSome_iff_exists.2 ⟨_, ht⟩))
  | items _ hts => exact Option.isSome_iff_exists.2 ⟨_, hts⟩

theorem texts_ne_nil (h : x.Returns b v) : x.texts (b.content x.name) ≠ [] := by
  cases h with
  | text hx ht =>
    rw [content_of_text? ht]
    exact List.cons_ne_nil _ _
  | items hx hts hne =>
    rw [content_of_content? hts, Variable.texts, modifier_of_isExploded hx]
    exact Value.content?_items_ne_nil hts

theorem length_texts (h : x.Returns b v) (hx : x.isExploded = false) :
    (x.texts (b.content x.name)).length = 1 := by
  cases h with
  | text _ ht =>
    rw [content_of_text? ht]
    rfl
  | items hx' =>
    rw [hx] at hx'
    cases hx'

/-- it writes one piece for each text -/
theorem pieces_eq (h : x.Returns b v) (hnamed : o.row.named = false)
    (hallow : o.row.allow = .unreserved) : x.pieces o.row (b.content x.name) =
      (x.texts (b.content x.name)).map (encode .unreserved) := by
  have hitem : o.row.item x.name = encode .unreserved := by
    funext t
    unfold Operator.Row.item Operator.Row.encode
    rw [hnamed, hallow]
    rfl
  cases h with
  | text hx ht =>
    rw [content_of_text? ht, Variable.pieces, Variable.texts, hitem]
    rfl
  | items hx hts hne =>
    simp only [content_of_content? hts, Variable.pieces, Variable.texts,
      modifier_of_isExploded hx, hitem]

/-- The pieces give the value back, empty items at either end included. -/
theorem recovers (h : x.Returns b v) (sep : Char) :
    x.Recovers sep ((x.texts (b.content x.name)).map (encode .unreserved)) v := by
  cases h with
  | @text t hx ht =>
    rw [content_of_text? ht]
    have hdecode : decode? ([sep].intercalate [encode .unreserved (x.modifier.cut t)]) =
        some (x.modifier.cut t) := by
      rw [List.intercalate_singleton, decode?_encode_unreserved]
    have hrecovers := Variable.Recovers.text hx hdecode
    rwa [Modifier.cut_cut] at hrecovers
  | @items ts hx hts hne =>
    have htexts : x.texts (.items ts) = ts := by
      rw [Variable.texts, modifier_of_isExploded hx]
    rw [content_of_content? hts, htexts]
    refine .items hx (fun hempty => hne ?_) ?_
    · obtain ⟨t, rfl, ht⟩ := List.map_eq_singleton_iff.1 hempty
      by_contra hts
      exact encode_ne_nil (fun h => hts (by rw [h])) ht
    · rw [mapM_eq_some_iff, List.forall₂_map_left_iff, List.forall₂_same]
      exact fun t _ => decode?_encode_unreserved t

end Variable.Returns
end

/-! ### the expression -/

/-- an expression without names that writes its separator only between values, as far as it can, and
whose positions tell the values apart -/
structure Expression.IsPositional (e : Expression) : Prop where
  operator : e.operator = .simple ∨ e.operator = .path ∨ e.operator = .label
  vars_ne_nil : e.vars ≠ []
  nodup : (e.vars.map Variable.name).Nodup
  one_exploded : (e.vars.filter Variable.isExploded).length ≤ 1

namespace Expression.IsPositional
variable {e : Expression} {b : Bindings} {f : Variable → Recovered}

theorem named (h : e.IsPositional) : e.operator.row.named = false := by
  rcases h.operator with ho | ho | ho <;> rw [ho] <;> rfl

theorem allow (h : e.IsPositional) : e.operator.row.allow = .unreserved := by
  rcases h.operator with ho | ho | ho <;> rw [ho] <;> rfl

/-- A dot is unreserved, so it is the one separator that a value can bring along. -/
theorem sep_not_mem_encode (h : e.IsPositional) {t : Text}
    (ht : e.operator = .label → '.' ∉ t) : e.operator.row.sep ∉ encode .unreserved t := by
  intro hmem
  obtain ⟨hmem, hkept⟩ := mem_encode_unreserved (Operator.standsAlone_sep _) hmem
  rcases h.operator with ho | ho | ho
  · rw [ho] at hkept
    exact absurd hkept (by decide)
  · rw [ho] at hkept
    exact absurd hkept (by decide)
  · rw [ho] at hmem
    exact ht ho hmem

theorem pieces_eq (h : e.IsPositional) (hf : ∀ x ∈ e.vars, x.Returns b (f x)) :
    e.pieces b =
      e.vars.flatMap fun x => (x.texts (b.content x.name)).map (encode .unreserved) :=
  List.flatMap_congr fun x hx => (hf x hx).pieces_eq h.named h.allow

theorem pieces_ne_nil (h : e.IsPositional) (hf : ∀ x ∈ e.vars, x.Returns b (f x)) :
    e.pieces b ≠ [] := by
  obtain ⟨x, hx⟩ := List.exists_mem_of_ne_nil _ h.vars_ne_nil
  rw [h.pieces_eq hf]
  intro hempty
  exact (hf x hx).texts_ne_nil (List.map_eq_nil_iff.1 (List.flatMap_eq_nil_iff.1 hempty x hx))

/-- by position each variable gets the pieces that it wrote -/
theorem shares_pieces (h : e.IsPositional) (hf : ∀ x ∈ e.vars, x.Returns b (f x)) :
    shares e.vars (e.pieces b) =
      e.vars.map fun x => (x.texts (b.content x.name)).map (encode .unreserved) := by
  rw [h.pieces_eq hf]
  refine shares_flatMap h.one_exploded (fun x hx => ?_) fun x hx hscalar => ?_
  · rw [Ne, List.map_eq_nil_iff]
    exact (hf x hx).texts_ne_nil
  · rw [List.length_map]
    exact (hf x hx).length_texts hscalar

theorem split?_span (h : e.IsPositional) (hf : ∀ x ∈ e.vars, x.Returns b (f x))
    (hlabel : e.operator = .label → ∀ x ∈ e.vars, ∀ t ∈ x.texts (b.content x.name), '.' ∉ t) :
    e.split? (e.span b) = some ⟨e.vars.map fun x => (x.name, f x)⟩ := by
  have hout : ∀ p ∈ e.pieces b, e.operator.row.sep ∉ p := by
    rw [h.pieces_eq hf]
    intro p hp
    obtain ⟨x, hx, hp⟩ := List.mem_flatMap.1 hp
    obtain ⟨t, ht, rfl⟩ := List.mem_map.1 hp
    exact h.sep_not_mem_encode fun ho => hlabel ho x hx t ht
  have hsplit : (e.span b).splitOn e.operator.row.sep = e.pieces b :=
    List.splitOn_intercalate _ hout (h.pieces_ne_nil hf)
  have hassign : assignInOrder e.operator.row.sep e.vars (e.pieces b) =
      some (e.vars.map fun x => (x.name, f x)) := by
    rw [assignInOrder_eq_some_iff, h.shares_pieces hf, ← List.map_prod_left_eq_zip,
      List.forall₂_map_left_iff, List.forall₂_map_right_iff, List.forall₂_same]
    exact fun x hx => ⟨rfl, (hf x hx).recovers _⟩
  rw [split?_of_unnamed h.named, hsplit, hassign, Option.map_some, Table.ofList_of_nodup]
  rw [List.map_map]
  exact h.nodup

/-- At the end of a template the expression is read as it was written, up to the end of the URI. -/
theorem exists_isFirst {c : Cursor} (h : e.IsPositional)
    (hf : ∀ x ∈ e.vars, x.Returns b (f x))
    (hlabel : e.operator = .label → ∀ x ∈ e.vars, ∀ t ∈ x.texts (b.content x.name), '.' ∉ t)
    (hsimple : e.operator = .simple → e.expansion b ≠ []) (hc : c.rest = e.expansion b) :
    ∃ r, IsFirst [.expression e] false c r ∧
      merged r = ⟨e.vars.map fun x => (x.name, f x)⟩ := by
  have hpieces := h.pieces_ne_nil hf
  have hend : IsFirst [] true
      (c.behind (e.operator.row.first.toList ++ e.span b) (UriTemplate.expansion [] b)) [] :=
    isFirst_nil (atEnd_iff.2 rfl)
  refine ⟨_, hend.expression (plainNames_of_unnamed h.named b) hpieces
    (h.split?_span hf hlabel) (fun hfirst _ _ => ?_) (.inl rfl)
    (hc.trans (List.append_nil _).symm), rfl⟩
  rcases h.operator with ho | ho | ho
  · have hspan := hsimple ho
    rwa [expansion_of_pieces hpieces, hfirst] at hspan
  · rw [ho] at hfirst
    cases hfirst
  · rw [ho] at hfirst
    cases hfirst

end Expression.IsPositional

/-! ### templates -/

/-- Matching a template with what it expands to gives back the variables of an expression without
names at its end, in declared order: the items of the exploded variable, which may stand anywhere,
and as much of the other texts as the template asks for. -/
theorem recover?_expansion_by_position {t : Template} {front : List Part} {e : Expression}
    {b : Bindings} {f : Variable → Recovered} (hparts : t.parts = front ++ [.expression e])
    (hfront : front = [] ∨ ∃ u, front = [.literal u]) (he : e.IsPositional)
    (hf : ∀ x ∈ e.vars, x.Returns b (f x))
    (hlabel : e.operator = .label → ∀ x ∈ e.vars, ∀ u ∈ x.texts (b.content x.name), '.' ∉ u)
    (hsimple : e.operator = .simple → e.expand b ≠ .ok []) :
    ∃ uri, expand t.parts b = .ok uri ∧
      t.recover? uri = some ⟨t.source, ⟨e.vars.map fun x => (x.name, f x)⟩⟩ := by
  have hdefined : ∀ x ∈ e.vars, (b.get x.name).content?.isSome = true :=
    fun x hx => (hf x hx).isSome_content?
  have hvars : vars t.parts = e.vars := by
    rw [hparts]
    rcases hfront with rfl | ⟨u, rfl⟩ <;> exact List.append_nil _
  have hseen : e.operator = .simple → e.expansion b ≠ [] := by
    intro ho
    have hexpand := hsimple ho
    rwa [Expression.expand_eq_ok hdefined, Ne, Except.ok.injEq] at hexpand
  have hlast : expansion [.expression e] b = e.expansion b := List.append_nil _
  have hfirst : ∃ r, IsFirst t.parts false (.start (expansion t.parts b)) r ∧
      merged r = ⟨e.vars.map fun x => (x.name, f x)⟩ := by
    rw [hparts]
    rcases hfront with rfl | ⟨u, rfl⟩
    · exact he.exists_isFirst hf hlabel hseen hlast
    · obtain ⟨r, hr, hmerged⟩ :=
        he.exists_isFirst (c := Cursor.behind (.start _) u _) hf hlabel hseen hlast
      exact ⟨_, hr.literal (literal?_of_over (over_of_append rfl)), hmerged⟩
  obtain ⟨r, hr, hmerged⟩ := hfirst
  refine ⟨_, expand_eq_ok fun x hx => hdefined x (hvars ▸ hx), ?_⟩
  rw [Template.recover?, recover?_eq_some_of_isFirst hr, hmerged]
  rfl

/-- an exploded variable between two scalars, empty items around one that is a separator -/
theorem recover?_expansion_by_position_path :
    ∃ uri, expand [.literal ['x'],
        .expression ⟨.path, [⟨['a'], .truncated 1⟩, ⟨['b'], .exploded⟩, ⟨['c'], .whole⟩]⟩]
      ⟨[(['a'], .text ['é', 'z']), (['b'], .list [.text [], .text ['/'], .text []]),
        (['c'], .text ['%', '4', '1'])]⟩ = .ok uri ∧
    Template.recover? ⟨['x', '{', '/', 'a', ':', '1', ',', 'b', '*', ',', 'c', '}'],
      [.literal ['x'],
        .expression ⟨.path, [⟨['a'], .truncated 1⟩, ⟨['b'], .exploded⟩, ⟨['c'], .whole⟩]⟩]⟩ uri =
      some ⟨['x', '{', '/', 'a', ':', '1', ',', 'b', '*', ',', 'c', '}'],
        ⟨[(['a'], .text ['é']), (['b'], .items [[], ['/'], []]),
          (['c'], .text ['%', '4', '1'])]⟩⟩ := by
  refine recover?_expansion_by_position
    (t := ⟨_, [.literal ['x'], .expression ⟨.path, [⟨['a'], .truncated 1⟩, ⟨['b'], .exploded⟩,
      ⟨['c'], .whole⟩]⟩]⟩)
    (e := ⟨.path, [⟨['a'], .truncated 1⟩, ⟨['b'], .exploded⟩, ⟨['c'], .whole⟩]⟩)
    (f := fun x => if x.isExploded then .items [[], ['/'], []]
      else if x.name = ['a'] then .text ['é'] else .text ['%', '4', '1'])
    ?_ (.inr ⟨['x'], rfl⟩) ⟨.inr (.inl rfl), by decide, by decide, by decide⟩ ?_ ?_ ?_
  · rfl
  · refine List.forall_mem_cons.2 ⟨.text (t := ['é', 'z']) rfl rfl, ?_⟩
    refine List.forall_mem_cons.2 ⟨.items rfl rfl (by decide), ?_⟩
    exact List.forall_mem_singleton.2 (.text (t := ['%', '4', '1']) rfl rfl)
  · intro ho
    cases ho
  · intro ho
    cases ho

end UriTemplate
