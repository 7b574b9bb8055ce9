import UriTemplate.Proofs.Expansion.Span
import UriTemplate.Proofs.Match.Consume

/-!
# What an operator promises of an expansion

Matching relies on it that behind its first character an expansion has nothing but triplets and the
operator's matchable characters (`Operator.Promised`). Values are encoded, and so are keys, with one
exception: an operator with names writes the keys of an exploded map as they are.

* `Expression.consists_span_iff`      an expression writes matchable characters and triplets exactly
                                      if the keys do that it writes as they are;
* `Expression.expand_promised_iff`   so the promise is kept exactly if these keys keep it.
-/

namespace UriTemplate
open Percent

/-- Nothing, or the operator's first character in front of matchable characters and triplets, all of
which the widest span behind that character takes. -/
def Operator.Promised (o : Operator) (u : Text) : Prop :=
  u = [] ∨ ∃ t, u = o.row.first.toList ++ t ∧ Consists o.row.matchable t ∧
    ∃ c, (Cursor.start u).skip? o.row.first = some c ∧
      (spanEnds o.row c).getLast? = some ⟨u.length, []⟩

/-! ### the widest span -/

/-- The widest span takes a text that consists of what spans consist of. -/
theorem getLast?_spanEnds {o : Operator} {c : Cursor} (h : Consists o.row.spans c.rest) :
    (spanEnds o.row c).getLast? = some ⟨c.pos + c.rest.length, []⟩ := by
  have hover : c.Over c.rest ⟨c.pos + c.rest.length, []⟩ := ⟨(List.append_nil _).symm, rfl⟩
  obtain ⟨front, behind, heq⟩ := List.append_of_mem (mem_spanEnds_iff.2 ⟨_, hover, h⟩)
  rw [heq]
  cases behind with
  | nil => exact List.getLast?_concat
  | cons d ds =>
    -- the ends ascend, and none lies behind the text
    have hsorted := spanEnds_pairwise (o := o) c
    have hd : d ∈ spanEnds o.row c := by rw [heq]; simp
    rw [heq] at hsorted
    have hlt := (List.pairwise_cons.1 (List.pairwise_append.1 hsorted).2.1).1 d List.mem_cons_self
    obtain ⟨span, hspan, -⟩ := mem_spanEnds_iff.1 hd
    have hlen := congrArg List.length hspan.rest
    rw [List.length_append] at hlen
    have hpos := hspan.pos
    dsimp only at hlt
    omega

section
variable {o : Operator} {t : Text}

theorem Operator.promised_append (h : Consists o.row.matchable t) :
    o.Promised (o.row.first.toList ++ t) := by
  have hover : (Cursor.start (o.row.first.toList ++ t)).Over o.row.first.toList
      ⟨o.row.first.toList.length, t⟩ := ⟨rfl, (Nat.zero_add _).symm⟩
  refine .inr ⟨t, rfl, h, _, Cursor.skip?_eq_some_iff.2 hover, ?_⟩
  rw [getLast?_spanEnds (h.mono fun _ => spans_of_matchable), List.length_append]

theorem Operator.exists_first_of_named (h : o.row.named = true) : ∃ c, o.row.first = some c := by
  revert h
  cases o <;> simp [Operator.row]

/-- an operator with names writes its first character, so nothing that it writes is empty -/
theorem Operator.consists_of_promised (hnamed : o.row.named = true)
    (h : o.Promised (o.row.first.toList ++ t)) : Consists o.row.matchable t := by
  obtain ⟨c, hc⟩ := exists_first_of_named hnamed
  obtain hnil | ⟨u, hu, hcons, -⟩ := h
  · rw [hc] at hnil
    cases hnil
  · rwa [List.append_cancel_left hu]

end

/-! ### what is written as it is -/

section
variable {e : Expression} {b : Bindings}

/-- A key that is written as it is stands at the front of a piece. -/
theorem Expression.exists_piece_of_bareKey {k : Text} (hk : k ∈ e.bareKeys b) :
    ∃ piece ∈ e.pieces b, piece = k ∨ ∃ t, piece = k ++ '=' :: t := by
  obtain ⟨hnamed, x, hx, hexploded, hk⟩ := mem_bareKeys_iff.1 hk
  have hmodifier : x.modifier = .exploded := of_decide_eq_true hexploded
  cases hcontent : b.content x.name with
  | pairs es =>
    rw [hcontent] at hk
    obtain ⟨⟨k, v⟩, hkv, rfl⟩ := List.mem_map.1 hk
    refine ⟨e.operator.row.pair k v, List.mem_flatMap.2 ⟨x, hx, ?_⟩, ?_⟩
    · simp only [hcontent, Variable.pieces, hmodifier]
      exact List.mem_map_of_mem hkv
    · rw [Operator.Row.pair, if_pos hnamed]
      obtain h | ⟨-, h⟩ := Operator.assign_cases e.operator k (e.operator.row.encode v)
      · exact .inr ⟨_, h⟩
      · exact .inl h
  | _ =>
    rw [hcontent] at hk
    cases hk

/-- An expression with plain names writes matchable characters and triplets exactly if the keys do
that it writes as they are. -/
theorem Expression.consists_span_iff (hnames : ∀ x ∈ e.vars, x.name.all isUnreserved = true) :
    Consists e.operator.row.matchable (e.span b) ↔
      ∀ k ∈ e.bareKeys b, Consists e.operator.row.matchable k := by
  constructor
  · intro h k hk
    obtain ⟨piece, hpiece, hfront⟩ := exists_piece_of_bareKey hk
    have hcons := h.of_mem_intercalate (Operator.standsAlone_sep _) piece hpiece
    obtain rfl | ⟨t, rfl⟩ := hfront
    · exact hcons
    · exact ((consists_append_cons (by decide) k t).1 hcons).1
  · intro h
    exact consists_intercalate (Operator.standsAlone_sep _) (Operator.matchable_sep _)
      (consists_piece_of_bareKeys (fun _ => Operator.matchable_of_writes) (fun _ => hnames) h)

theorem Expression.bareKeys_of_no_pieces (h : e.pieces b = []) : e.bareKeys b = [] := by
  refine List.eq_nil_iff_forall_not_mem.2 fun k hk => ?_
  obtain ⟨piece, hpiece, -⟩ := exists_piece_of_bareKey hk
  rw [h] at hpiece
  cases hpiece

end

/-- With plain names, texts, lists and maps of texts expand; and the expansion is as the operator
promises exactly if the keys that are written as they are consist of matchable characters and
triplets. -/
theorem Expression.expand_promised_iff {e : Expression} {b : Bindings}
    (hnames : ∀ x ∈ e.vars, x.name.all isUnreserved = true)
    (hcontent : ∀ x ∈ e.vars, (b.get x.name).content?.isSome = true) :
    ∃ u, e.expand b = .ok u ∧ (e.operator.Promised u ↔
      ∀ k ∈ e.bareKeys b, Consists e.operator.row.matchable k) := by
  refine ⟨e.expansion b, expand_eq_ok hcontent, ?_⟩
  by_cases hpieces : e.pieces b = []
  · rw [expansion_of_no_pieces hpieces, bareKeys_of_no_pieces hpieces]
    exact iff_of_true (.inl rfl) nofun
  · rw [expansion_of_pieces hpieces]
    constructor
    · intro h k hk
      have hnamed := (mem_bareKeys_iff.1 hk).1
      exact (consists_span_iff hnames).1 (Operator.consists_of_promised hnamed h) k hk
    · exact fun h => Operator.promised_append ((consists_span_iff hnames).2 h)

/-- a key that is a triplet keeps the promise -/
theorem Expression.expand_promised_triplet :
    Expression.expand ⟨.parameter, [⟨['m'], .exploded⟩, ⟨['n'], .whole⟩]⟩
        ⟨[(['m'], .map [(.text ['%', '2', '0'], .text [' '])])]⟩ =
      .ok [';', '%', '2', '0', '=', '%', '2', '0'] ∧
    Operator.parameter.Promised [';', '%', '2', '0', '=', '%', '2', '0'] := by
  obtain ⟨u, hu, hiff⟩ := expand_promised_iff
    (e := ⟨.parameter, [⟨['m'], .exploded⟩, ⟨['n'], .whole⟩]⟩)
    (b := ⟨[(['m'], .map [(.text ['%', '2', '0'], .text [' '])])]⟩) (by decide) (by decide)
  have hexpand : Expression.expand ⟨.parameter, [⟨['m'], .exploded⟩, ⟨['n'], .whole⟩]⟩
      ⟨[(['m'], .map [(.text ['%', '2', '0'], .text [' '])])]⟩ =
    .ok [';', '%', '2', '0', '=', '%', '2', '0'] := by rfl
  obtain rfl := Except.ok.inj (hu.symm.trans hexpand)
  refine ⟨hexpand, hiff.2 fun k hk => ?_⟩
  obtain rfl : k = ['%', '2', '0'] := List.mem_singleton.1 hk
  exact (consists_triplet (by decide) []).2 (consists_nil _)

/-- A key with a blank breaks it: the blank stands in the URI as it is. -/
theorem Expression.expand_not_promised_blank :
    (∀ x ∈ [Variable.mk ['m'] .exploded], x.name.all isUnreserved = true ∧
      (Bindings.get ⟨[(['m'], .map [(.text ['a', ' ', 'b'], .text ['x'])])]⟩
        x.name).content?.isSome = true) ∧
    Expression.expand ⟨.query, [⟨['m'], .exploded⟩]⟩
        ⟨[(['m'], .map [(.text ['a', ' ', 'b'], .text ['x'])])]⟩ =
      .ok ['?', 'a', ' ', 'b', '=', 'x'] ∧
    ¬Operator.query.Promised ['?', 'a', ' ', 'b', '=', 'x'] := by
  refine ⟨by decide, by rfl, fun h => ?_⟩
  have hcons : Consists Operator.query.row.matchable ['a', ' ', 'b', '=', 'x'] :=
    Operator.consists_of_promised rfl h
  exact absurd (hcons ' ' (by decide)) (by decide)

end UriTemplate
