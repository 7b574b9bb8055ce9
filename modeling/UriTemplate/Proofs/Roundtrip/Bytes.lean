import UriTemplate.Proofs.Roundtrip.Values

/-!
# Matches that give their URI back

A match says how the URI can be written again: with its variables the template expands to a text
that stands for the same bytes (`decodedBytes_expansion_of_recover?`). Escapes may be spelled in
another way, and characters that an expansion escapes may have stood there without an escape.

The reading cuts the URI at boundaries of symbols, so its bytes are those of the pieces in order.
Separators lie between the segments on both sides: where there are more segments than variables,
they are in the value of the last one.
-/

namespace UriTemplate
open Cursor Percent

/-! ### bindings made of recovered values -/

/-- a recovered value to expand with; what was not recovered is null -/
def valueOf (v : Option Recovered) : Value := (v.map Recovered.toValue).getD .null

/-- the variables are bound to what was recovered for them -/
def Agrees (b : Bindings) (xs : List Variable) (p : Params) : Prop :=
  ∀ x ∈ xs, b.get x.name = valueOf (p.find? x.name)

theorem agrees_toBindings (xs : List Variable) (p : Params) : Agrees p.toBindings xs p := by
  intro x _
  unfold Bindings.get valueOf Params.toBindings Table.find?
  rw [List.find?_map, Option.map_map, Option.map_map]
  rfl

theorem Agrees.mono {b : Bindings} {xs ys : List Variable} {p : Params} (h : Agrees b xs p)
    (hys : ∀ y ∈ ys, y ∈ xs) : Agrees b ys p :=
  fun y hy => h y (hys y hy)

/-- Of two tables that no name is in both of, each tells about the variables with its names. -/
theorem Agrees.of_orElse {b : Bindings} {xs ys : List Variable} {p q : Params}
    (h : Agrees b (xs ++ ys) (p.orElse q)) (hp : ∀ y ∈ ys, p.find? y.name = none)
    (hq : ∀ x ∈ xs, q.find? x.name = none) : Agrees b xs p ∧ Agrees b ys q := by
  constructor
  · intro x hx
    rw [h x (List.mem_append_left _ hx), Table.find?_orElse, hq x hx, Option.or_none]
  · intro y hy
    rw [h y (List.mem_append_right _ hy), Table.find?_orElse, hp y hy, Option.none_or]

theorem isSome_content?_of_agrees {b : Bindings} {xs : List Variable} {p : Params}
    (h : Agrees b xs p) : ∀ x ∈ xs, (b.get x.name).content?.isSome = true := by
  intro x hx
  rw [h x hx]
  cases p.find? x.name with
  | none => rfl
  | some v =>
    cases v with
    | text t => rfl
    | items ts =>
      cases ts with
      | nil => rfl
      | cons t ts =>
        have htexts : ∀ v ∈ (t :: ts).map Value.text, ∃ u, v.text? = some u := by
          intro v hv
          obtain ⟨u, -, rfl⟩ := List.mem_map.1 hv
          exact ⟨u, rfl⟩
        obtain ⟨us, hus⟩ := exists_mapM htexts
        show (Option.map Content.items (((t :: ts).map Value.text).mapM Value.text?)).isSome = true
        rw [hus]
        rfl

/-! ### one expression -/

section
variable {e : Expression} {b : Bindings} {values : Params} {span : Text}

/-- Variables that were handed out texts expand to them, and the others to nothing. -/
theorem flatMap_pieces_assigned {xs : List Variable} {ts : List Text} {o : Operator}
    (ho : o.row.named = false) (hxs : ∀ x ∈ xs, x.modifier = .whole)
    (hnodup : (xs.map Variable.name).Nodup) (hlen : ts.length ≤ xs.length)
    (hagree : Agrees b xs ⟨assigned xs ts⟩) :
    (xs.flatMap fun x => x.pieces o.row (b.content x.name)) = ts.map o.row.encode := by
  induction xs generalizing ts with
  | nil =>
    obtain rfl := List.length_eq_zero_iff.1 (Nat.le_zero.1 hlen)
    rfl
  | cons x xs ih =>
    obtain ⟨hx, hxs⟩ := List.forall_mem_cons.1 hxs
    obtain ⟨hfresh, hnodup⟩ := List.nodup_cons.1 hnodup
    rw [List.flatMap_cons]
    cases ts with
    | nil =>
      have hnull : ∀ y ∈ x :: xs, b.content y.name = .undefined :=
        fun y hy => content_of_null (hagree y hy)
      have hrest : (xs.flatMap fun x => x.pieces o.row (b.content x.name)) = [] := by
        refine List.flatMap_eq_nil_iff.2 fun y hy => ?_
        rw [hnull y (List.mem_cons_of_mem _ hy)]
        rfl
      rw [hnull x List.mem_cons_self, hrest]
      rfl
    | cons t ts =>
      have hvalue : b.get x.name = .text t := by
        rw [hagree x List.mem_cons_self]
        show valueOf (Table.find? ⟨(x.name, .text t) :: assigned xs ts⟩ x.name) = _
        simp [Table.find?, valueOf, Recovered.toValue]
      have hpiece : x.pieces o.row (b.content x.name) = [o.row.encode t] := by
        have hcontent : b.content x.name = .text t := content_of_text? (by rw [hvalue]; rfl)
        rw [hcontent, Variable.pieces, hx, Operator.Row.item, ho]
        rfl
      have hagree' : Agrees b xs ⟨assigned xs ts⟩ := by
        intro y hy
        have hne : ¬x.name = y.name := fun heq => hfresh (List.mem_map.2 ⟨y, hy, heq.symm⟩)
        rw [hagree y (List.mem_cons_of_mem _ hy)]
        show valueOf (Table.find? ⟨(x.name, .text t) :: assigned xs ts⟩ y.name) = _
        simp [Table.find?, hne]
      rw [hpiece, ih hxs hnodup (Nat.le_of_succ_le_succ hlen) hagree']
      rfl

/-- An encoded value stands for the bytes of its segment, unless it is an escape there. -/
theorem decodedBytes_encode_decode? {o : Operator} {s t : Text} (h : decode? s = some t)
    (hs : Escaped s) (h25 : o.row.allow = .reserved → ¬['%', '2', '5'] <:+: s) :
    decodedBytes (o.row.encode t) = decodedBytes s := by
  have hbytes := decode?_eq_some_iff.1 h
  unfold Operator.Row.encode
  cases ha : o.row.allow with
  | unreserved => rw [decodedBytes_encode_unreserved, hbytes]
  | reserved =>
    have hpercent := percent_not_mem_of_decode? h hs (h25 ha)
    rw [decodedBytes_encode_reserved,
      decodedBytes_of_symbols (symbols_of_percent_not_mem hpercent), hbytes]

theorem map_decodedBytes_of_mapM {o : Operator} {us ts : List Text} (h : us.mapM decode? = some ts)
    (hus : ∀ u ∈ us, Escaped u)
    (h25 : ∀ u ∈ us, o.row.allow = .reserved → ¬['%', '2', '5'] <:+: u) :
    (ts.map o.row.encode).map decodedBytes = us.map decodedBytes := by
  induction us generalizing ts with
  | nil =>
    cases h
    rfl
  | cons u us ih =>
    obtain ⟨t, ts', ht, hts', rfl⟩ := mapM_cons_eq_some.1 h
    obtain ⟨hu, hus⟩ := List.forall_mem_cons.1 hus
    obtain ⟨hu25, h25⟩ := List.forall_mem_cons.1 h25
    rw [List.map_cons, List.map_cons, List.map_cons, decodedBytes_encode_decode? ht hu hu25,
      ih hts' hus h25]

/-- what was handed out of a span expands to a span that stands for the same bytes -/
theorem decodedBytes_span (he : e.operator.row.named = false) (hne : e.vars ≠ [])
    (hwhole : ∀ x ∈ e.vars, x.modifier = .whole) (hnodup : (e.vars.map Variable.name).Nodup)
    (hspan : Consists e.operator.row.spans span)
    (h25 : e.operator.row.allow = .reserved → ¬['%', '2', '5'] <:+: span)
    (hvalues : e.split? span = some values) (hagree : Agrees b e.vars values) :
    e.pieces b ≠ [] ∧ decodedBytes (e.span b) = decodedBytes span := by
  have hsep := Operator.standsAlone_sep e.operator
  rw [Expression.split?_of_unnamed he] at hvalues
  obtain ⟨vs, hvs, rfl⟩ := Option.map_eq_some_iff.1 hvalues
  obtain ⟨us, ts, hjoin, hnil, hts, hlen, rfl⟩ := assignInOrder_whole hwhole hne hvs
  rw [List.intercalate_splitOn] at hjoin
  rw [Table.ofList_of_nodup ((keys_assigned e.vars ts).nodup hnodup)] at hagree
  have hpieces : e.pieces b = ts.map e.operator.row.encode :=
    flatMap_pieces_assigned he hwhole hnodup hlen hagree
  constructor
  · rw [hpieces]
    obtain ⟨u, us, rfl⟩ := List.exists_cons_of_ne_nil (mt hnil.1 (List.splitOn_ne_nil _ span))
    obtain ⟨t, ts', -, -, rfl⟩ := mapM_cons_eq_some.1 hts
    exact List.cons_ne_nil _ _
  · have hconsists : ∀ u ∈ us, Consists e.operator.row.spans u :=
      Consists.of_mem_intercalate hsep (hjoin.symm ▸ hspan)
    have hus : ∀ u ∈ us, Escaped u := fun u hu => (hconsists u hu).escaped (not_spans_percent _)
    have hus25 : ∀ u ∈ us, e.operator.row.allow = .reserved → ¬['%', '2', '5'] <:+: u :=
      fun u hu ha hin => h25 ha (hjoin ▸ hin.trans (infix_intercalate_of_mem hu))
    rw [Expression.span, hpieces, decodedBytes_intercalate hsep,
      map_decodedBytes_of_mapM hts hus hus25, ← decodedBytes_intercalate hsep, hjoin]

end

/-! ### whole templates -/

/-- Parts whose matches can be expanded again: operators without names, variables without modifiers,
and no `%` in a literal that something behind the literal could complete to an escape. -/
structure Reproducible (ps : List Part) : Prop where
  unnamed : ∀ e, .expression e ∈ ps → e.operator.row.named = false
  whole : ∀ x ∈ vars ps, x.modifier = .whole
  literals : ∀ t, .literal t ∈ ps → ∀ i, t[i]? = some '%' → isTripletAt t i = true

/-- whether values of the parts may keep the escapes that they stand with in the URI -/
def KeepsEscapes (ps : List Part) : Prop :=
  ∃ e, .expression e ∈ ps ∧ e.operator.row.allow = .reserved

section
variable {ps : List Part} {p : Part} {after : Bool} {c : Cursor} {r : List Stretch}
  {b : Bindings}

theorem Reproducible.tail (h : Reproducible (p :: ps)) : Reproducible ps := by
  refine ⟨fun e he => h.unnamed e (List.mem_cons_of_mem _ he), fun x hx => h.whole x ?_,
    fun t ht => h.literals t (List.mem_cons_of_mem _ ht)⟩
  obtain ⟨e, he, hx⟩ := mem_vars_iff.1 hx
  exact mem_vars_iff.2 ⟨e, List.mem_cons_of_mem _ he, hx⟩

theorem KeepsEscapes.cons (h : KeepsEscapes ps) (p : Part) : KeepsEscapes (p :: ps) := by
  obtain ⟨e, he, hallow⟩ := h
  exact ⟨e, List.mem_cons_of_mem _ he, hallow⟩

/-- a reading binds variables of its parts only -/
theorem find?_merged_of_not_mem (h : Reads ps after c r) {name : Text}
    (hname : name ∉ (vars ps).map Variable.name) : (merged r).find? name = none := by
  induction h with
  | done => rfl
  | literal _ _ ih => exact ih hname
  | absent _ _ ih =>
    rw [vars_cons_expression, List.map_append, List.mem_append, not_or] at hname
    exact ih hname.2
  | present _ _ _ hvalues _ ih =>
    rw [vars_cons_expression, List.map_append, List.mem_append, not_or] at hname
    show (Table.orElse _ (merged _)).find? name = none
    rw [Table.find?_orElse, Expression.find?_split?_of_not_mem hvalues hname.1, ih hname.2]
    rfl

/-- an expression expands to nothing if none of its variables was recovered -/
theorem pieces_of_agrees_none {e : Expression} {p : Params} (hagree : Agrees b e.vars p)
    (hnone : ∀ x ∈ e.vars, p.find? x.name = none) : e.pieces b = [] := by
  refine List.flatMap_eq_nil_iff.2 fun x hx => ?_
  have hnull : b.get x.name = .null := by
    rw [hagree x hx, hnone x hx]
    rfl
  rw [content_of_null hnull]
  rfl

theorem decodedBytes_expansion_cons {e : Expression} (he : e.operator.row.named = false)
    (hpieces : e.pieces b ≠ []) (ps : List Part) :
    decodedBytes (expansion (.expression e :: ps) b) =
      decodedBytes e.operator.row.first.toList ++
        (decodedBytes (e.span b) ++ decodedBytes (expansion ps b)) := by
  have hescaped : Escaped (e.span b) :=
    (Expression.consists_span (Expression.plainNames_of_unnamed he b)).escaped
      (Operator.not_matchable_percent _)
  rw [expansion_cons]
  show decodedBytes (e.expansion b ++ expansion ps b) = _
  rw [Expression.expansion_of_pieces hpieces, List.append_assoc,
    decodedBytes_append (Operator.escaped_first _), decodedBytes_append hescaped]

/-- The parts, expanded with what they were read as, stand for the bytes that were read. -/
theorem decodedBytes_of_reads (h : Reads ps after c r) (hps : Reproducible ps)
    (hvars : ∀ e, .expression e ∈ ps → e.vars ≠ [])
    (hnodup : ((vars ps).map Variable.name).Nodup)
    (h25 : KeepsEscapes ps → ¬['%', '2', '5'] <:+: c.rest)
    (hagree : Agrees b (vars ps) (merged r)) :
    decodedBytes (expansion ps b) = decodedBytes c.rest := by
  induction h with
  | done hend => rw [atEnd_iff.1 hend]; rfl
  | @literal t ps _ c d r hlit hr ih =>
    obtain ⟨u, hover, -⟩ := literal?_eq_some hlit
    have hsuffix : d.rest <:+ c.rest := ⟨u, hover.rest.symm⟩
    have ht : Escaped t := escaped_of_isTripletAt (hps.literals t List.mem_cons_self)
    have hd := ih hps.tail (fun e he => hvars e (List.mem_cons_of_mem _ he)) hnodup
      (fun hkeeps hin => h25 (hkeeps.cons _) (hin.trans hsuffix.isInfix)) hagree
    rw [decodedBytes_literal? hlit ht, ← hd, expansion_cons]
    exact decodedBytes_append ht _
  | @absent e ps _ c r hf hr ih =>
    rw [vars_cons_expression, List.map_append] at hnodup
    obtain ⟨-, hnodup', hdisjoint⟩ := List.nodup_append.1 hnodup
    have hagree : Agrees b (e.vars ++ vars ps) (merged r) := hagree
    have hpieces : e.pieces b = [] :=
      pieces_of_agrees_none (hagree.mono fun x hx => List.mem_append_left _ hx) fun x hx =>
        find?_merged_of_not_mem hr fun hm => hdisjoint _ (List.mem_map_of_mem hx) _ hm rfl
    have hbehind := ih hps.tail (fun f hf => hvars f (List.mem_cons_of_mem _ hf)) hnodup'
      (fun hkeeps => h25 (hkeeps.cons _)) (hagree.mono fun x hx => List.mem_append_right _ hx)
    rw [expansion_cons, ← hbehind]
    show decodedBytes (e.expansion b ++ expansion ps b) = _
    rw [Expression.expansion_of_no_pieces hpieces, List.nil_append]
  | @present e ps _ c start stop values r hstart hstop _ hvalues hr ih =>
    rw [vars_cons_expression, List.map_append] at hnodup
    obtain ⟨hnodup, hnodup', hdisjoint⟩ := List.nodup_append.1 hnodup
    obtain ⟨span, hover, hspan⟩ := mem_spanEnds_iff.1 hstop
    rw [hover.textTo] at hvalues
    obtain ⟨hown, hothers⟩ := Agrees.of_orElse hagree
      (fun y hy => Expression.find?_split?_of_not_mem hvalues fun hm =>
        hdisjoint _ hm _ (List.mem_map_of_mem hy) rfl)
      (fun x hx => find?_merged_of_not_mem hr fun hm =>
        hdisjoint _ (List.mem_map_of_mem hx) _ hm rfl)
    have hrest : c.rest = e.operator.row.first.toList ++ span ++ stop.rest := by
      rw [(skip?_eq_some_iff.1 hstart).rest, hover.rest, List.append_assoc]
    have hin : span <:+: c.rest := ⟨e.operator.row.first.toList, stop.rest, hrest.symm⟩
    have hsuffix : stop.rest <:+ c.rest := ⟨e.operator.row.first.toList ++ span, hrest.symm⟩
    have hunnamed := hps.unnamed e List.mem_cons_self
    obtain ⟨hpieces, hbytes⟩ := decodedBytes_span hunnamed (hvars e List.mem_cons_self)
      (fun x hx => hps.whole x (mem_vars_iff.2 ⟨e, List.mem_cons_self, hx⟩)) hnodup hspan
      (fun ha h' => h25 ⟨e, List.mem_cons_self, ha⟩ (h'.trans hin)) hvalues hown
    have hbehind := ih hps.tail (fun f hf => hvars f (List.mem_cons_of_mem _ hf)) hnodup'
      (fun hkeeps h' => h25 (hkeeps.cons _) (h'.trans hsuffix.isInfix)) hothers
    rw [decodedBytes_expansion_cons hunnamed hpieces, hbytes, hbehind, hrest, List.append_assoc,
      decodedBytes_append (Operator.escaped_first _),
      decodedBytes_append (hspan.escaped (not_spans_percent _))]

end

/-- Expanding a template with the variables that a URI gave it makes a text that stands for the same
bytes as the URI. -/
theorem decodedBytes_expansion_of_recover? {source uri : Text} {t : Template} {m : Match}
    (hparse : parse source = .ok t) (hparts : Reproducible t.parts)
    (hnodup : ((vars t.parts).map Variable.name).Nodup)
    (h25 : KeepsEscapes t.parts → ¬['%', '2', '5'] <:+: uri) (hmatch : t.recover? uri = some m) :
    ∃ uri', expand t.parts m.params.toBindings = .ok uri' ∧
      decodedBytes uri' = decodedBytes uri := by
  obtain ⟨params, hparams, rfl⟩ := Option.map_eq_some_iff.1 hmatch
  obtain ⟨r, hr, rfl⟩ := exists_isFirst_of_recover? hparams
  have hagree := agrees_toBindings (vars t.parts) (merged r)
  have hvars : ∀ e, .expression e ∈ t.parts → e.vars ≠ [] :=
    fun e he => ((wellFormed_of_parse hparse).expression he).vars_ne_nil
  exact ⟨_, expand_eq_ok (isSome_content?_of_agrees hagree),
    decodedBytes_of_reads hr.1 hparts hvars hnodup h25 hagree⟩

/-- a literal in another spelling, and a value with a separator -/
theorem decodedBytes_expansion_of_recover?_spelling :
    ∃ uri', expand [.expression ⟨.simple, [⟨['a'], .whole⟩]⟩, .literal ['%', '7', 'E'],
        .expression ⟨.reserved, [⟨['b'], .whole⟩]⟩]
      (Params.toBindings ⟨[(['a'], .text ['x']), (['b'], .text ['y', ',', 'z'])]⟩) = .ok uri' ∧
    decodedBytes uri' = decodedBytes ['x', '%', '7', 'e', 'y', ',', 'z'] := by
  have hparse : parse ['{', 'a', '}', '%', '7', 'E', '{', '+', 'b', '}'] =
      .ok ⟨['{', 'a', '}', '%', '7', 'E', '{', '+', 'b', '}'],
        [.expression ⟨.simple, [⟨['a'], .whole⟩]⟩, .literal ['%', '7', 'E'],
          .expression ⟨.reserved, [⟨['b'], .whole⟩]⟩]⟩ := by rfl
  have hmatch : Template.recover? ⟨['{', 'a', '}', '%', '7', 'E', '{', '+', 'b', '}'],
      [.expression ⟨.simple, [⟨['a'], .whole⟩]⟩, .literal ['%', '7', 'E'],
        .expression ⟨.reserved, [⟨['b'], .whole⟩]⟩]⟩ ['x', '%', '7', 'e', 'y', ',', 'z'] =
      some ⟨['{', 'a', '}', '%', '7', 'E', '{', '+', 'b', '}'],
        ⟨[(['a'], .text ['x']), (['b'], .text ['y', ',', 'z'])]⟩⟩ := by decide +kernel
  have hparts : Reproducible [.expression ⟨.simple, [⟨['a'], .whole⟩]⟩, .literal ['%', '7', 'E'],
      .expression ⟨.reserved, [⟨['b'], .whole⟩]⟩] := by
    refine ⟨?_, by decide, ?_⟩
    · intro e he
      simp only [List.mem_cons, Part.expression.injEq, reduceCtorEq, List.not_mem_nil, or_false,
        false_or] at he
      rcases he with rfl | rfl
      · rfl
      · rfl
    · intro t ht i hi
      simp only [List.mem_cons, Part.literal.injEq, reduceCtorEq, List.not_mem_nil, or_false,
        false_or] at ht
      subst ht
      match i, hi with
      | 0, _ => rfl
      | 1, hi => cases hi
      | 2, hi => cases hi
      | n + 3, hi => cases hi
  have h25 : ¬['%', '2', '5'] <:+: ['x', '%', '7', 'e', 'y', ',', 'z'] := by
    intro hin
    have hmem : '2' ∈ ['x', '%', '7', 'e', 'y', ',', 'z'] := hin.subset (by decide)
    revert hmem
    decide
  have h := decodedBytes_expansion_of_recover? hparse hparts (by decide) (fun _ => h25) hmatch
  exact h

end UriTemplate
