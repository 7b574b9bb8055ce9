import UriTemplate.Proofs.Roundtrip.Recoverable

/-!
# Expansions that give their values back

Where every plain expression is followed by a character that it cannot contain, expansion can be
undone: `recover?_expansion` says so for templates of this kind (`invertible`), up to the lengths
that values are truncated to.

The search prefers long spans, so what has to be shown is that nothing can be read behind a span
that is longer than what was written. Behind a plain expression the next character ends the span.
Behind the expression with names at the end there is at most a literal, and a span that runs into it
leaves too few bytes to spell it (`not_reads_of_beyond`).
-/

namespace UriTemplate
open Cursor Percent

/-! ### templates whose expansion can be undone -/

/-- an ASCII character that no plain expression writes -/
def isDelimiter (c : Char) : Bool :=
  isAscii c && c ≠ '%' && !isUnreserved c && c ≠ ',' && c ≠ '='

namespace Expression

/-- `{name}` or `{name:n}` -/
def isPlain (e : Expression) : Bool :=
  e.operator = .simple &&
    match e.vars with
    | [x] => !x.isExploded
    | _ => false

/-- an expression with an operator that writes names, plain ones, and without exploded variables -/
def isNamed (e : Expression) : Bool :=
  e.operator.row.named && e.vars.all fun x => !x.isExploded && x.name.all isUnreserved

end Expression

/-- what may stand behind a plain expression -/
def mayFollowPlain : List Part → Bool
  | [] => true
  | .literal t :: _ => t.head?.any isDelimiter
  | .expression e :: _ => e.isNamed

/-- plain expressions that something separates, and at most one other expression behind them -/
def invertible : List Part → Bool
  | [] => true
  | .literal _ :: ps => invertible ps
  | .expression e :: ps =>
    (e.isPlain && mayFollowPlain ps || e.isNamed && (expressions ps).isEmpty) && invertible ps

/-- Every variable has a text or is undefined, that of a plain expression has a text, and a plain
expression at the end one that is not empty. -/
structure TextBindings (b : Bindings) (ps : List Part) : Prop where
  texts : ∀ x ∈ vars ps,
    (b.get x.name).text?.isSome = true ∨ (b.get x.name).content? = some .undefined
  plain : ∀ e, .expression e ∈ ps → e.isPlain = true → ∀ x ∈ e.vars,
    (b.get x.name).text?.isSome = true
  last : ∀ e, ps.getLast? = some (.expression e) → e.isPlain = true → ∀ x ∈ e.vars,
    (b.get x.name).text? ≠ some []

theorem TextBindings.tail {b : Bindings} {p : Part} {ps : List Part}
    (h : TextBindings b (p :: ps)) : TextBindings b ps := by
  refine ⟨fun x hx => h.texts x ?_, fun e he => h.plain e (List.mem_cons_of_mem _ he), ?_⟩
  · obtain ⟨e, he, hx⟩ := mem_vars_iff.1 hx
    exact mem_vars_iff.2 ⟨e, List.mem_cons_of_mem _ he, hx⟩
  · intro e he
    apply h.last e
    cases ps with
    | nil => cases he
    | cons q qs => rwa [List.getLast?_cons_cons]

/-- the variables that have a text, in order, with as much of it as they expand to -/
def definedOf (b : Bindings) (xs : List Variable) : List (Text × Recovered) :=
  xs.filterMap fun x => (b.get x.name).text?.map fun t => (x.name, .text (x.modifier.cut t))

def defined (ps : List Part) (b : Bindings) : List (Text × Recovered) := definedOf b (vars ps)

theorem keys_definedOf (b : Bindings) (xs : List Variable) :
    ((definedOf b xs).map Prod.fst).Sublist (xs.map Variable.name) := by
  unfold definedOf
  induction xs with
  | nil => exact List.Sublist.refl _
  | cons x xs ih =>
    cases ht : (b.get x.name).text? with
    | none =>
      rw [List.filterMap_cons_none (by rw [ht]; rfl)]
      exact ih.cons _
    | some t =>
      rw [List.filterMap_cons_some (by rw [ht]; rfl)]
      exact ih.cons_cons _

/-! ### values of variables -/

theorem recover?_encode (m : Modifier) (t : Text) :
    m.recover? (encode .unreserved (m.cut t)) = some (.text (m.cut t)) := by
  unfold Modifier.recover?
  rw [decode?_encode_unreserved]
  exact congrArg (fun t => some (Recovered.text t)) (m.cut_cut t)

/-! ### nothing is read beyond a literal at the end -/

section
variable {ps : List Part} {b : Bindings} {after : Bool} {c d : Cursor}

theorem eq_nil_or_literal (hreg : Regular ps) (h : (expressions ps).isEmpty = true) :
    ps = [] ∨ ∃ t, ps = [.literal t] := by
  cases ps with
  | nil => exact .inl rfl
  | cons p ps =>
    cases p with
    | expression e => cases h
    | literal t =>
      obtain ⟨-, hhead, -⟩ := hreg
      cases ps with
      | nil => exact .inr ⟨t, rfl⟩
      | cons q qs =>
        cases q with
        | expression e => cases h
        | literal u => exact absurd rfl (hhead u)

/-- The text behind an escape boundary inside a literal stands for fewer bytes than the literal. -/
theorem not_reads_of_beyond (hps : ps = [] ∨ ∃ t, ps = [.literal t])
    (hc : c.rest = expansion ps b) (h : Beyond c d) (r : List Stretch) : ¬Reads ps after d r := by
  intro hr
  obtain ⟨u, hne, hu, hover⟩ := h
  have hrest := hover.rest
  rw [hc] at hrest
  rcases hps with rfl | ⟨t, rfl⟩
  · exact hne (List.append_eq_nil_iff.1 hrest.symm).1
  · have ht : t = u ++ d.rest := by
      rw [← hrest]
      exact (List.append_nil t).symm
    cases hr with
    | literal hlit hr =>
      cases hr with
      | done hend =>
        have hbytes := decodedBytes_literal?_of_atEnd hlit (atEnd_iff.1 hend)
        rw [ht, decodedBytes_append hu] at hbytes
        have hlen := congrArg List.length hbytes
        rw [List.length_append] at hlen
        exact hne (decodedBytes_eq_nil (List.length_eq_zero_iff.1 (by omega)))

end

/-! ### reading an expression at the end -/

/-- With at most a literal behind it, an expression whose span can be split is read as it was
written. -/
theorem IsFirst.expression {e : Expression} {ps : List Part} {b : Bindings} {after : Bool}
    {c : Cursor} {r : List Stretch} {values : Params}
    (hr : IsFirst ps true
      (c.behind (e.operator.row.first.toList ++ e.span b) (expansion ps b)) r)
    (hnames : e.PlainNames b) (hp : e.pieces b ≠ [])
    (hvalues : e.split? (e.span b) = some values)
    (hne : e.operator.row.first = none → ps = [] → after = false → e.span b ≠ [])
    (hlit : ps = [] ∨ ∃ t, ps = [.literal t]) (hc : c.rest = e.expansion b ++ expansion ps b) :
    IsFirst (.expression e :: ps) after c (.present
      (c.behind (e.operator.row.first.toList ++ e.span b) (expansion ps b)) values :: r) := by
  rw [Expression.expansion_of_pieces hp] at hc
  have hspan := Expression.consists_span hnames
  refine hr.present (reads_present hc hspan hvalues hne hr.1) fun start stop hstart hstop hlt => ?_
  have hstart := skip?_eq_some_iff.1 hstart
  have hspans := hspan.mono fun _ => spans_of_matchable
  rw [List.append_assoc] at hc
  obtain rfl := hstart.eq (over_of_append hc)
  have hover := c.over_behind e.operator.row.first.toList (e.span b) (expansion ps b)
  exact not_reads_of_beyond hlit rfl (beyond_of_longer hover hspans hstop hlt)

/-! ### reading a plain expression -/

section
variable {e : Expression} {b : Bindings} {ps : List Part} {after : Bool} {c : Cursor}
  {r : List Stretch}

theorem Expression.eq_of_isPlain (h : e.isPlain = true) :
    ∃ x, e = ⟨.simple, [x]⟩ ∧ x.isExploded = false := by
  obtain ⟨o, xs⟩ := e
  unfold Expression.isPlain at h
  obtain ⟨ho, hxs⟩ := Bool.and_eq_true_iff.1 h
  obtain rfl : o = .simple := of_decide_eq_true ho
  match xs, hxs with
  | [x], hx => exact ⟨x, rfl, by simpa using hx⟩

theorem not_spans_of_isDelimiter {x : Char} (h : isDelimiter x = true) :
    x ≠ '%' ∧ Operator.simple.row.spans x = false := by
  simp only [isDelimiter, Bool.and_eq_true, Bool.not_eq_true', decide_eq_true_eq] at h
  obtain ⟨⟨⟨⟨hascii, hne⟩, hunres⟩, hcomma⟩, hequals⟩ := h
  refine ⟨hne, ?_⟩
  simp [Operator.Row.spans, Operator.Row.matchable, Operator.row, hascii, hunres, hcomma, hequals]

theorem Operator.isDelimiter_first {o : Operator} (h : o.row.named = true) :
    ∃ x, o.row.first = some x ∧ isDelimiter x = true := by
  revert h
  cases o <;> simp [Operator.row] <;> decide

/-- Behind a plain expression there is nothing, or a delimiter, or an expression with names that
wrote nothing. -/
theorem rest_cases (hfollow : mayFollowPlain ps = true) :
    ps = [] ∨ (∃ x, (expansion ps b).head? = some x ∧ isDelimiter x = true) ∨
      ∃ f ps', ps = .expression f :: ps' ∧ f.isNamed = true ∧ f.expansion b = [] := by
  cases ps with
  | nil => exact .inl rfl
  | cons p ps =>
    right
    cases p with
    | literal t =>
      obtain ⟨x, hx, hdel⟩ : ∃ x, t.head? = some x ∧ isDelimiter x = true := by
        cases ht : t.head? with
        | none =>
          rw [mayFollowPlain, ht] at hfollow
          cases hfollow
        | some x =>
          rw [mayFollowPlain, ht] at hfollow
          exact ⟨x, rfl, hfollow⟩
      refine .inl ⟨x, ?_, hdel⟩
      rw [expansion_cons]
      show (t ++ expansion ps b).head? = some x
      rw [List.head?_append, hx]
      rfl
    | expression f =>
      rcases f.expansion_cases b with ⟨_, hnil⟩ | hexp
      · exact .inr ⟨f, ps, rfl, hfollow, hnil⟩
      · obtain ⟨x, hx, hdel⟩ :=
          Operator.isDelimiter_first (Bool.and_eq_true_iff.1 hfollow).1
        refine .inl ⟨x, ?_, hdel⟩
        rw [expansion_cons]
        show (f.expansion b ++ expansion ps b).head? = some x
        rw [hexp, hx]
        rfl

theorem split?_plain (x : Variable) (hx : x.isExploded = false) (t : Text) :
    Expression.split? ⟨.simple, [x]⟩ (encode .unreserved (x.modifier.cut t))
      = some ⟨[(x.name, .text (x.modifier.cut t))]⟩ := by
  rw [Expression.split?_of_unnamed rfl]
  show (assignInOrder ',' [x] ((encode .unreserved (x.modifier.cut t)).splitOn ',')).map _ = _
  obtain ⟨s, ss, hs⟩ :=
    List.exists_cons_of_ne_nil (List.splitOn_ne_nil ',' (encode .unreserved (x.modifier.cut t)))
  have hjoin : [','].intercalate (s :: ss) = encode .unreserved (x.modifier.cut t) := by
    rw [← hs]
    exact List.intercalate_splitOn ','
  rw [hs, assignInOrder, if_neg (by simp [hx]), if_pos List.isEmpty_nil, hjoin, recover?_encode]
  rfl

theorem span_plain {x : Variable} {t : Text} (ht : (b.get x.name).text? = some t) :
    Expression.span ⟨.simple, [x]⟩ b = encode .unreserved (x.modifier.cut t) ∧
      Expression.expansion ⟨.simple, [x]⟩ b = encode .unreserved (x.modifier.cut t) := by
  have hpieces : Expression.pieces ⟨.simple, [x]⟩ b = [encode .unreserved (x.modifier.cut t)] :=
    Expression.pieces_singleton .simple (content_of_text? ht)
  have hspan : Expression.span ⟨.simple, [x]⟩ b = encode .unreserved (x.modifier.cut t) := by
    rw [Expression.span, hpieces]
    exact List.intercalate_singleton
  refine ⟨hspan, ?_⟩
  rw [Expression.expansion_of_pieces (by rw [hpieces]; exact List.cons_ne_nil _ _), hspan]
  rfl

/-- Nothing is read behind a span that goes on past what a plain expression wrote. -/
theorem not_reads_behind_plain {d stop : Cursor} {span : Text} (hreg : Regular ps)
    (hfollow : mayFollowPlain ps = true) (hinv : invertible ps = true)
    (hover : Over c span d) (hspan : Consists Operator.simple.row.spans span)
    (hd : d.rest = expansion ps b) (hstop : stop ∈ spanEnds Operator.simple.row c)
    (hlt : d.pos < stop.pos) (r : List Stretch) : ¬Reads ps true stop r := by
  intro hr
  have hbeyond := beyond_of_longer hover hspan hstop hlt
  rcases rest_cases (b := b) hfollow with rfl | ⟨x, hx, hdel⟩ | ⟨f, ps', rfl, hf, hnil⟩
  · exact not_reads_of_beyond (.inl rfl) hd hbeyond r hr
  · obtain ⟨hne, hout⟩ := not_spans_of_isDelimiter hdel
    have hle := le_of_head? hover hspan (hd ▸ hx) hne hout hstop
    omega
  · have hlit : ps' = [] ∨ ∃ t, ps' = [.literal t] := by
      refine eq_nil_or_literal hreg.2 ?_
      have hplain : f.isPlain = false := by
        cases hp : f.isPlain with
        | false => rfl
        | true =>
          obtain ⟨x, rfl, -⟩ := Expression.eq_of_isPlain hp
          cases hf
      simp only [invertible, hplain, hf, Bool.false_and, Bool.false_or, Bool.true_and,
        Bool.and_eq_true] at hinv
      exact hinv.1
    have hd' : d.rest = expansion ps' b := by
      rw [hd, expansion_cons]
      show f.expansion b ++ expansion ps' b = expansion ps' b
      rw [hnil, List.nil_append]
    cases hr with
    | absent _ hr => exact not_reads_of_beyond hlit hd' hbeyond _ hr
    | present hstart hstop' _ _ hr =>
      obtain ⟨span', hover', hspan'⟩ := mem_spanEnds_iff.1 hstop'
      have hstart' := skip?_eq_some_iff.1 hstart
      have hfar := (hbeyond.trans_over (Operator.escaped_first _) hstart').trans_over
        (hspan'.escaped (not_spans_percent _)) hover'
      exact not_reads_of_beyond hlit hd' hfar _ hr

theorem isFirst_plain {x : Variable} {t : Text} (hx : x.isExploded = false)
    (hreg : Regular ps) (hfollow : mayFollowPlain ps = true) (hinv : invertible ps = true)
    (hlast : ps = [] → encode .unreserved (x.modifier.cut t) ≠ [])
    (hc : c.rest = encode .unreserved (x.modifier.cut t) ++ expansion ps b)
    (hr : IsFirst ps true (c.behind (encode .unreserved (x.modifier.cut t)) (expansion ps b)) r) :
    IsFirst (.expression ⟨.simple, [x]⟩ :: ps) after c
      (.present (c.behind (encode .unreserved (x.modifier.cut t)) (expansion ps b))
        ⟨[(x.name, .text (x.modifier.cut t))]⟩ :: r) := by
  have hspan : Consists Operator.simple.row.matchable (encode .unreserved (x.modifier.cut t)) :=
    (Operator.consists_encode .simple _).mono fun _ => Operator.matchable_of_writes
  refine hr.present (reads_present hc hspan (split?_plain x hx t) (fun _ hps _ => hlast hps) hr.1)
    fun start stop hstart hstop hlt => ?_
  obtain rfl := Option.some.inj hstart
  have hspans := hspan.mono fun _ => spans_of_matchable
  exact not_reads_behind_plain hreg hfollow hinv (over_of_append hc) hspans rfl hstop hlt

end

/-! ### reading the expression with names -/

section
variable {e : Expression} {b : Bindings} {ps : List Part} {after : Bool} {c : Cursor}
  {r : List Stretch}

theorem Expression.plainNames_of_isNamed (h : e.isNamed = true) (b : Bindings) :
    e.PlainNames b := by
  have hvars := List.all_eq_true.1 (Bool.and_eq_true_iff.1 h).2
  refine ⟨fun _ x hx => (Bool.and_eq_true_iff.1 (hvars x hx)).2, fun _ x hx hexp => ?_⟩
  have hx' := (Bool.and_eq_true_iff.1 (hvars x hx)).1
  rw [hexp] at hx'
  cases hx'

theorem Operator.allow_of_named {o : Operator} (h : o.row.named = true) :
    o.row.allow = .unreserved := by
  revert h
  cases o <;> decide

/-- the segment and the value of a variable that has a text -/
def named? (r : Operator.Row) (b : Bindings) (x : Variable) : Option (Text × Recovered) :=
  (b.get x.name).text?.map fun t => (r.item x.name (x.modifier.cut t), .text (x.modifier.cut t))

theorem pieces_named (e : Expression) (htexts : ∀ x ∈ e.vars,
      (b.get x.name).text?.isSome = true ∨ (b.get x.name).content? = some .undefined) :
    e.pieces b = e.vars.filterMap fun x => (named? e.operator.row b x).map Prod.fst := by
  unfold Expression.pieces
  rw [← flatten_map_toList, List.flatMap_def]
  congr 1
  refine List.map_congr_left fun x hx => ?_
  unfold named?
  rcases htexts x hx with h | h
  · obtain ⟨t, ht⟩ := Option.isSome_iff_exists.1 h
    rw [content_of_text? ht, ht]
    rfl
  · obtain ⟨hcontent, htext⟩ := content_of_undefined h
    rw [hcontent, htext]
    rfl

theorem split?_named (he : e.isNamed = true) (hnames : ∀ x ∈ e.vars, x.name ≠ [])
    (hnodup : (e.vars.map Variable.name).Nodup) (htexts : ∀ x ∈ e.vars,
      (b.get x.name).text?.isSome = true ∨ (b.get x.name).content? = some .undefined) :
    e.split? (e.span b) = some ⟨definedOf b e.vars⟩ := by
  obtain ⟨hnamed, hvars⟩ := Bool.and_eq_true_iff.1 he
  have hplain := Expression.plainNames_of_isNamed he b
  have hscalar : ∀ x ∈ e.vars, x.isExploded = false := fun x hx => by
    simpa using (Bool.and_eq_true_iff.1 (List.all_eq_true.1 hvars x hx)).1
  have hne : ∀ p ∈ e.pieces b, p ≠ [] :=
    Expression.piece_ne_nil hnamed ⟨hplain, fun _ x hx => hscalar x (List.dropLast_subset _ hx),
      fun _ x hx hexp => by rw [hscalar x hx] at hexp; cases hexp⟩ hnames
  have hvalue : ∀ x ∈ e.vars, ∀ p, named? e.operator.row b x = some p →
      key p.1 = x.name ∧ x.modifier.recover? (valueText p.1) = some p.2 := by
    intro x hx p hp
    obtain ⟨t, -, rfl⟩ := Option.map_eq_some_iff.1 hp
    have hequals := equals_not_mem (hplain.names hnamed x hx)
    dsimp only
    rw [Operator.Row.item, if_pos hnamed, key_assign hequals, valueText_assign hequals,
      Operator.Row.encode, Operator.allow_of_named hnamed]
    exact ⟨rfl, recover?_encode x.modifier t⟩
  have hassign := assignByName_scalars e.operator.row.sep hscalar hnodup hvalue
  have hdefined : (e.vars.filterMap fun x => (named? e.operator.row b x).map fun p => (x.name, p.2))
      = definedOf b e.vars := by
    unfold definedOf named?
    simp only [Option.map_map, Function.comp_def]
  rw [hdefined, ← pieces_named e htexts, ← Expression.segments_span hnamed hplain hne] at hassign
  rw [Expression.split?_of_named hnamed, hassign, Option.map_some,
    Table.ofList_of_nodup ((keys_definedOf b e.vars).nodup hnodup)]

theorem definedOf_of_undefined {xs : List Variable}
    (h : ∀ x ∈ xs, (b.get x.name).text? = none) : definedOf b xs = [] := by
  unfold definedOf
  refine List.filterMap_eq_nil_iff.2 fun x hx => ?_
  rw [h x hx]
  rfl

/-- The expression with names and what is behind it are read as they were written. -/
theorem exists_isFirst_named (he : e.isNamed = true) (hnames : ∀ x ∈ e.vars, x.name ≠ [])
    (hnodup : (e.vars.map Variable.name).Nodup)
    (htexts : ∀ x ∈ e.vars,
      (b.get x.name).text?.isSome = true ∨ (b.get x.name).content? = some .undefined)
    (hlit : ps = [] ∨ ∃ t, ps = [.literal t]) (hc : c.rest = e.expansion b ++ expansion ps b)
    (hr : ∀ d : Cursor, d.rest = expansion ps b → ∃ r, IsFirst ps true d r ∧ merged r = .empty) :
    ∃ r, IsFirst (.expression e :: ps) after c r ∧ merged r = ⟨definedOf b e.vars⟩ := by
  obtain ⟨hnamed, hvars⟩ := Bool.and_eq_true_iff.1 he
  obtain ⟨y, hy, -⟩ := Operator.isDelimiter_first hnamed
  have hplain := Expression.plainNames_of_isNamed he b
  by_cases hp : e.pieces b = []
  · -- all variables are undefined
    rw [Expression.expansion_of_no_pieces hp, List.nil_append] at hc
    obtain ⟨r, hr, hmerged⟩ := hr c hc
    have hundefined : ∀ x ∈ e.vars, (b.get x.name).text? = none := by
      rw [pieces_named e htexts] at hp
      intro x hx
      have hnone := List.filterMap_eq_nil_iff.1 hp x hx
      exact Option.map_eq_none_iff.1 (Option.map_eq_none_iff.1 hnone)
    refine ⟨.absent c :: r, hr.absent (by rw [hy]; rfl) ?_, ?_⟩
    · intro start stop hstart hstop
      obtain ⟨span, hover, hspan⟩ := mem_spanEnds_iff.1 hstop
      have hne : e.operator.row.first.toList ≠ [] := by
        rw [hy]
        exact List.cons_ne_nil _ _
      have hbeyond : Beyond c start :=
        ⟨_, hne, Operator.escaped_first _, skip?_eq_some_iff.1 hstart⟩
      exact not_reads_of_beyond hlit hc
        (hbeyond.trans_over (hspan.escaped (not_spans_percent _)) hover)
    · rw [definedOf_of_undefined hundefined]
      exact hmerged
  · obtain ⟨r, hr, hmerged⟩ := hr (c.behind (e.operator.row.first.toList ++ e.span b) _) rfl
    refine ⟨_, hr.expression hplain hp (split?_named he hnames hnodup htexts)
      (fun hf => by rw [hy] at hf; cases hf) hlit hc, ?_⟩
    show Table.orElse _ (merged r) = _
    rw [hmerged]
    rfl

end

/-! ### whole templates -/

theorem vars_of_no_expressions {ps : List Part} (h : (expressions ps).isEmpty = true) :
    vars ps = [] := by
  unfold vars
  rw [List.isEmpty_iff.1 h]
  rfl

theorem cut_ne_nil {x : Variable} {t : Text} (hx : x.WellFormed) (ht : t ≠ []) :
    x.modifier.cut t ≠ [] := by
  cases hm : x.modifier with
  | whole => exact ht
  | exploded => exact ht
  | truncated n =>
    have hn := (hx.length n hm).1
    show t.take n ≠ []
    rw [Ne, List.take_eq_nil_iff, not_or]
    exact ⟨by omega, ht⟩

theorem encode_ne_nil {t : Text} (h : t ≠ []) : encode .unreserved t ≠ [] := by
  intro henc
  have hdecode := decode?_encode_unreserved t
  rw [henc] at hdecode
  exact h (Option.some.inj hdecode).symm

/-- the value of a plain expression in front of those behind it -/
theorem orElse_defined {b : Bindings} {ps : List Part} {x : Variable} {t : Text}
    (ht : (b.get x.name).text? = some t)
    (hnodup : (x.name :: (vars ps).map Variable.name).Nodup) :
    Table.orElse (⟨[(x.name, .text (x.modifier.cut t))]⟩ : Params) ⟨defined ps b⟩ =
      ⟨definedOf b (x :: vars ps)⟩ := by
  have hkeys := (List.Sublist.refl [x.name]).append (keys_definedOf b (vars ps))
  have hdisjoint : (Table.keys (⟨[(x.name, .text (x.modifier.cut t))]⟩ : Params) ++
      Table.keys ⟨defined ps b⟩).Nodup := hkeys.nodup hnodup
  rw [Table.orElse_of_disjoint hdisjoint]
  unfold defined definedOf
  rw [List.filterMap_cons_some (by rw [ht]; rfl)]
  rfl

theorem exists_isFirst_expansion {b : Bindings} {ps : List Part} {after : Bool} {c : Cursor}
    (hreg : Regular ps) (hinv : invertible ps = true)
    (hnodup : ((vars ps).map Variable.name).Nodup) (hb : TextBindings b ps)
    (hc : c.rest = expansion ps b) :
    ∃ r, IsFirst ps after c r ∧ merged r = ⟨defined ps b⟩ := by
  induction ps generalizing after c with
  | nil => exact ⟨[], isFirst_nil (atEnd_iff.2 hc), rfl⟩
  | cons p ps ih =>
    rw [expansion_cons] at hc
    cases p with
    | literal t =>
      have hd := literal?_of_over (over_of_append hc)
      obtain ⟨r, hr, hmerged⟩ : ∃ r, IsFirst ps false (c.behind t (expansion ps b)) r ∧ _ :=
        ih hreg.2.2 hinv hnodup hb.tail rfl
      exact ⟨_, hr.literal hd, hmerged⟩
    | expression e =>
      obtain ⟨he, hreg⟩ := hreg
      obtain ⟨hkind, hinv'⟩ := Bool.and_eq_true_iff.1 hinv
      rw [vars_cons_expression, List.map_append] at hnodup
      have hnodup' := (List.nodup_append.1 hnodup).2.1
      have hrest : c.rest = e.expansion b ++ expansion ps b := hc
      rcases Bool.or_eq_true_iff.1 hkind with hkind | hkind
      · obtain ⟨hplain, hfollow⟩ := Bool.and_eq_true_iff.1 hkind
        have htext := hb.plain e List.mem_cons_self hplain
        have hlast := hb.last e
        obtain ⟨x, rfl, hx⟩ := Expression.eq_of_isPlain hplain
        obtain ⟨t, ht⟩ := Option.isSome_iff_exists.1 (htext x List.mem_cons_self)
        rw [(span_plain ht).2] at hrest
        obtain ⟨r, hr, hmerged⟩ : ∃ r, IsFirst ps true
            (c.behind (encode .unreserved (x.modifier.cut t)) (expansion ps b)) r ∧ _ :=
          ih hreg hinv' hnodup' hb.tail rfl
        refine ⟨_, isFirst_plain hx hreg hfollow hinv' ?_ hrest hr, ?_⟩
        · rintro rfl
          have hne : t ≠ [] := fun hnil => hlast rfl hplain x List.mem_cons_self (hnil ▸ ht)
          exact encode_ne_nil (cut_ne_nil (he.vars x List.mem_cons_self) hne)
        · show Table.orElse _ (merged r) = (⟨definedOf b (x :: vars ps)⟩ : Params)
          rw [hmerged]
          exact orElse_defined ht hnodup
      · obtain ⟨hnamed, hnone⟩ := Bool.and_eq_true_iff.1 hkind
        have hvars := vars_of_no_expressions hnone
        have htexts : ∀ x ∈ e.vars, (b.get x.name).text?.isSome = true ∨
            (b.get x.name).content? = some .undefined := fun x hx =>
          hb.texts x (mem_vars_iff.2 ⟨e, List.mem_cons_self, hx⟩)
        have hrec : ∀ d : Cursor, d.rest = expansion ps b →
            ∃ r, IsFirst ps true d r ∧ merged r = .empty := by
          intro d hd
          obtain ⟨r, hr, hmerged⟩ : ∃ r, IsFirst ps true d r ∧ _ := ih hreg hinv' hnodup' hb.tail hd
          refine ⟨r, hr, ?_⟩
          rw [hmerged, defined, hvars]
          rfl
        rw [defined, vars_cons_expression, hvars, List.append_nil]
        exact exists_isFirst_named hnamed (fun x hx => (he.vars x hx).name_ne_nil)
          (List.nodup_append.1 hnodup).1 htexts (eq_nil_or_literal hreg hnone) hrest hrec

/-- Matching a template with what it expands to gives back the variables that have a text, in the
order of the template, with as much of the text as the template asks for. -/
theorem recover?_expansion {source : Text} {t : Template} {b : Bindings}
    (hparse : parse source = .ok t) (hinv : invertible t.parts = true)
    (hnodup : ((vars t.parts).map Variable.name).Nodup) (hb : TextBindings b t.parts) :
    ∃ uri, expand t.parts b = .ok uri ∧
      t.recover? uri = some ⟨t.source, ⟨defined t.parts b⟩⟩ := by
  have hfirst : ∃ r, IsFirst t.parts false (.start (expansion t.parts b)) r ∧
      merged r = ⟨defined t.parts b⟩ := by
    rcases wellFormed_of_parse hparse with hempty | ⟨-, hreg⟩
    · rw [hempty]
      exact ⟨_, (isFirst_nil rfl).literal (literal?_of_over (over_nil _)), rfl⟩
    · exact exists_isFirst_expansion hreg hinv hnodup hb rfl
  obtain ⟨r, hr, hmerged⟩ := hfirst
  refine ⟨_, expand_eq_ok fun x hx => isSome_content? (hb.texts x hx), ?_⟩
  rw [Template.recover?, recover?_eq_some_of_isFirst hr, hmerged]
  rfl

/-- a separator that also stands in a value, a truncated value and an empty one -/
theorem recover?_expansion_truncated :
    ∃ uri, expand [.expression ⟨.simple, [⟨['a'], .whole⟩]⟩, .literal ['/'],
        .expression ⟨.simple, [⟨['b'], .truncated 2⟩]⟩,
        .expression ⟨.query, [⟨['c'], .whole⟩, ⟨['d'], .whole⟩]⟩]
      ⟨[(['a'], .text ['/', 'é']), (['b'], .text ['x', 'y', 'z']), (['d'], .text [])]⟩ = .ok uri ∧
    Template.recover? ⟨['{', 'a', '}', '/', '{', 'b', ':', '2', '}', '{', '?', 'c', ',', 'd', '}'],
      [.expression ⟨.simple, [⟨['a'], .whole⟩]⟩, .literal ['/'],
        .expression ⟨.simple, [⟨['b'], .truncated 2⟩]⟩,
        .expression ⟨.query, [⟨['c'], .whole⟩, ⟨['d'], .whole⟩]⟩]⟩ uri =
      some ⟨['{', 'a', '}', '/', '{', 'b', ':', '2', '}', '{', '?', 'c', ',', 'd', '}'],
        ⟨[(['a'], .text ['/', 'é']), (['b'], .text ['x', 'y']), (['d'], .text [])]⟩⟩ := by
  have hparse : parse ['{', 'a', '}', '/', '{', 'b', ':', '2', '}', '{', '?', 'c', ',', 'd', '}'] =
      .ok ⟨['{', 'a', '}', '/', '{', 'b', ':', '2', '}', '{', '?', 'c', ',', 'd', '}'],
        [.expression ⟨.simple, [⟨['a'], .whole⟩]⟩, .literal ['/'],
          .expression ⟨.simple, [⟨['b'], .truncated 2⟩]⟩,
          .expression ⟨.query, [⟨['c'], .whole⟩, ⟨['d'], .whole⟩]⟩]⟩ := by rfl
  refine recover?_expansion hparse (by decide) (by decide) ⟨by decide, ?_, ?_⟩
  · intro e he hplain
    simp only [List.mem_cons, Part.expression.injEq, reduceCtorEq, List.not_mem_nil, or_false,
      false_or] at he
    rcases he with rfl | rfl | rfl
    · decide
    · decide
    · cases hplain
  · intro e he hplain
    cases he
    cases hplain

end UriTemplate
