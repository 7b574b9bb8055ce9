import UriTemplate.Match.Search
import UriTemplate.Proofs.Match.Consume
import UriTemplate.Proofs.Table

/-!
# The search finds the first reading

`search` prunes by looking ahead, remembers failures and splits a span only after the parts behind
it have matched. What it is meant to find needs none of this:

* `Reads`     a reading of parts says of each where it ends, and of an expression whether it is
              there; nothing is said about an order or a search;
* `IsFirst`   the first of all readings, where at each expression a longer span comes before a
              shorter one and absence comes last;
* `merged`    the variables of a reading: of a name with several values the earliest stays.

The search keeps one invariant of what it remembers (`Fruitless`: from a remembered pair there is
no reading), and `search_spec` is the induction over the parts that carries it.
-/

namespace UriTemplate
open Cursor

/-! ### readings -/

/-- how one part is read -/
inductive Stretch where
  | literal (stop : Cursor)
  | absent (stop : Cursor)
  | present (stop : Cursor) (values : Params)

namespace Stretch

/-- the variables that it binds -/
def values : Stretch → Params
  | present _ v => v
  | _ => .empty

/-- the order of preference between two ways to read one expression -/
inductive Before : Stretch → Stretch → Prop
  | longer {c d : Cursor} {v w : Params} (h : d.pos < c.pos) : Before (present c v) (present d w)
  | present {c d : Cursor} {v : Params} : Before (present c v) (absent d)

theorem Before.asymm {a b : Stretch} (h : a.Before b) : ¬b.Before a := by
  intro h'
  cases h with
  | longer h =>
    cases h' with
    | longer h' => omega
  | present => cases h'

end Stretch

/-- The parts, read as the list says, take the text from a cursor to its end. A last expression that
has no first character and follows no expression may not be empty. -/
inductive Reads : List Part → (afterExpression : Bool) → Cursor → List Stretch → Prop
  | done {after : Bool} {c : Cursor} (h : c.atEnd = true) : Reads [] after c []
  | literal {t : Text} {ps : List Part} {after : Bool} {c d : Cursor} {r : List Stretch}
      (h : c.literal? t = some d) (hr : Reads ps false d r) :
      Reads (.literal t :: ps) after c (.literal d :: r)
  | absent {e : Expression} {ps : List Part} {after : Bool} {c : Cursor} {r : List Stretch}
      (h : e.operator.row.first.isSome = true) (hr : Reads ps true c r) :
      Reads (.expression e :: ps) after c (.absent c :: r)
  | present {e : Expression} {ps : List Part} {after : Bool} {c start stop : Cursor}
      {values : Params} {r : List Stretch} (hstart : c.skip? e.operator.row.first = some start)
      (hstop : stop ∈ spanEnds e.operator.row start)
      (hne : e.operator.row.first = none → ps = [] → after = false → stop.pos ≠ start.pos)
      (hvalues : e.split? (start.textTo stop) = some values) (hr : Reads ps true stop r) :
      Reads (.expression e :: ps) after c (.present stop values :: r)

/-- a reading that comes before every other one -/
def IsFirst (ps : List Part) (after : Bool) (c : Cursor) (r : List Stretch) : Prop :=
  Reads ps after c r ∧ ∀ r', Reads ps after c r' → r' ≠ r → List.Lex Stretch.Before r r'

/-- the variables of a reading -/
def merged : List Stretch → Params
  | [] => .empty
  | .present _ v :: r => v.orElse (merged r)
  | _ :: r => merged r

theorem IsFirst.eq {ps : List Part} {after : Bool} {c : Cursor} {r r' : List Stretch}
    (h : IsFirst ps after c r) (h' : IsFirst ps after c r') : r = r' := by
  by_cases heq : r' = r
  · exact heq.symm
  · have hlt := h.2 r' h'.1 heq
    have hgt := h'.2 r h.1 (Ne.symm heq)
    exact absurd hgt (List.lex_asymm (fun h => h.asymm) hlt)

/-! ### the variables of a reading -/

theorem nodup_split? {e : Expression} {span : Text} {values : Params}
    (h : e.split? span = some values) : values.keys.Nodup := by
  obtain ⟨es, _, rfl⟩ := Option.map_eq_some_iff.1 h
  exact Table.nodup_ofList es

theorem Reads.nodup_merged {ps : List Part} {after : Bool} {c : Cursor} {r : List Stretch}
    (h : Reads ps after c r) : (merged r).keys.Nodup := by
  induction h with
  | done => exact List.nodup_nil
  | literal _ _ ih => exact ih
  | absent _ _ ih => exact ih
  | present _ _ _ hvalues _ _ => exact Table.nodup_orElse (nodup_split? hvalues) _

/-- the earliest expression that binds a name determines its value -/
theorem find?_merged (r : List Stretch) (name : Text) :
    (merged r).find? name = r.findSome? fun s => s.values.find? name := by
  induction r with
  | nil => rfl
  | cons s r ih =>
    rw [List.findSome?_cons]
    cases s with
    | literal d => exact ih
    | absent d => exact ih
    | present d v =>
      show (v.orElse (merged r)).find? name = _
      rw [Table.find?_orElse, ih]
      cases hv : v.find? name <;> simp [Stretch.values, hv]

/-! ### choices -/

/-- the way to read an expression that a choice stands for -/
def Choice.stretch (ch : Choice) (values : Params) : Stretch :=
  match ch.start with
  | none => .absent ch.stop
  | some _ => .present ch.stop values

section
variable {e : Expression} {ps : List Part} {after : Bool} {c : Cursor} {ch : Choice}
  {r : List Stretch}

theorem mem_choices_iff {required : Bool} : ch ∈ e.choices required c ↔
    (e.operator.row.first.isSome = true ∧ ch = ⟨none, c⟩) ∨
    ∃ start stop, c.skip? e.operator.row.first = some start ∧
      stop ∈ spanEnds e.operator.row start ∧ (required = true → stop.pos ≠ start.pos) ∧
      ch = ⟨some start, stop⟩ := by
  unfold Expression.choices
  simp only
  cases hs : c.skip? e.operator.row.first with
  | none =>
    have hf : e.operator.row.first.isSome = true := by
      cases hf : e.operator.row.first with
      | none =>
        rw [hf] at hs
        cases hs
      | some x => rfl
    simp only [hf, List.mem_singleton, true_and, reduceCtorEq, false_and, exists_false, or_false]
  | some start =>
    simp only [List.mem_append, List.mem_map, List.mem_filter, List.mem_reverse,
      Bool.not_eq_true', Bool.and_eq_false_iff, beq_eq_false_iff_ne, Option.some.injEq,
      exists_and_left]
    constructor
    · rintro (⟨stop, ⟨hstop, hne⟩, rfl⟩ | h)
      · refine .inr ⟨start, rfl, stop, hstop, fun hr => ?_, rfl⟩
        rcases hne with h | h
        · rw [hr] at h
          cases h
        · exact h
      · cases hf : e.operator.row.first with
        | none => simp [hf] at h
        | some x =>
          simp only [hf, Option.isSome_some, if_true, List.mem_singleton] at h
          exact .inl ⟨rfl, h⟩
    · rintro (⟨hf, rfl⟩ | ⟨start', rfl, stop, hstop, hne, rfl⟩)
      · exact .inr (by simp [hf])
      · refine .inl ⟨stop, ⟨hstop, ?_⟩, rfl⟩
        cases required with
        | false => exact .inl rfl
        | true => exact .inr (hne rfl)

theorem isRequired_iff : e.isRequired ps after = true ↔
    e.operator.row.first = none ∧ ps = [] ∧ after = false := by
  simp only [Expression.isRequired, Bool.and_eq_true, Option.isNone_iff_eq_none,
    List.isEmpty_iff, Bool.not_eq_true', and_assoc]

/-- A reading of an expression is a choice that can be split, and a reading of what follows. -/
theorem reads_expression_iff : Reads (.expression e :: ps) after c r ↔
    ∃ ch ∈ e.choices (e.isRequired ps after) c, ∃ values r', e.valuesOf? ch = some values ∧
      Reads ps true ch.stop r' ∧ r = ch.stretch values :: r' := by
  constructor
  · intro h
    cases h with
    | absent hf hr => exact ⟨⟨none, c⟩, mem_choices_iff.2 (.inl ⟨hf, rfl⟩), _, _, rfl, hr, rfl⟩
    | @present _ _ _ _ start stop values r hstart hstop hne hvalues hr =>
      refine ⟨⟨some start, stop⟩, mem_choices_iff.2 (.inr ⟨start, stop, hstart, hstop, ?_, rfl⟩),
        values, r, hvalues, hr, rfl⟩
      intro h
      obtain ⟨hf, hps, hafter⟩ := isRequired_iff.1 h
      exact hne hf hps hafter
  · rintro ⟨ch, hch, values, r', hvalues, hr, rfl⟩
    rcases mem_choices_iff.1 hch with ⟨hf, rfl⟩ | ⟨start, stop, hstart, hstop, hne, rfl⟩
    · exact .absent hf hr
    · refine .present hstart hstop (fun hf hps hafter => ?_) hvalues hr
      exact hne (isRequired_iff.2 ⟨hf, hps, hafter⟩)

/-- choices come in the order of preference -/
theorem choices_pairwise (required : Bool) :
    (e.choices required c).Pairwise fun a b => ∀ v w, (a.stretch v).Before (b.stretch w) := by
  unfold Expression.choices
  simp only
  split
  · exact List.pairwise_singleton _ _
  · next start _ =>
    have hends := (List.pairwise_reverse.2 (spanEnds_pairwise (o := e.operator) start)).filter
      fun stop => !(required && stop.pos == start.pos)
    refine List.pairwise_append.2 ⟨List.pairwise_map.2 (hends.imp fun h _ _ => .longer h), ?_, ?_⟩
    · split
      · exact List.pairwise_singleton _ _
      · exact List.Pairwise.nil
    · intro a ha b hb v w
      obtain ⟨stop, _, rfl⟩ := List.mem_map.1 ha
      split at hb
      · obtain rfl := List.mem_singleton.1 hb
        exact .present
      · cases hb

theorem in_of_mem_choices {uri : Text} {required : Bool} (hc : c.In uri)
    (h : ch ∈ e.choices required c) : ch.stop.In uri := by
  rcases mem_choices_iff.1 h with ⟨_, rfl⟩ | ⟨start, stop, hstart, hstop, _, rfl⟩
  · exact hc
  · obtain ⟨span, hover, _⟩ := mem_spanEnds_iff.1 hstop
    exact hover.in ((skip?_eq_some_iff.1 hstart).in hc)

theorem mayFollow_of_reads (h : Reads ps after c r) : mayFollow c ps = true := by
  cases h with
  | done h => exact h
  | literal h _ => exact Option.isSome_iff_exists.2 ⟨_, h⟩
  | absent => rfl
  | present => rfl

end

/-! ### the first reading, part by part -/

section
variable {e : Expression} {t : Text} {ps : List Part} {after : Bool} {c d : Cursor}
  {values : Params} {r : List Stretch}

theorem reads_literal_iff (hd : c.literal? t = some d) :
    Reads (.literal t :: ps) after c r ↔ ∃ r', Reads ps false d r' ∧ r = .literal d :: r' := by
  constructor
  · intro h
    cases h with
    | @literal _ _ _ _ d' r' h' hr' =>
      obtain rfl : d' = d := Option.some.inj (h'.symm.trans hd)
      exact ⟨r', hr', rfl⟩
  · rintro ⟨r', hr', rfl⟩
    exact .literal hd hr'

theorem isFirst_nil (hc : c.atEnd = true) : IsFirst [] after c [] := by
  refine ⟨.done hc, fun r' hr' hne => ?_⟩
  cases hr'
  exact absurd rfl hne

theorem IsFirst.literal (h : IsFirst ps false d r) (hd : c.literal? t = some d) :
    IsFirst (.literal t :: ps) after c (.literal d :: r) := by
  refine ⟨.literal hd h.1, fun r' hr' hne => ?_⟩
  obtain ⟨r'', hr'', rfl⟩ := (reads_literal_iff hd).1 hr'
  exact List.Lex.cons (h.2 r'' hr'' fun heq => hne (heq ▸ rfl))

/-- An expression is absent in the first reading if nothing can be read behind it where it is
present. -/
theorem IsFirst.absent (h : IsFirst ps true c r) (hf : e.operator.row.first.isSome = true)
    (hpresent : ∀ start stop, c.skip? e.operator.row.first = some start →
      stop ∈ spanEnds e.operator.row start → ∀ r', ¬Reads ps true stop r') :
    IsFirst (.expression e :: ps) after c (.absent c :: r) := by
  refine ⟨.absent hf h.1, fun r' hr' hne => ?_⟩
  cases hr' with
  | absent _ hr'' => exact List.Lex.cons (h.2 _ hr'' fun heq => hne (heq ▸ rfl))
  | present hstart hstop _ _ hr'' => exact absurd hr'' (hpresent _ _ hstart hstop _)

/-- An expression has the span that it has in the first reading if nothing can be read behind a
longer one. -/
theorem IsFirst.present (h : IsFirst ps true d r)
    (hr : Reads (.expression e :: ps) after c (.present d values :: r))
    (hlonger : ∀ start stop, c.skip? e.operator.row.first = some start →
      stop ∈ spanEnds e.operator.row start → d.pos < stop.pos → ∀ r', ¬Reads ps true stop r') :
    IsFirst (.expression e :: ps) after c (.present d values :: r) := by
  refine ⟨hr, fun r' hr' hne => ?_⟩
  cases hr with
  | @present _ _ _ _ start _ _ _ hstart hstop _ hvalues _ =>
    cases hr' with
    | absent => exact List.Lex.rel .present
    | @present _ _ _ _ start' stop' values' r'' hstart' hstop' _ hvalues' hr'' =>
      obtain rfl : start' = start := Option.some.inj (hstart'.symm.trans hstart)
      rcases Nat.lt_trichotomy stop'.pos d.pos with hlt | heq | hgt
      · exact List.Lex.rel (.longer hlt)
      · obtain ⟨_, hover, _⟩ := mem_spanEnds_iff.1 hstop
        obtain ⟨_, hover', _⟩ := mem_spanEnds_iff.1 hstop'
        obtain rfl := hover'.eq_of_pos_eq hover heq
        obtain rfl : values' = values := Option.some.inj (hvalues'.symm.trans hvalues)
        exact List.Lex.cons (h.2 r'' hr'' fun heq => hne (heq ▸ rfl))
      · exact absurd hr'' (hlonger _ stop' hstart hstop' hgt r'')

end

/-! ### remembered failures -/

/-- From what is remembered about the expressions among the parts there is no reading. A pair is
named by the number of parts behind the expression, so pairs of other expressions do not matter. -/
def Fruitless (uri : Text) : List Part → (afterExpression : Bool) → Failures → Prop
  | [], _, _ => True
  | .literal _ :: ps, _, known => Fruitless uri ps false known
  | .expression e :: ps, after, known =>
    (∀ c r, c.In uri → known.contains (ps.length, c.pos) = true →
      ¬Reads (.expression e :: ps) after c r) ∧ Fruitless uri ps true known

/-- nothing has changed about expressions with at least `n` parts behind them -/
def SameFrom (n : Nat) (known known' : Failures) : Prop :=
  ∀ m pos, n ≤ m → known'.contains (m, pos) = known.contains (m, pos)

theorem fruitless_empty (uri : Text) (ps : List Part) (after : Bool) :
    Fruitless uri ps after ∅ := by
  induction ps generalizing after with
  | nil => trivial
  | cons p ps ih =>
    cases p with
    | literal t => exact ih false
    | expression e =>
      refine ⟨fun c r _ h => ?_, ih true⟩
      rw [Failures.contains_empty] at h
      cases h

theorem Fruitless.insert {uri : Text} {ps : List Part} {after : Bool} {known : Failures}
    (h : Fruitless uri ps after known) {n : Nat} (hn : ps.length ≤ n) (pos : Nat) :
    Fruitless uri ps after (known.insert (n, pos)) := by
  induction ps generalizing after with
  | nil => trivial
  | cons p ps ih =>
    rw [List.length_cons] at hn
    cases p with
    | literal t => exact ih h (by omega)
    | expression e =>
      refine ⟨fun c r hc hk => ?_, ih h.2 (by omega)⟩
      have hne : ¬(n, pos) = (ps.length, c.pos) := fun heq => by
        have := congrArg Prod.fst heq
        simp only at this
        omega
      rw [Failures.contains_insert, decide_eq_false hne, Bool.false_or] at hk
      exact h.1 c r hc hk

theorem SameFrom.trans {n : Nat} {k₁ k₂ k₃ : Failures} (h : SameFrom n k₁ k₂)
    (h' : SameFrom n k₂ k₃) : SameFrom n k₁ k₃ :=
  fun m pos hm => (h' m pos hm).trans (h m pos hm)

/-! ### the search -/

/-- what the search answers about parts at a cursor -/
def Answers (ps : List Part) (after : Bool) (c : Cursor) : Option Params → Prop
  | none => ∀ r, ¬Reads ps after c r
  | some params => ∃ r, IsFirst ps after c r ∧ params = merged r

/-- a search of the parts keeps what it remembers fruitless and answers correctly -/
def SearchSpec (uri : Text) (ps : List Part) (after : Bool)
    (run : Cursor → Failures → Option Params × Failures) : Prop :=
  ∀ c known, c.In uri → Fruitless uri ps after known →
    Answers ps after c (run c known).1 ∧ Fruitless uri ps after (run c known).2 ∧
      SameFrom ps.length known (run c known).2

section
variable {uri : Text} {e : Expression} {ps : List Part} {after : Bool} {c : Cursor}

/-- no reading starts with the choice -/
def Hopeless (e : Expression) (ps : List Part) (ch : Choice) : Prop :=
  ∀ values r, e.valuesOf? ch = some values → ¬Reads ps true ch.stop r

/-- what comes of trying choices in order: all fail, or one works and those before it fail -/
def ChoiceAnswers (e : Expression) (ps : List Part) (chs : List Choice) : Option Params → Prop
  | none => ∀ ch ∈ chs, Hopeless e ps ch
  | some params => ∃ chs₁ ch chs₂ values r, chs = chs₁ ++ ch :: chs₂ ∧
      (∀ ch' ∈ chs₁, Hopeless e ps ch') ∧ e.valuesOf? ch = some values ∧
      IsFirst ps true ch.stop r ∧ params = values.orElse (merged r)

theorem ChoiceAnswers.cons {ch : Choice} {chs : List Choice} {answer : Option Params}
    (h : Hopeless e ps ch) (h' : ChoiceAnswers e ps chs answer) :
    ChoiceAnswers e ps (ch :: chs) answer := by
  cases answer with
  | none => exact List.forall_mem_cons.2 ⟨h, h'⟩
  | some params =>
    obtain ⟨chs₁, ch', chs₂, values, r, rfl, hbefore, hrest⟩ := h'
    exact ⟨ch :: chs₁, ch', chs₂, values, r, rfl, List.forall_mem_cons.2 ⟨h, hbefore⟩, hrest⟩

theorem firstChoice_spec {run : Cursor → Failures → Option Params × Failures}
    (hrun : SearchSpec uri ps true run) (chs : List Choice) (hchs : ∀ ch ∈ chs, ch.stop.In uri)
    {known : Failures} (hknown : Fruitless uri ps true known) :
    ChoiceAnswers e ps chs (firstChoice e ps run chs known).1 ∧
      Fruitless uri ps true (firstChoice e ps run chs known).2 ∧
      SameFrom ps.length known (firstChoice e ps run chs known).2 := by
  induction chs generalizing known with
  | nil => exact ⟨by simp [firstChoice, ChoiceAnswers], hknown, fun _ _ _ => rfl⟩
  | cons ch chs ih =>
    obtain ⟨hch, hchs⟩ := List.forall_mem_cons.1 hchs
    have hskip := ih hchs hknown
    obtain ⟨hanswer, hfruit, hsame⟩ := hrun ch.stop known hch hknown
    have hnext := ih hchs hfruit
    unfold firstChoice
    split
    · -- the part behind the expression cannot begin here
      next hlook =>
      have hhopeless : Hopeless e ps ch := by
        intro values r _ hr
        rw [mayFollow_of_reads hr] at hlook
        simp at hlook
      exact ⟨hskip.1.cons hhopeless, hskip.2⟩
    · split
      · next known' heq =>
        rw [heq] at hanswer hfruit hsame hnext
        have hhopeless : Hopeless e ps ch := fun _ r _ => hanswer r
        exact ⟨hnext.1.cons hhopeless, hnext.2.1, hsame.trans hnext.2.2⟩
      · next rest known' heq =>
        rw [heq] at hanswer hfruit hsame hnext
        split
        · next hvalues =>
          have hhopeless : Hopeless e ps ch := by
            intro values r hv
            rw [hvalues] at hv
            cases hv
          exact ⟨hnext.1.cons hhopeless, hnext.2.1, hsame.trans hnext.2.2⟩
        · next values hvalues =>
          obtain ⟨r, hr, rfl⟩ := hanswer
          exact ⟨⟨[], ch, chs, values, r, rfl, by simp, hvalues, hr, rfl⟩, hfruit, hsame⟩

theorem not_reads_of_hopeless (h : ∀ ch ∈ e.choices (e.isRequired ps after) c, Hopeless e ps ch)
    (r : List Stretch) : ¬Reads (.expression e :: ps) after c r := by
  intro hr
  obtain ⟨ch, hch, values, r', hvalues, hr', _⟩ := reads_expression_iff.1 hr
  exact h ch hch values r' hvalues hr'

/-- The first choice that works begins the first reading. -/
theorem isFirst_of_choice {chs₁ chs₂ : List Choice} {ch : Choice} {values : Params}
    {r : List Stretch} (hchs : e.choices (e.isRequired ps after) c = chs₁ ++ ch :: chs₂)
    (hbefore : ∀ ch' ∈ chs₁, Hopeless e ps ch') (hvalues : e.valuesOf? ch = some values)
    (hr : IsFirst ps true ch.stop r) :
    IsFirst (.expression e :: ps) after c (ch.stretch values :: r) := by
  have hmem : ch ∈ e.choices (e.isRequired ps after) c := by
    rw [hchs]
    exact List.mem_append_right _ List.mem_cons_self
  refine ⟨reads_expression_iff.2 ⟨ch, hmem, values, r, hvalues, hr.1, rfl⟩, ?_⟩
  intro r' hr' hne
  obtain ⟨ch', hch', values', r'', hvalues', hr'', rfl⟩ := reads_expression_iff.1 hr'
  rw [hchs] at hch'
  rcases List.mem_append.1 hch' with h | h
  · exact absurd hr'' (hbefore ch' h values' r'' hvalues')
  · rcases List.mem_cons.1 h with rfl | h
    · -- the same choice: the readings differ behind it
      obtain rfl : values' = values := Option.some.inj (hvalues'.symm.trans hvalues)
      exact List.Lex.cons (hr.2 r'' hr'' fun heq => hne (heq ▸ rfl))
    · have hpair := choices_pairwise (e := e) (c := c) (e.isRequired ps after)
      rw [hchs] at hpair
      have hlater := (List.pairwise_cons.1 (List.pairwise_append.1 hpair).2.1).1 ch' h
      exact List.Lex.rel (hlater values values')

theorem merged_stretch {ch : Choice} {values : Params} {r : List Stretch}
    (hvalues : e.valuesOf? ch = some values) (hr : (merged r).keys.Nodup) :
    values.orElse (merged r) = merged (ch.stretch values :: r) := by
  obtain ⟨start, stop⟩ := ch
  cases start with
  | none =>
    obtain rfl : values = .empty := (Option.some.inj hvalues).symm
    exact Table.empty_orElse hr
  | some start => rfl

theorem ChoiceAnswers.answers {answer : Option Params}
    (h : ChoiceAnswers e ps (e.choices (e.isRequired ps after) c) answer) :
    Answers (.expression e :: ps) after c answer := by
  cases answer with
  | none => exact not_reads_of_hopeless h
  | some params =>
    obtain ⟨chs₁, ch, chs₂, values, r, hchs, hbefore, hvalues, hr, rfl⟩ := h
    exact ⟨_, isFirst_of_choice hchs hbefore hvalues hr, merged_stretch hvalues hr.1.nodup_merged⟩

end

/-- what an answer about the parts behind a literal says about the literal and them -/
theorem Answers.literal {t : Text} {ps : List Part} {after : Bool} {c d : Cursor}
    {answer : Option Params} (hd : c.literal? t = some d) (h : Answers ps false d answer) :
    Answers (.literal t :: ps) after c answer := by
  cases answer with
  | none =>
    intro r hr
    obtain ⟨r', hr', _⟩ := (reads_literal_iff hd).1 hr
    exact h r' hr'
  | some params =>
    obtain ⟨r, hr, rfl⟩ := h
    exact ⟨.literal d :: r, hr.literal hd, rfl⟩

theorem search_spec (uri : Text) (ps : List Part) (after : Bool) :
    SearchSpec uri ps after (search ps after) := by
  induction ps generalizing after with
  | nil =>
    intro c known _ _
    refine ⟨?_, trivial, fun _ _ _ => rfl⟩
    unfold search
    by_cases hc : c.atEnd = true
    · rw [if_pos hc]
      exact ⟨[], isFirst_nil hc, rfl⟩
    · rw [if_neg hc]
      intro r hr
      cases hr with
      | done h => exact hc h
  | cons p ps ih =>
    intro c known hc hknown
    cases p with
    | literal t =>
      unfold search
      split
      · next hnone =>
        refine ⟨fun r hr => ?_, hknown, fun _ _ _ => rfl⟩
        cases hr with
        | literal h _ =>
          rw [hnone] at h
          cases h
      · next d hd =>
        obtain ⟨u, hover, _⟩ := literal?_eq_some hd
        obtain ⟨hanswer, hfruit, hsame⟩ := ih false d known (hover.in hc) hknown
        refine ⟨hanswer.literal hd, hfruit, fun m pos hm => hsame m pos ?_⟩
        rw [List.length_cons] at hm
        omega
    | expression e =>
      unfold search
      split
      · next hk => exact ⟨fun r => hknown.1 c r hc hk, hknown, fun _ _ _ => rfl⟩
      · have hspec := firstChoice_spec (e := e) (ih true) (e.choices (e.isRequired ps after) c)
          (fun ch hch => in_of_mem_choices hc hch) hknown.2
        split
        · next params known' heq =>
          rw [heq] at hspec
          obtain ⟨hanswer, hfruit, hsame⟩ := hspec
          refine ⟨hanswer.answers, ⟨fun c' r hc' hk => ?_, hfruit⟩, fun m pos hm => hsame m pos ?_⟩
          · rw [hsame _ _ (Nat.le_refl _)] at hk
            exact hknown.1 c' r hc' hk
          · rw [List.length_cons] at hm
            omega
        · next known' heq =>
          rw [heq] at hspec
          obtain ⟨hanswer, hfruit, hsame⟩ := hspec
          have hnone := hanswer.answers
          refine ⟨hnone, ⟨fun c' r hc' hk => ?_, hfruit.insert (Nat.le_refl _) _⟩, ?_⟩
          · -- only the pair that has just failed is new
            rw [Failures.contains_insert, Bool.or_eq_true, decide_eq_true_eq] at hk
            rcases hk with hk | hk
            · obtain rfl := eq_of_pos_eq hc' hc (congrArg Prod.snd hk).symm
              exact hnone r
            · rw [hsame _ _ (Nat.le_refl _)] at hk
              exact hknown.1 c' r hc' hk
          · intro m pos hm
            rw [List.length_cons] at hm
            have hne : ¬(ps.length, c.pos) = (m, pos) := fun heq => by
              have := congrArg Prod.fst heq
              simp only at this
              omega
            rw [Failures.contains_insert, decide_eq_false hne, Bool.false_or]
            exact hsame m pos (by omega)

theorem recover?_answers (ps : List Part) (uri : Text) :
    Answers ps false (.start uri) (recover? ps uri) :=
  (search_spec uri ps false (.start uri) ∅ (start_in uri) (fruitless_empty uri ps false)).1

/-! ### what matching finds -/

theorem isSome_recover?_of_reads {ps : List Part} {uri : Text} {r : List Stretch}
    (h : Reads ps false (.start uri) r) : (recover? ps uri).isSome = true := by
  have hanswer := recover?_answers ps uri
  cases hrec : recover? ps uri with
  | none =>
    rw [hrec] at hanswer
    exact absurd h (hanswer r)
  | some params => rfl

theorem recover?_eq_some_of_isFirst {ps : List Part} {uri : Text} {r : List Stretch}
    (h : IsFirst ps false (.start uri) r) : recover? ps uri = some (merged r) := by
  have hanswer := recover?_answers ps uri
  cases hrec : recover? ps uri with
  | none =>
    rw [hrec] at hanswer
    exact absurd h.1 (hanswer r)
  | some params =>
    rw [hrec] at hanswer
    obtain ⟨r', hr', rfl⟩ := hanswer
    rw [h.eq hr']

theorem exists_isFirst_of_recover? {ps : List Part} {uri : Text} {params : Params}
    (h : recover? ps uri = some params) :
    ∃ r, IsFirst ps false (.start uri) r ∧ params = merged r := by
  have hanswer := recover?_answers ps uri
  rw [h] at hanswer
  exact hanswer

/-- Matching fails exactly if there is no reading, and else gives the variables of the first one,
each with the value that the earliest expression binding it gives. -/
theorem recover?_first_reading (ps : List Part) (uri : Text) :
    (recover? ps uri = none ↔ ∀ r, ¬Reads ps false (.start uri) r) ∧
    (∀ params, recover? ps uri = some params ↔
      ∃ r, IsFirst ps false (.start uri) r ∧ params = merged r) ∧
    ∀ r name, (merged r).find? name = r.findSome? fun s => s.values.find? name := by
  refine ⟨⟨fun h => ?_, fun h => ?_⟩, fun params => ⟨exists_isFirst_of_recover?, ?_⟩, find?_merged⟩
  · have hanswer := recover?_answers ps uri
    rw [h] at hanswer
    exact hanswer
  · cases hrec : recover? ps uri with
    | none => rfl
    | some params =>
      obtain ⟨r, hr, _⟩ := exists_isFirst_of_recover? hrec
      exact absurd hr.1 (h r)
  · rintro ⟨r, hr, rfl⟩
    exact recover?_eq_some_of_isFirst hr

end UriTemplate
