import UriTemplate.Proofs.Match.Reading
import UriTemplate.Proofs.Match.SplitCase

/-!
# Matching does not depend on the spelling of escapes

A byte can be written in a URI as a triplet with digits in either case, and in a literal of a
template also as the character itself. What matching answers depends on none of this.

The digits of a URI are first written in upper case. The search runs through the same choices, with
the same positions and the same remembered failures, so both searches answer the same:

* `literal?_upperDigits`   a literal, however it is spelled, ends where it did;
* `choices_upperDigits`    so do the spans of an expression, and they give the same values;
* `search_upperDigits`     the search, part by part;
* `recover?_respelled`     two lists of parts and two URIs that differ in spelling alone.
-/

namespace UriTemplate
open Percent

/-- the same place, with the digits behind it in upper case -/
def Cursor.upperDigits (c : Cursor) : Cursor := ⟨c.pos, Percent.upperDigits c.rest⟩

/-! ### literals -/

section
variable {bs : List UInt8} {c hi lo : Char} {t l : Text} {n : Nat}

theorem spelledLength?_upperDigits (bs : List UInt8) (t : Text) :
    spelledLength? bs (upperDigits t) = spelledLength? bs t := by
  induction t using symbol_induction generalizing bs with
  | nil => rfl
  | triplet hi lo t hd ih =>
    cases bs with
    | nil => rw [spelledLength?_nil, spelledLength?_nil]
    | cons b bs =>
      rw [upperDigits_triplet hd, spelledLength?_triplet (isHexDigit_toUpper hd),
        spelledLength?_triplet hd, ih, Symbol.bytes_triplet_toUpper hd]
  | plain c t hc ih =>
    cases bs with
    | nil => rw [spelledLength?_nil, spelledLength?_nil]
    | cons b bs =>
      rw [upperDigits_plain hc, spelledLength?_plain (not_startsTriplet_upperDigits hc),
        spelledLength?_plain hc, ih]

/-- Symbols are taken whole, so what is behind them is what was behind them. -/
theorem drop_upperDigits (h : spelledLength? bs t = some n) :
    (upperDigits t).drop n = upperDigits (t.drop n) := by
  induction t using symbol_induction generalizing bs n with
  | nil =>
    rw [List.drop_nil]
    exact List.drop_nil
  | triplet hi lo t hd ih =>
    cases bs with
    | nil =>
      rw [spelledLength?_nil] at h
      cases h
      rfl
    | cons b bs =>
      rw [spelledLength?_triplet hd] at h
      split at h
      · obtain ⟨m, hm, rfl⟩ := Option.map_eq_some_iff.1 h
        rw [upperDigits_triplet hd]
        exact ih hm
      · cases h
  | plain c t hc ih =>
    cases bs with
    | nil =>
      rw [spelledLength?_nil] at h
      cases h
      rfl
    | cons b bs =>
      rw [spelledLength?_plain hc] at h
      split at h
      · obtain ⟨m, hm, rfl⟩ := Option.map_eq_some_iff.1 h
        rw [upperDigits_plain hc]
        exact ih hm
      · cases h

/-- Where an escaped text stands verbatim it is spelled as well. -/
theorem literalLength?_of_escaped (h : Escaped l) (t : Text) :
    literalLength? l t = spelledLength? (decodedBytes l) t := by
  by_cases hverbatim : l <+: t
  · obtain ⟨u, rfl⟩ := hverbatim
    rw [literalLength?_of_verbatim (List.prefix_append l u), spelledLength?_append (h.seamless u)]
  · exact literalLength?_of_not_verbatim hverbatim

theorem literal?_upperDigits {l' : Text} (h : Escaped l) (h' : Escaped l')
    (hbytes : decodedBytes l = decodedBytes l') (c : Cursor) :
    c.upperDigits.literal? l' = (c.literal? l).map Cursor.upperDigits := by
  obtain ⟨pos, t⟩ := c
  unfold Cursor.literal? Cursor.upperDigits
  simp only
  rw [literalLength?_of_escaped h, literalLength?_of_escaped h', spelledLength?_upperDigits, hbytes]
  cases hn : spelledLength? (decodedBytes l') t with
  | none => rfl
  | some n => simp only [Option.map_some, Cursor.advance, drop_upperDigits hn]

-- two texts for the same bytes: the first ends inside an escape, so it is not `Escaped`
example : matchLiteral? ['%', '4'] ['%', '4', '1'] 0 = some 2 ∧
    matchLiteral? ['%', '2', '5', '4'] ['%', '4', '1'] 0 = none := by decide

end

/-! ### spans -/

section
variable {c d : Cursor} {t : Text}

theorem Cursor.Over.upperDigits (h : c.Over t d) (ht : Escaped t) :
    c.upperDigits.Over (Percent.upperDigits t) d.upperDigits := by
  refine ⟨?_, ?_⟩
  · unfold Cursor.upperDigits
    rw [h.rest, upperDigits_append ht]
  · rw [length_upperDigits]
    exact h.pos

theorem spanEndsFrom_upperDigits (o : Operator) (pos : Nat) (t : Text) :
    spanEndsFrom o.row pos (upperDigits t) =
      (spanEndsFrom o.row pos t).map Cursor.upperDigits := by
  induction t using symbol_induction generalizing pos with
  | nil => rfl
  | triplet hi lo t hd ih =>
    rw [upperDigits_triplet hd, spanEndsFrom_triplet (isHexDigit_toUpper hd),
      spanEndsFrom_triplet hd, ih, ← upperDigits_triplet hd]
    rfl
  | plain x t hx ih =>
    rw [upperDigits_plain hx, spanEndsFrom_plain (not_startsTriplet_upperDigits hx),
      spanEndsFrom_plain hx, ih, ← upperDigits_plain hx, List.map_cons]
    split
    · rfl
    · rfl

theorem spanEnds_upperDigits (o : Operator) (c : Cursor) :
    spanEnds o.row c.upperDigits = (spanEnds o.row c).map Cursor.upperDigits :=
  spanEndsFrom_upperDigits o c.pos c.rest

theorem Operator.first_ne_percent (o : Operator) : o.row.first ≠ some '%' := by
  cases o <;> decide

theorem skip?_upperDigits {f : Option Char} (hf : f ≠ some '%') (c : Cursor) :
    c.upperDigits.skip? f = (c.skip? f).map Cursor.upperDigits := by
  obtain ⟨pos, t⟩ := c
  cases f with
  | none => rfl
  | some x =>
    have hx : x ≠ '%' := fun h => hf (congrArg some h)
    unfold Cursor.skip? Cursor.upperDigits
    simp only [head?_upperDigits]
    split
    · next hhead =>
      obtain ⟨u, rfl⟩ := List.head?_eq_some_iff.1 hhead
      simp only [Cursor.advance, upperDigits_plain (not_startsTriplet_of_ne hx u),
        List.drop_succ_cons, List.drop_zero, Option.map_some]
    · rfl

end

/-! ### choices -/

/-- the same choice, with digits in upper case behind where it starts and where it stops -/
def Choice.upperDigits (ch : Choice) : Choice :=
  ⟨ch.start.map Cursor.upperDigits, ch.stop.upperDigits⟩

section
variable {e : Expression}

theorem choices_upperDigits (e : Expression) (required : Bool) (c : Cursor) :
    e.choices required c.upperDigits = (e.choices required c).map Choice.upperDigits := by
  unfold Expression.choices
  simp only
  rw [skip?_upperDigits e.operator.first_ne_percent]
  cases c.skip? e.operator.row.first with
  | none => rfl
  | some start =>
    simp only [Option.map_some, spanEnds_upperDigits, ← List.map_reverse, List.filter_map,
      List.map_map, List.map_append]
    congr 1
    split
    · rfl
    · rfl

/-- Both spans are split alike. -/
theorem valuesOf?_upperDigits (h : PercentFree e.vars) {required : Bool} {c : Cursor} {ch : Choice}
    (hch : ch ∈ e.choices required c) : e.valuesOf? ch.upperDigits = e.valuesOf? ch := by
  rcases mem_choices_iff.1 hch with ⟨-, rfl⟩ | ⟨start, stop, -, hstop, -, rfl⟩
  · rfl
  · obtain ⟨span, hover, hspan⟩ := mem_spanEnds_iff.1 hstop
    have hover' := hover.upperDigits (hspan.escaped (not_spans_percent e.operator))
    show e.split? (start.upperDigits.textTo stop.upperDigits) = e.split? (start.textTo stop)
    rw [hover.textTo, hover'.textTo, split?_upperDigits h]

end

/-! ### the search -/

/-- Two parts that differ in spelling alone. Expressions are the same, with names without `%`.
Literals stand for the same bytes, and every `%` in them begins a triplet. -/
inductive Part.Respelled : Part → Part → Prop
  | literal {t t' : Text} (h : ∀ i, t[i]? = some '%' → isTripletAt t i = true)
      (h' : ∀ i, t'[i]? = some '%' → isTripletAt t' i = true)
      (hbytes : decodedBytes t = decodedBytes t') : Respelled (literal t) (literal t')
  | expression {e : Expression} (h : ∀ x ∈ e.vars, '%' ∉ x.name) :
      Respelled (expression e) (expression e)

section
variable {ps ps' : List Part}

theorem mayFollow_upperDigits (h : List.Forall₂ Part.Respelled ps ps') (c : Cursor) :
    mayFollow c.upperDigits ps' = mayFollow c ps := by
  cases h with
  | nil =>
    unfold mayFollow Cursor.atEnd Cursor.upperDigits
    simp only
    rw [Bool.eq_iff_iff, List.isEmpty_iff, List.isEmpty_iff]
    exact upperDigits_eq_nil
  | cons hp _ =>
    cases hp with
    | @literal t t' ht ht' hbytes =>
      show (c.upperDigits.literal? t').isSome = (c.literal? t).isSome
      rw [literal?_upperDigits (escaped_of_isTripletAt ht) (escaped_of_isTripletAt ht') hbytes,
        Option.isSome_map]
    | expression _ => rfl

theorem firstChoice_upperDigits {e : Expression}
    {next next' : Cursor → Failures → Option Params × Failures}
    (hps : List.Forall₂ Part.Respelled ps ps')
    (hnext : ∀ c known, next' c.upperDigits known = next c known) {chs : List Choice}
    (hchs : ∀ ch ∈ chs, e.valuesOf? ch.upperDigits = e.valuesOf? ch) (known : Failures) :
    firstChoice e ps' next' (chs.map Choice.upperDigits) known =
      firstChoice e ps next chs known := by
  induction chs generalizing known with
  | nil => rfl
  | cons ch chs ih =>
    obtain ⟨hch, hchs⟩ := List.forall_mem_cons.1 hchs
    have hstart : ch.upperDigits.start.isSome = ch.start.isSome := Option.isSome_map
    have hlook : mayFollow ch.upperDigits.stop ps' = mayFollow ch.stop ps :=
      mayFollow_upperDigits hps ch.stop
    have hrest : next' ch.upperDigits.stop known = next ch.stop known := hnext ch.stop known
    rw [List.map_cons, firstChoice, firstChoice, hstart, hlook, hrest, hch]
    simp only [ih hchs]

/-- The search takes the same way through both URIs and remembers the same failures. -/
theorem search_upperDigits (hps : List.Forall₂ Part.Respelled ps ps') (after : Bool) (c : Cursor)
    (known : Failures) : search ps' after c.upperDigits known = search ps after c known := by
  induction hps generalizing after c known with
  | nil =>
    have hend : c.upperDigits.atEnd = c.atEnd := mayFollow_upperDigits .nil c
    rw [search, search, hend]
  | @cons p p' ps ps' hp hps ih =>
    cases hp with
    | literal ht ht' hbytes =>
      rw [search, search,
        literal?_upperDigits (escaped_of_isTripletAt ht) (escaped_of_isTripletAt ht') hbytes]
      cases c.literal? _ with
      | none => rfl
      | some d => exact ih false d known
    | @expression e he =>
      have hlen : ps'.length = ps.length := hps.length_eq.symm
      have hempty : ps'.isEmpty = ps.isEmpty := by
        cases hps <;> rfl
      have hrequired : e.isRequired ps' after = e.isRequired ps after := by
        unfold Expression.isRequired
        rw [hempty]
      have hvalues : ∀ ch ∈ e.choices (e.isRequired ps after) c,
          e.valuesOf? ch.upperDigits = e.valuesOf? ch := fun _ hch => valuesOf?_upperDigits he hch
      have hfirst := firstChoice_upperDigits hps (ih true) hvalues known
      have hpos : c.upperDigits.pos = c.pos := rfl
      rw [search, search, hlen, hpos, hrequired, choices_upperDigits, hfirst]

theorem recover?_upperDigits (hps : List.Forall₂ Part.Respelled ps ps') (uri : Text) :
    recover? ps' (upperDigits uri) = recover? ps uri :=
  congrArg Prod.fst (search_upperDigits hps false (.start uri) ∅)

theorem Part.Respelled.self {p p' : Part} (h : p.Respelled p') : p'.Respelled p' := by
  cases h with
  | literal _ h' _ => exact .literal h' h' rfl
  | expression h => exact .expression h

/-- Parts that differ in spelling alone find the same in URIs that differ only in the case of the
digits in triplets. -/
theorem recover?_respelled {uri uri' : Text} (hps : List.Forall₂ Part.Respelled ps ps')
    (huri : upperDigits uri = upperDigits uri') : recover? ps uri = recover? ps' uri' := by
  have hself : List.Forall₂ Part.Respelled ps' ps' := by
    induction hps with
    | nil => exact .nil
    | cons hp _ ih => exact .cons hp.self ih
  calc recover? ps uri
      _ = recover? ps' (upperDigits uri) := (recover?_upperDigits hps uri).symm
      _ = recover? ps' (upperDigits uri') := by rw [huri]
      _ = recover? ps' uri' := recover?_upperDigits hself uri'

/-- `%7E{;x}` and `~{;x}` -/
theorem recover?_respelled_tilde :
    let x : Expression := ⟨.parameter, [⟨['x'], .whole⟩]⟩
    let ps : List Part := [.literal ['%', '7', 'E'], .expression x]
    let ps' : List Part := [.literal ['~'], .expression x]
    let uri : Text := ['%', '7', 'E', ';', 'x', '=', '%', 'c', '3', '%', 'A', '9']
    let uri' : Text := ['%', '7', 'e', ';', 'x', '=', '%', 'C', '3', '%', 'a', '9']
    List.Forall₂ Part.Respelled ps ps' ∧ upperDigits uri = upperDigits uri' ∧
      recover? ps uri = recover? ps' uri' ∧
      recover? ps' uri' = some ⟨[(['x'], .text ['é'])]⟩ := by
  intro x ps ps' uri uri'
  have htriplet : ∀ i, ['%', '7', 'E'][i]? = some '%' → isTripletAt ['%', '7', 'E'] i = true := by
    intro i hi
    cases i with
    | zero => rfl
    | succ i =>
      have hmem : '%' ∈ ['7', 'E'] := List.mem_of_getElem? hi
      exact absurd hmem (by decide)
  have hplain : ∀ i, ['~'][i]? = some '%' → isTripletAt ['~'] i = true := by
    intro i hi
    exact absurd (List.mem_of_getElem? hi) (by decide)
  have hname : ∀ y ∈ x.vars, '%' ∉ y.name := by
    intro y hy
    obtain rfl := List.mem_singleton.1 hy
    decide
  have hps : List.Forall₂ Part.Respelled ps ps' :=
    .cons (.literal htriplet hplain (by decide)) (.cons (.expression hname) .nil)
  have huri : upperDigits uri = upperDigits uri' := by decide
  exact ⟨hps, huri, recover?_respelled hps huri, by decide +kernel⟩

end

end UriTemplate
