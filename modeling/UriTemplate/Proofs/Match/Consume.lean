import UriTemplate.Match.Cursor
import UriTemplate.Proofs.Percent.Symbol

/-!
# What literals and spans consume

A reader moves a cursor over a piece of text: `Over c t d` says that `t` lies between the cursors
`c` and `d` and that they belong to one text.

* `mem_spanEnds_iff`      a span may end wherever the text in front consists of triplets and of
                          characters that spans may contain, and nowhere else;
* `spanEnds_pairwise`     the ends come in ascending order;
* `Beyond`                what a longer span leaves behind it lies beyond what a shorter one does;
* `literal?_of_over`      a literal matches where it stands;
* `spelledLength?_eq_some_iff`   bytes are spelled by whole symbols at the front of a text;
* `decodedBytes_literal?` what a literal matches stands for the bytes of the literal.
-/

namespace UriTemplate

/-! ### moving a cursor -/

namespace Cursor

/-- `t` lies between the cursors -/
structure Over (c : Cursor) (t : Text) (d : Cursor) : Prop where
  rest : c.rest = t ++ d.rest
  pos : d.pos = c.pos + t.length

variable {c d e : Cursor} {s t : Text}

theorem over_nil (c : Cursor) : Over c [] c := ⟨rfl, rfl⟩

theorem Over.trans (h : Over c s d) (h' : Over d t e) : Over c (s ++ t) e := by
  refine ⟨by rw [h.rest, h'.rest, List.append_assoc], ?_⟩
  rw [h'.pos, h.pos, List.length_append]
  omega

theorem Over.textTo (h : Over c t d) : c.textTo d = t := by
  unfold Cursor.textTo
  rw [h.rest, h.pos, Nat.add_sub_cancel_left, List.take_left]

theorem Over.eq (h : Over c t d) (h' : Over c t e) : d = e := by
  have hrest : d.rest = e.rest := List.append_cancel_left (h.rest.symm.trans h'.rest)
  have hpos : d.pos = e.pos := h.pos.trans h'.pos.symm
  cases d
  cases e
  simp_all

theorem Over.eq_of_pos_eq (h : Over c s d) (h' : Over c t e) (hpos : d.pos = e.pos) : d = e := by
  have hlen : s.length = t.length := by
    have h1 := h.pos
    have h2 := h'.pos
    omega
  obtain rfl : s = t := (List.append_inj (h.rest.symm.trans h'.rest) hlen).1
  exact h.eq h'

theorem Over.in {u : Text} (h : Over c t d) (hc : c.In u) : d.In u := by
  obtain ⟨hpos, hrest⟩ := hc
  have hlen : t.length ≤ u.length - c.pos := by
    rw [← List.length_drop, ← hrest, h.rest, List.length_append]
    omega
  refine ⟨by rw [h.pos]; omega, ?_⟩
  rw [h.pos, ← List.drop_drop, ← hrest, h.rest, List.drop_left]

theorem over_advance (h : c.rest = s ++ t) : Over c s (c.advance s.length) := by
  refine ⟨?_, rfl⟩
  rw [advance, h, List.drop_left]

theorem over_of_append (h : c.rest = s ++ t) : Over c s ⟨c.pos + s.length, t⟩ := ⟨h, rfl⟩

theorem skip?_eq_some_iff {f : Option Char} : c.skip? f = some d ↔ Over c f.toList d := by
  cases f with
  | none =>
    constructor
    · intro h
      cases h
      exact over_nil c
    · intro h
      exact congrArg some ((over_nil c).eq h)
  | some x =>
    simp only [skip?, Option.toList_some]
    constructor
    · intro h
      split at h
      · next hx =>
        cases h
        obtain ⟨t, ht⟩ : ∃ t, c.rest = x :: t := List.head?_eq_some_iff.1 hx
        refine ⟨?_, rfl⟩
        rw [ht, advance, ht]
        rfl
      · cases h
    · intro h
      rw [if_pos (by rw [h.rest]; rfl)]
      have ha : Over c [x] (c.advance 1) := by
        refine ⟨?_, rfl⟩
        rw [advance, h.rest]
        rfl
      rw [ha.eq h]

theorem atEnd_iff : c.atEnd = true ↔ c.rest = [] := List.isEmpty_iff

end Cursor

open Cursor Percent

/-! ### spans -/

section
variable {o : Operator} {c d : Cursor}

theorem not_spans_percent (o : Operator) : o.row.spans '%' = false := by
  unfold Operator.Row.spans
  rw [o.not_matchable_percent]
  rfl

theorem ne_percent_of_spans {x : Char} (h : o.row.spans x = true) : x ≠ '%' := by
  rintro rfl
  rw [not_spans_percent] at h
  cases h

theorem spans_of_matchable {x : Char} (h : o.row.matchable x = true) : o.row.spans x = true := by
  unfold Operator.Row.spans
  rw [h]
  rfl

theorem spanEndsFrom_triplet {hi lo : Char} (h : (isHexDigit hi && isHexDigit lo) = true)
    (r : Operator.Row) (pos : Nat) (t : Text) : spanEndsFrom r pos ('%' :: hi :: lo :: t) =
      ⟨pos, '%' :: hi :: lo :: t⟩ :: spanEndsFrom r (pos + 3) t := by
  rw [spanEndsFrom, if_pos h]

theorem spanEndsFrom_plain {x : Char} {t : Text} (h : ¬startsTriplet (x :: t) = true)
    (o : Operator) (pos : Nat) : spanEndsFrom o.row pos (x :: t) =
      ⟨pos, x :: t⟩ :: if o.row.spans x then spanEndsFrom o.row (pos + 1) t else [] := by
  by_cases hp : x = '%' ∧ ∃ hi lo u, t = hi :: lo :: u
  · obtain ⟨rfl, hi, lo, u, rfl⟩ := hp
    have hd : ¬(isHexDigit hi && isHexDigit lo) = true := h
    rw [spanEndsFrom, if_neg hd, not_spans_percent, if_neg Bool.false_ne_true]
  · rw [spanEndsFrom]
    exact fun hi lo u hx ht => hp ⟨hx, hi, lo, u, ht⟩

/-- the empty span comes first -/
theorem head?_spanEnds (r : Operator.Row) (c : Cursor) : (spanEnds r c).head? = some c := by
  obtain ⟨pos, rest⟩ := c
  show (spanEndsFrom r pos rest).head? = _
  unfold spanEndsFrom
  split <;> rfl

theorem self_mem_spanEnds (r : Operator.Row) (c : Cursor) : c ∈ spanEnds r c :=
  List.mem_of_mem_head? (head?_spanEnds r c)

theorem over_of_mem_spanEndsFrom {pos : Nat} {t : Text} (h : d ∈ spanEndsFrom o.row pos t) :
    ∃ span, Over ⟨pos, t⟩ span d ∧ Consists o.row.spans span := by
  fun_induction spanEndsFrom o.row pos t with
  | case1 pos =>
    obtain rfl := List.mem_singleton.1 h
    exact ⟨[], over_nil _, consists_nil _⟩
  | case2 pos hi lo t ih =>
    rcases List.mem_cons.1 h with rfl | h
    · exact ⟨[], over_nil _, consists_nil _⟩
    · by_cases hd : (isHexDigit hi && isHexDigit lo) = true
      · rw [if_pos hd] at h
        obtain ⟨span, hover, hspan⟩ := ih h
        have h3 : Over ⟨pos, '%' :: hi :: lo :: t⟩ ['%', hi, lo] ⟨pos + 3, t⟩ := ⟨rfl, rfl⟩
        exact ⟨_, h3.trans hover, (consists_triplet hd span).2 hspan⟩
      · rw [if_neg hd] at h
        cases h
  | case3 pos x t _ ih =>
    rcases List.mem_cons.1 h with rfl | h
    · exact ⟨[], over_nil _, consists_nil _⟩
    · by_cases hx : o.row.spans x = true
      · rw [if_pos hx] at h
        obtain ⟨span, hover, hspan⟩ := ih h
        have h1 : Over ⟨pos, x :: t⟩ [x] ⟨pos + 1, t⟩ := ⟨rfl, rfl⟩
        exact ⟨_, h1.trans hover, (consists_cons (ne_percent_of_spans hx) span).2 ⟨hx, hspan⟩⟩
      · rw [if_neg hx] at h
        cases h

theorem mem_spanEndsFrom_append (pos : Nat) {span : Text} (h : Consists o.row.spans span)
    (rest : Text) :
    ⟨pos + span.length, rest⟩ ∈ spanEndsFrom o.row pos (span ++ rest) := by
  induction span using symbol_induction generalizing pos with
  | nil => exact self_mem_spanEnds o.row ⟨pos, rest⟩
  | triplet hi lo t hd ih =>
    have ht := ih (pos + 3) ((consists_triplet hd t).1 h)
    show _ ∈ spanEndsFrom o.row pos ('%' :: hi :: lo :: (t ++ rest))
    rw [spanEndsFrom_triplet hd]
    apply List.mem_cons_of_mem
    have hlen : pos + ('%' :: hi :: lo :: t).length = pos + 3 + t.length := by
      simp only [List.length_cons]
      omega
    rw [hlen]
    exact ht
  | plain x t hx ih =>
    have hne : x ≠ '%' := ((escaped_plain hx).1 (h.escaped (not_spans_percent o))).1
    obtain ⟨hsp, hspan⟩ := (consists_cons hne t).1 h
    have ht := ih (pos + 1) hspan
    rw [List.cons_append, spanEndsFrom_plain (not_startsTriplet_of_ne hne _), if_pos hsp]
    apply List.mem_cons_of_mem
    have hlen : pos + (x :: t).length = pos + 1 + t.length := by
      simp only [List.length_cons]
      omega
    rw [hlen]
    exact ht

theorem mem_spanEnds_iff :
    d ∈ spanEnds o.row c ↔ ∃ span, Over c span d ∧ Consists o.row.spans span := by
  constructor
  · exact over_of_mem_spanEndsFrom
  · rintro ⟨span, hover, hspan⟩
    have h := mem_spanEndsFrom_append c.pos hspan d.rest
    rw [← hover.rest, ← hover.pos] at h
    exact h

theorem spanEndsFrom_pairwise (pos : Nat) (t : Text) :
    (spanEndsFrom o.row pos t).Pairwise fun d e => d.pos < e.pos := by
  have later {pos n : Nat} {t : Text} (hn : 0 < n) :
      ∀ d ∈ spanEndsFrom o.row (pos + n) t, pos < d.pos := by
    intro d hd
    obtain ⟨span, hover, _⟩ := over_of_mem_spanEndsFrom hd
    have hpos : d.pos = pos + n + span.length := hover.pos
    omega
  fun_induction spanEndsFrom o.row pos t with
  | case1 pos => exact List.pairwise_singleton _ _
  | case2 pos hi lo t ih =>
    by_cases hd : (isHexDigit hi && isHexDigit lo) = true
    · rw [if_pos hd]
      exact List.Pairwise.cons (later (by omega)) ih
    · rw [if_neg hd]
      exact List.pairwise_singleton _ _
  | case3 pos x t _ ih =>
    by_cases hx : o.row.spans x = true
    · rw [if_pos hx]
      exact List.Pairwise.cons (later (by omega)) ih
    · rw [if_neg hx]
      exact List.pairwise_singleton _ _

theorem spanEnds_pairwise (c : Cursor) :
    (spanEnds o.row c).Pairwise fun d e => d.pos < e.pos :=
  spanEndsFrom_pairwise c.pos c.rest

end

/-! ### longer spans -/

section
variable {o : Operator} {c d stop : Cursor} {span : Text} {x : Char}

/-- `d` lies behind `c`, past text that is whole as far as escapes go -/
def Beyond (c d : Cursor) : Prop := ∃ u, u ≠ [] ∧ Escaped u ∧ Over c u d

theorem exists_over_of_longer (hover : Over c span d) (hspan : Consists o.row.spans span)
    (hstop : stop ∈ spanEnds o.row c) (hlt : d.pos < stop.pos) :
    ∃ u, u ≠ [] ∧ Consists o.row.spans u ∧ Over d u stop := by
  obtain ⟨span', hover', hspan'⟩ := mem_spanEnds_iff.1 hstop
  have hlen : span.length ≤ span'.length := by
    have h := hover.pos
    have h' := hover'.pos
    omega
  have hprefix : span <+: span' :=
    List.prefix_of_prefix_length_le ⟨_, hover.rest.symm⟩ ⟨_, hover'.rest.symm⟩ hlen
  obtain ⟨u, rfl⟩ := hprefix
  have hu := ((consists_append (hspan.escaped (not_spans_percent o)) u).1 hspan').2
  refine ⟨u, ?_, hu, ?_, ?_⟩
  · rintro rfl
    have h := hover.pos
    have h' := hover'.pos
    rw [List.append_nil] at h'
    omega
  · have hrest := hover.rest.symm.trans hover'.rest
    rw [List.append_assoc] at hrest
    exact List.append_cancel_left hrest
  · have h := hover.pos
    have h' := hover'.pos
    rw [List.length_append] at h'
    omega

theorem beyond_of_longer (hover : Over c span d) (hspan : Consists o.row.spans span)
    (hstop : stop ∈ spanEnds o.row c) (hlt : d.pos < stop.pos) : Beyond d stop := by
  obtain ⟨u, hne, hu, hover'⟩ := exists_over_of_longer hover hspan hstop hlt
  exact ⟨u, hne, hu.escaped (not_spans_percent o), hover'⟩

theorem Beyond.trans_over {u : Text} (h : Beyond c d) (hu : Escaped u) (hover : Over d u stop) :
    Beyond c stop := by
  obtain ⟨v, hne, hv, hover'⟩ := h
  exact ⟨v ++ u, List.append_ne_nil_of_left_ne_nil hne u, (escaped_append hv u).2 hu,
    hover'.trans hover⟩

/-- a character that no span contains ends the span -/
theorem le_of_head? (hover : Over c span d) (hspan : Consists o.row.spans span)
    (hx : d.rest.head? = some x) (hne : x ≠ '%') (hout : o.row.spans x = false)
    (hstop : stop ∈ spanEnds o.row c) : stop.pos ≤ d.pos := by
  refine Nat.le_of_not_lt fun hlt => ?_
  obtain ⟨u, hu, hspans, hover'⟩ := exists_over_of_longer hover hspan hstop hlt
  obtain ⟨y, v, rfl⟩ := List.exists_cons_of_ne_nil hu
  rw [hover'.rest] at hx
  cases hx
  have hin := ((consists_cons hne v).1 hspans).1
  rw [hout] at hin
  cases hin

end

/-! ### literals -/

section
variable {c d : Cursor} {t : Text}

theorem literalLength?_of_verbatim {literal : Text} (h : literal <+: t) :
    literalLength? literal t = some literal.length := by
  unfold literalLength?
  rw [if_pos (List.isPrefixOf_iff_prefix.2 h)]

theorem literalLength?_of_not_verbatim {literal : Text} (h : ¬literal <+: t) :
    literalLength? literal t = spelledLength? (decodedBytes literal) t := by
  unfold literalLength?
  rw [if_neg (mt List.isPrefixOf_iff_prefix.1 h)]

theorem literal?_of_over (h : Over c t d) : c.literal? t = some d := by
  have hverbatim : t <+: c.rest := by
    rw [h.rest]
    exact List.prefix_append t d.rest
  rw [Cursor.literal?, literalLength?_of_verbatim hverbatim, Option.map_some,
    (over_advance h.rest).eq h]

theorem spelledLength?_nil (t : Text) : spelledLength? [] t = some 0 := by
  rw [spelledLength?]

theorem spelledLength?_triplet {hi lo : Char} (h : (isHexDigit hi && isHexDigit lo) = true)
    (b : UInt8) (bs : List UInt8) (t : Text) : spelledLength? (b :: bs) ('%' :: hi :: lo :: t) =
      if (Symbol.triplet hi lo).bytes = [b] then (spelledLength? bs t).map (· + 3) else none := by
  rw [spelledLength?, if_pos h]

theorem spelledLength?_plain {x : Char} (h : ¬startsTriplet (x :: t) = true) (b : UInt8)
    (bs : List UInt8) :
    spelledLength? (b :: bs) (x :: t) =
      if (Utf8.encodeChar x).isPrefixOf (b :: bs) then
        (spelledLength? ((b :: bs).drop (Utf8.encodeChar x).length) t).map (· + 1)
      else none := by
  by_cases hp : x = '%' ∧ ∃ hi lo u, t = hi :: lo :: u
  · -- a `%` with two characters behind it that are not digits
    obtain ⟨rfl, hi, lo, u, rfl⟩ := hp
    have hd : ¬(isHexDigit hi && isHexDigit lo) = true := h
    have hpercent : Utf8.encodeChar '%' = [0x25] := by decide
    have hprefix : [0x25].isPrefixOf (b :: bs) = decide (b = 0x25) := by
      rw [Bool.eq_iff_iff, List.isPrefixOf_iff_prefix, decide_eq_true_iff, List.cons_prefix_cons]
      exact ⟨fun h => h.1.symm, fun h => ⟨h.symm, List.nil_prefix⟩⟩
    rw [spelledLength?, if_neg hd, hpercent, hprefix]
    simp only [decide_eq_true_eq]
    rfl
  · rw [spelledLength?]
    · exact fun h => by cases h
    · intro _ _ hi lo u _ hc ht
      exact hp ⟨hc, hi, lo, u, ht⟩

/-- whole symbols at the front of a text spell their own bytes -/
theorem spelledLength?_append {u v : Text} (h : Seamless u v) :
    spelledLength? (decodedBytes u) (u ++ v) = some u.length := by
  induction u using symbol_induction with
  | nil => exact spelledLength?_nil v
  | triplet hi lo u hd ih =>
    have hbyte : (Symbol.triplet hi lo).bytes =
        [UInt8.ofNat (16 * hexValue hi + hexValue lo)] := rfl
    rw [decodedBytes_triplet hd, hbyte]
    show spelledLength? (_ :: decodedBytes u) ('%' :: hi :: lo :: (u ++ v)) = _
    rw [spelledLength?_triplet hd, if_pos hbyte, ih ((seamless_triplet hd).1 h)]
    rfl
  | plain c u hc ih =>
    obtain ⟨hcv, hu⟩ := (seamless_plain hc).1 h
    obtain ⟨b, bs, hb⟩ := List.exists_cons_of_ne_nil (Utf8.encodeChar_ne_nil c)
    have hprefix : (Utf8.encodeChar c).isPrefixOf (Utf8.encodeChar c ++ decodedBytes u) = true :=
      List.isPrefixOf_iff_prefix.2 (List.prefix_append _ _)
    have hcons : Utf8.encodeChar c ++ decodedBytes u = b :: (bs ++ decodedBytes u) := by
      rw [hb, List.cons_append]
    rw [decodedBytes_plain hc, hcons, List.cons_append, spelledLength?_plain hcv, ← hcons,
      if_pos hprefix, List.drop_left, ih hu]
    rfl

theorem exists_of_spelledLength? {bs : List UInt8} {n : Nat} (h : spelledLength? bs t = some n) :
    ∃ u v, t = u ++ v ∧ Seamless u v ∧ decodedBytes u = bs ∧ u.length = n := by
  -- no bytes are spelled by no symbols, whatever the text
  have hnone {t : Text} {n : Nat} (h : spelledLength? [] t = some n) :
      ∃ u v, t = u ++ v ∧ Seamless u v ∧ decodedBytes u = [] ∧ u.length = n := by
    rw [spelledLength?_nil] at h
    cases h
    exact ⟨[], t, rfl, seamless_nil t, rfl, rfl⟩
  induction t using symbol_induction generalizing bs n with
  | nil =>
    cases bs with
    | nil => exact hnone h
    | cons b bs => cases h
  | triplet hi lo t hd ih =>
    cases bs with
    | nil => exact hnone h
    | cons b bs =>
      rw [spelledLength?_triplet hd] at h
      split at h
      · next hb =>
        obtain ⟨m, hm, rfl⟩ := Option.map_eq_some_iff.1 h
        obtain ⟨u, v, rfl, hseam, rfl, rfl⟩ := ih hm
        refine ⟨'%' :: hi :: lo :: u, v, rfl, (seamless_triplet hd).2 hseam, ?_, rfl⟩
        rw [decodedBytes_triplet hd, hb]
        rfl
      · cases h
  | plain c t hc ih =>
    cases bs with
    | nil => exact hnone h
    | cons b bs =>
      rw [spelledLength?_plain hc] at h
      split at h
      · next hprefix =>
        obtain ⟨m, hm, rfl⟩ := Option.map_eq_some_iff.1 h
        obtain ⟨bs', hbs'⟩ := List.isPrefixOf_iff_prefix.1 hprefix
        rw [← hbs', List.drop_left] at hm
        obtain ⟨u, v, rfl, hseam, rfl, rfl⟩ := ih hm
        have hcu : ¬startsTriplet (c :: u) = true := mt (startsTriplet_append · v) hc
        refine ⟨c :: u, v, rfl, (seamless_plain hcu).2 ⟨hc, hseam⟩, ?_, rfl⟩
        rw [decodedBytes_plain hcu, hbs']
      · cases h

/-- Bytes are spelled by whole symbols at the front of a text. -/
theorem spelledLength?_eq_some_iff {bs : List UInt8} {n : Nat} : spelledLength? bs t = some n ↔
    ∃ u v, t = u ++ v ∧ Seamless u v ∧ decodedBytes u = bs ∧ u.length = n := by
  refine ⟨exists_of_spelledLength?, ?_⟩
  rintro ⟨u, v, rfl, hseam, rfl, rfl⟩
  exact spelledLength?_append hseam

/-- What a literal takes is itself, or symbols that stand for the same bytes. -/
theorem literal?_eq_some (h : c.literal? t = some d) : ∃ u, Over c u d ∧
    (u = t ∨ decodedBytes c.rest = decodedBytes t ++ decodedBytes d.rest) := by
  obtain ⟨n, hn, rfl⟩ := Option.map_eq_some_iff.1 h
  by_cases hverbatim : t <+: c.rest
  · rw [literalLength?_of_verbatim hverbatim] at hn
    cases hn
    obtain ⟨rest, hrest⟩ := hverbatim
    exact ⟨t, over_advance hrest.symm, .inl rfl⟩
  · rw [literalLength?_of_not_verbatim hverbatim] at hn
    obtain ⟨u, v, hrest, hseam, hbytes, rfl⟩ := exists_of_spelledLength? hn
    refine ⟨u, over_advance hrest, .inr ?_⟩
    rw [advance, hrest, List.drop_left, hseam.decodedBytes_append, hbytes]

theorem decodedBytes_literal? (h : c.literal? t = some d) (ht : Escaped t) :
    decodedBytes c.rest = decodedBytes t ++ decodedBytes d.rest := by
  obtain ⟨u, hover, rfl | hbytes⟩ := literal?_eq_some h
  · rw [hover.rest, decodedBytes_append ht]
  · exact hbytes

/-- At the end of the URI there is nothing behind the literal to complete an escape. -/
theorem decodedBytes_literal?_of_atEnd (h : c.literal? t = some d) (hd : d.rest = []) :
    decodedBytes c.rest = decodedBytes t := by
  obtain ⟨u, hover, rfl | hbytes⟩ := literal?_eq_some h
  · rw [hover.rest, hd, List.append_nil]
  · rw [hbytes, hd, decodedBytes_nil, List.append_nil]

end

end UriTemplate
