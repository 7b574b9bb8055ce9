import UriTemplate.Proofs.Lists
import UriTemplate.Proofs.Match.Consume
import UriTemplate.Proofs.Percent.NormalForm

/-!
# The ends of spans

From a position of a URI on, a span of an operator may end wherever what it has taken is put together
from triplets, characters that the operator can produce, and characters outside ASCII.

* `Operator.Producible`     the texts that are put together so, in whatever way;
* `Operator.producible_iff`   there is no way but the symbols of the text, as a `%` is in no class;
* `Escaped.triplet_le`      a text whose every `%` begins a triplet cuts no triplet that begins in it;
* `boundaries_aligned`        the positions where spans may end are those where such texts do.
-/

namespace UriTemplate
open Cursor Percent

/-- a triplet, a character that the operator can produce, or one outside ASCII -/
inductive Operator.SpanUnit (o : Operator) : Text → Prop
  | triplet {hi lo : Char} (h : (isHexDigit hi && isHexDigit lo) = true) : SpanUnit o ['%', hi, lo]
  | matchable {c : Char} (h : o.row.matchable c = true) : SpanUnit o [c]
  | nonAscii {c : Char} (h : isAscii c = false) : SpanUnit o [c]

/-- a text that some units make up -/
def Operator.Producible (o : Operator) (t : Text) : Prop :=
  ∃ us : List Text, us.flatten = t ∧ ∀ u ∈ us, o.SpanUnit u

/-- the positions where a span may end that starts at a position of the URI -/
def Operator.boundaries (o : Operator) (uri : Text) (start : Nat) : List Nat :=
  (spanEnds o.row ⟨start, uri.drop start⟩).map Cursor.pos

/-! ### units -/

section
variable {o : Operator} {c : Char} {t u : Text}

theorem spans_iff : o.row.spans c = true ↔ o.row.matchable c = true ∨ isAscii c = false := by
  rw [Operator.Row.spans, Bool.or_eq_true, Bool.not_eq_true']

theorem Operator.SpanUnit.consists (h : o.SpanUnit u) : Consists o.row.spans u := by
  have hplain {c : Char} (hc : o.row.spans c = true) : Consists o.row.spans [c] :=
    (consists_cons (ne_percent_of_spans hc) []).2 ⟨hc, consists_nil _⟩
  cases h with
  | triplet hd => exact (consists_triplet hd []).2 (consists_nil _)
  | matchable hc => exact hplain (spans_iff.2 (.inl hc))
  | nonAscii hc => exact hplain (spans_iff.2 (.inr hc))

/-- the symbols of a text are units if its plain characters are -/
theorem Operator.unit_of_mem_symbols (h : Consists o.row.spans t) {s : Symbol}
    (hs : s ∈ symbols t) : o.SpanUnit s.text := by
  cases s with
  | triplet hi lo => exact .triplet (Bool.and_eq_true_iff.2 (isHexDigit_of_triplet_mem hs))
  | plain c =>
    rcases spans_iff.1 (h c hs) with hc | hc
    · exact .matchable hc
    · exact .nonAscii hc

theorem Operator.producible_iff : o.Producible t ↔ Consists o.row.spans t := by
  constructor
  · rintro ⟨us, rfl, hus⟩
    induction us with
    | nil => exact consists_nil _
    | cons u us ih =>
      obtain ⟨hu, hus⟩ := List.forall_mem_cons.1 hus
      -- a unit is whole, so nothing behind it changes how it is read
      have hescaped := hu.consists.escaped (not_spans_percent o)
      exact (consists_append hescaped us.flatten).2 ⟨hu.consists, ih hus⟩
  · intro h
    refine ⟨(symbols t).map Symbol.text, symbols_text t, ?_⟩
    exact List.forall_mem_map.2 fun s hs => Operator.unit_of_mem_symbols h hs

end

/-! ### triplets across the end of a text -/

theorem Percent.Escaped.triplet_le {u v : Text} {i : Nat} (h : Escaped u) (hi : i < u.length)
    (ht : isTripletAt (u ++ v) i = true) : i + 3 ≤ u.length := by
  induction u using symbol_induction generalizing i with
  | nil => exact absurd hi (Nat.not_lt_zero i)
  | triplet a b u hd ih =>
    have hinside := not_isTripletAt_inside (t := '%' :: a :: b :: (u ++ v)) (j := 0) (i := i) hd
    simp only [List.length_cons] at hi ⊢
    match i with
    | 0 => omega
    | 1 | 2 => exact absurd ht (Bool.eq_false_iff.1 (hinside (by omega) (by omega)))
    | i + 3 =>
      have hle := ih ((escaped_triplet hd u).1 h) (by omega) ht
      omega
  | plain c u hc ih =>
    obtain ⟨hne, hu⟩ := (escaped_plain hc).1 h
    rw [List.length_cons] at hi ⊢
    match i with
    | 0 => exact absurd ht (not_startsTriplet_of_ne hne (u ++ v))
    | i + 1 =>
      have hle := ih hu (by omega) ht
      omega

/-! ### positions -/

section
variable {o : Operator} {uri t : Text} {start stop : Nat} {d : Cursor}

theorem Cursor.Over.slice (h : Over ⟨start, uri.drop start⟩ t d) :
    (uri.take d.pos).drop start = t := by
  have hrest : uri.drop start = t ++ d.rest := h.rest
  rw [h.pos]
  exact slice_of_drop_eq_append hrest

theorem Cursor.over_slice (hstart : start ≤ stop) (hstop : stop ≤ uri.length) :
    Over ⟨start, uri.drop start⟩ ((uri.take stop).drop start) ⟨stop, uri.drop stop⟩ := by
  have hdrop : uri.drop stop = (uri.drop start).drop (stop - start) := by
    rw [List.drop_drop, Nat.add_sub_cancel' hstart]
  constructor
  · show uri.drop start = (uri.take stop).drop start ++ uri.drop stop
    rw [List.drop_take, hdrop, List.take_append_drop]
  · show stop = start + ((uri.take stop).drop start).length
    rw [List.length_drop, List.length_take]
    omega

theorem mem_boundaries_iff (h : start ≤ uri.length) : stop ∈ o.boundaries uri start ↔
    start ≤ stop ∧ stop ≤ uri.length ∧ Consists o.row.spans ((uri.take stop).drop start) := by
  unfold Operator.boundaries
  rw [List.mem_map]
  constructor
  · rintro ⟨d, hd, rfl⟩
    obtain ⟨span, hover, hspan⟩ := mem_spanEnds_iff.1 hd
    have hin : d.In uri := hover.in ⟨h, rfl⟩
    have hpos : d.pos = start + span.length := hover.pos
    refine ⟨by omega, hin.1, ?_⟩
    rwa [hover.slice]
  · rintro ⟨hstart, hstop, hspan⟩
    exact ⟨⟨stop, uri.drop stop⟩, mem_spanEnds_iff.2 ⟨_, over_slice hstart hstop, hspan⟩, rfl⟩

theorem boundaries_pairwise : (o.boundaries uri start).Pairwise (· < ·) :=
  List.pairwise_map.2 (spanEnds_pairwise _)

/-- a boundary in front of the end of a triplet is in front of all of it -/
theorem le_of_mem_boundaries (h : start ≤ uri.length) (hstop : stop ∈ o.boundaries uri start)
    {i : Nat} (hi : start ≤ i) (ht : isTripletAt uri i = true) (hlt : stop < i + 3) : stop ≤ i := by
  obtain ⟨hstart, hlen, hspan⟩ := (mem_boundaries_iff h).1 hstop
  refine Nat.le_of_not_lt fun hin => ?_
  have hover := over_slice hstart hlen
  have hpos : stop = start + ((uri.take stop).drop start).length := hover.pos
  have hrest : uri.drop start = (uri.take stop).drop start ++ uri.drop stop := hover.rest
  have ht' : isTripletAt ((uri.take stop).drop start ++ uri.drop stop) (i - start) = true := by
    rwa [← hrest, isTripletAt, List.drop_drop, Nat.add_sub_cancel' hi]
  have hle := (hspan.escaped (not_spans_percent o)).triplet_le (by omega) ht'
  omega

end

/-- From a position of a URI on, the positions where a span may end ascend from that position; they are
those where a text ends that the operator can produce, and none is inside of a triplet that begins
there or later. The URI is read on from each of them. -/
theorem boundaries_aligned {uri : Text} {start : Nat} (h : start ≤ uri.length) (o : Operator) :
    (o.boundaries uri start).Pairwise (· < ·) ∧ (o.boundaries uri start).head? = some start ∧
    (∀ stop, stop ∈ o.boundaries uri start ↔
      start ≤ stop ∧ stop ≤ uri.length ∧ o.Producible ((uri.take stop).drop start)) ∧
    (∀ i, start ≤ i → isTripletAt uri i = true → ∀ stop ∈ o.boundaries uri start,
      ¬(i < stop ∧ stop < i + 3)) ∧
    ∀ d ∈ spanEnds o.row ⟨start, uri.drop start⟩, d.rest = uri.drop d.pos := by
  refine ⟨boundaries_pairwise, ?head, fun stop => ?mem, ?triplet, fun d hd => ?rest⟩
  case head => rw [Operator.boundaries, List.head?_map, head?_spanEnds, Option.map_some]
  case mem => rw [mem_boundaries_iff h, Operator.producible_iff]
  case triplet =>
    rintro i hi ht stop hstop ⟨hlt, hlt'⟩
    exact absurd (le_of_mem_boundaries h hstop hi ht hlt') (Nat.not_le_of_gt hlt)
  case rest =>
    obtain ⟨span, hover, -⟩ := mem_spanEnds_iff.1 hd
    exact (hover.in ⟨h, rfl⟩).2

/-- behind the triplet and the character outside ASCII the end of the URI cuts off an escape -/
theorem boundaries_aligned_cut :
    1 ≤ ['a', '%', '4', '1', 'é', '%', '4'].length ∧
    Operator.simple.boundaries ['a', '%', '4', '1', 'é', '%', '4'] 1 = [1, 4, 5] ∧
    Operator.simple.Producible ['%', '4', '1', 'é'] ∧
    ¬Operator.simple.Producible ['%', '4', '1', 'é', '%', '4'] := by
  have hends : Operator.simple.boundaries ['a', '%', '4', '1', 'é', '%', '4'] 1 = [1, 4, 5] := by
    decide
  have hstart : 1 ≤ ['a', '%', '4', '1', 'é', '%', '4'].length := by decide
  obtain ⟨-, -, hmem, -, -⟩ := boundaries_aligned hstart .simple
  rw [hends] at hmem
  refine ⟨hstart, hends, ((hmem 5).1 (by decide)).2.2, fun hproducible => ?_⟩
  exact absurd ((hmem 7).2 ⟨by decide, by decide, hproducible⟩) (by decide)

end UriTemplate
