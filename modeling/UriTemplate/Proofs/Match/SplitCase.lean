import UriTemplate.Proofs.Expansion.Span
import UriTemplate.Proofs.Match.Split
import UriTemplate.Proofs.Percent.Case
import UriTemplate.Proofs.Table

/-!
# Splitting does not see the case of digits

A span and the same span with the digits of its triplets in upper case give the variables the same
values. Segments are cut at characters that no triplet contains, keys are compared with names that
contain no `%`, and values are decoded.

* `assignInOrder_upperDigits`, `assignByName_upperDigits`   the two ways to hand out segments;
* `split?_upperDigits`                                      the values of a span.
-/

namespace UriTemplate
open Percent

/-! ### values of segments -/

theorem Modifier.recover?_upperDigits (m : Modifier) (s : Text) :
    m.recover? (upperDigits s) = m.recover? s := by
  unfold Modifier.recover?
  rw [decode?_upperDigits]

theorem recoverItems?_upperDigits (ss : List Text) :
    recoverItems? (ss.map upperDigits) = recoverItems? ss := by
  have hempty : ss.map upperDigits = [[]] ↔ ss = [[]] := by
    cases ss with
    | nil => simp
    | cons s ss => simp [upperDigits_eq_nil]
  have hdecode : (ss.map upperDigits).mapM decode? = ss.mapM decode? := by
    rw [List.mapM_map]
    congr 1
    exact funext decode?_upperDigits
  unfold recoverItems?
  simp only [hempty, hdecode]

/-! ### by position -/

section
variable {sep : Char}

theorem Variable.recover?_upperDigits (hsep : standsAlone sep = true) (x : Variable)
    (ss : List Text) : x.recover? sep (ss.map upperDigits) = x.recover? sep ss := by
  unfold Variable.recover?
  rw [recoverItems?_upperDigits, ← upperDigits_intercalate hsep, Modifier.recover?_upperDigits]

theorem assignInOrder_upperDigits (hsep : standsAlone sep = true) (xs : List Variable)
    (ss : List Text) : assignInOrder sep xs (ss.map upperDigits) = assignInOrder sep xs ss := by
  induction xs generalizing ss with
  | nil => rw [assignInOrder, assignInOrder]
  | cons x xs ih =>
    cases ss with
    | nil => rfl
    | cons s ss =>
      rw [List.map_cons, assignInOrder_cons_cons, assignInOrder_cons_cons, ← List.map_cons,
        List.length_map, ← List.map_take, ← List.map_drop, ih,
        Variable.recover?_upperDigits hsep]

end

/-! ### by name -/

theorem exists_equals_or (s : Text) : '=' ∉ s ∨ ∃ a b, s = a ++ '=' :: b ∧ '=' ∉ a := by
  by_cases h : '=' ∈ s
  · obtain ⟨a, b, hs, ha⟩ := List.eq_append_cons_of_mem h
    exact .inr ⟨a, b, hs, ha⟩
  · exact .inl h

theorem key_upperDigits (s : Text) : key (upperDigits s) = upperDigits (key s) := by
  unfold key
  rcases exists_equals_or s with h | ⟨a, b, rfl, ha⟩
  · have hu := (mem_upperDigits (t := s) (c := '=') (by decide)).not.2 h
    rw [takeWhile_ne_of_not_mem h, takeWhile_ne_of_not_mem hu]
  · have hu := (mem_upperDigits (t := a) (c := '=') (by decide)).not.2 ha
    rw [upperDigits_append_cons (by decide), takeWhile_ne_append hu, takeWhile_ne_append ha]

theorem valueText_upperDigits (s : Text) :
    valueText (upperDigits s) = upperDigits (valueText s) := by
  unfold valueText
  rcases exists_equals_or s with h | ⟨a, b, rfl, ha⟩
  · have hu := (mem_upperDigits (t := s) (c := '=') (by decide)).not.2 h
    rw [dropWhile_ne_of_not_mem h, dropWhile_ne_of_not_mem hu]
    rfl
  · have hu := (mem_upperDigits (t := a) (c := '=') (by decide)).not.2 ha
    rw [upperDigits_append_cons (by decide), dropWhile_ne_append hu, dropWhile_ne_append ha]
    rfl

/-- no name of the variables contains a `%` -/
def PercentFree (xs : List Variable) : Prop := ∀ x ∈ xs, '%' ∉ x.name

theorem taker?_upperDigits {xs : List Variable} (h : PercentFree xs) (k : Text) :
    taker? (upperDigits k) xs = taker? k xs := by
  induction xs with
  | nil => rfl
  | cons x xs ih =>
    obtain ⟨hx, hxs⟩ := List.forall_mem_cons.1 h
    have hname {y : Variable} (hy : '%' ∉ y.name) : y.name = upperDigits k ↔ y.name = k := by
      rw [eq_comm, upperDigits_eq_iff hy, eq_comm]
    have hany : (xs.any fun y => !y.isExploded && y.name = upperDigits k) =
        xs.any fun y => !y.isExploded && y.name = k := by
      rw [Bool.eq_iff_iff, List.any_eq_true, List.any_eq_true]
      refine exists_congr fun y => and_congr_right fun hy => ?_
      simp only [hname (hxs y hy)]
    unfold taker?
    simp only [hany, hname hx, ih hxs]

namespace Assignment

section
variable {sep : Char} {a a' : Assignment}

/-- the assignment with the digits of its raw texts in upper case -/
def upperDigits (a : Assignment) : Assignment :=
  { a with
    scalars := a.scalars.mapValues Percent.upperDigits
    lists := a.lists.mapValues (List.map Percent.upperDigits) }

theorem overflow?_upperDigits (hsep : standsAlone sep = true) (a : Assignment) (s : Text) :
    a.upperDigits.overflow? sep (Percent.upperDigits s) =
      (a.overflow? sep s).map Assignment.upperDigits := by
  obtain ⟨remaining, scalars, lists, last⟩ := a
  match last with
  | none => rfl
  | some (x, false) => rfl
  | some (x, true) =>
    unfold overflow? Assignment.upperDigits
    simp only
    split
    · rfl
    · rw [Table.find?_mapValues]
      cases scalars.find? x.name with
      | none => rfl
      | some raw =>
        have hraw := upperDigits_append_cons hsep raw s
        simp only [Option.map_some, Option.bind_eq_bind, Option.bind_some, Option.pure_def,
          ← hraw, Table.insert_mapValues]

theorem takeSegment_upperDigits (hsep : standsAlone sep = true) (h : PercentFree a.remaining)
    (s : Text) : a.upperDigits.takeSegment sep (Percent.upperDigits s) =
      (a.takeSegment sep s).map Assignment.upperDigits := by
  have htaker : taker? (key (Percent.upperDigits s)) a.upperDigits.remaining =
      taker? (key s) a.remaining := by
    rw [key_upperDigits]
    exact taker?_upperDigits h (key s)
  have hoverflow := overflow?_upperDigits hsep a s
  unfold takeSegment
  rw [htaker]
  cases taker? (key s) a.remaining with
  | none => exact hoverflow
  | some p =>
    obtain ⟨x, xs⟩ := p
    simp only
    split
    · have hitems : ((a.lists.mapValues (List.map Percent.upperDigits)).find? x.name).getD [] ++
          [Percent.upperDigits s] =
          ((a.lists.find? x.name).getD [] ++ [s]).map Percent.upperDigits := by
        rw [Table.find?_mapValues, List.map_append]
        cases a.lists.find? x.name <;> rfl
      simp only [Assignment.upperDigits, hitems, Table.insert_mapValues, Option.map_some]
    · simp only [Assignment.upperDigits, valueText_upperDigits, Table.insert_mapValues,
        Option.map_some]

theorem percentFree_of_takeSegment {s : Text} (h : PercentFree a.remaining)
    (ha : a.takeSegment sep s = some a') : PercentFree a'.remaining :=
  fun x hx => h x ((remaining_suffix ha).subset hx)

theorem foldlM_takeSegment_upperDigits (hsep : standsAlone sep = true)
    (h : PercentFree a.remaining) (ss : List Text) :
    (ss.map Percent.upperDigits).foldlM (fun (a : Assignment) s => a.takeSegment sep s)
        a.upperDigits =
      (ss.foldlM (fun (a : Assignment) s => a.takeSegment sep s) a).map Assignment.upperDigits := by
  induction ss generalizing a with
  | nil => rfl
  | cons s ss ih =>
    rw [List.map_cons, List.foldlM_cons, List.foldlM_cons, takeSegment_upperDigits hsep h]
    cases ha : a.takeSegment sep s with
    | none => rfl
    | some a' => exact ih (percentFree_of_takeSegment h ha)

theorem value?_upperDigits (a : Assignment) (x : Variable) :
    a.upperDigits.value? x = a.value? x := by
  unfold value? Assignment.upperDigits
  simp only [Table.find?_mapValues]
  cases a.scalars.find? x.name with
  | some raw => simp only [Option.map_some, Modifier.recover?_upperDigits]
  | none =>
    cases a.lists.find? x.name with
    | some segments => simp only [Option.map_some, Option.map_none, recoverItems?_upperDigits]
    | none => rfl

end

end Assignment

theorem assignByName_upperDigits {sep : Char} (hsep : standsAlone sep = true) {xs : List Variable}
    (h : PercentFree xs) (ss : List Text) :
    assignByName sep xs (ss.map upperDigits) = assignByName sep xs ss := by
  have hfold := Assignment.foldlM_takeSegment_upperDigits (a := .start xs) hsep h ss
  have hstart : (Assignment.start xs).upperDigits = .start xs := rfl
  rw [hstart] at hfold
  unfold assignByName
  rw [hfold]
  cases ss.foldlM (fun a s => a.takeSegment sep s) (Assignment.start xs) with
  | none => rfl
  | some a =>
    simp only [Option.map_some, Option.bind_eq_bind, Option.bind_some]
    rw [funext a.value?_upperDigits]

/-! ### the values of a span -/

theorem split?_upperDigits {e : Expression} (h : PercentFree e.vars) (span : Text) :
    e.split? (upperDigits span) = e.split? span := by
  have hsep := e.operator.standsAlone_sep
  have hempty : (upperDigits span).isEmpty = span.isEmpty := by
    rw [Bool.eq_iff_iff, List.isEmpty_iff, List.isEmpty_iff]
    exact upperDigits_eq_nil
  have hsegments : e.operator.row.segments (upperDigits span) =
      (e.operator.row.segments span).map upperDigits := by
    unfold Operator.Row.segments
    rw [hempty]
    split
    · rfl
    · exact splitOn_upperDigits hsep span
  unfold Expression.split?
  simp only [hsegments]
  split
  · rw [assignByName_upperDigits hsep h]
  · rw [assignInOrder_upperDigits hsep]

end UriTemplate
