import Mathlib.Data.List.SplitLengths
import UriTemplate.Proofs.Match.Split

/-!
# What each variable gets by position

An operator without names hands out segments in order. How many a variable gets is computed along the
way, from what is left to hand out and how many variables are left; here the counts are put in closed
form.

* `shareSizes`           one segment each, as far as they reach, and a surplus to the first exploded
                         variable, or to the last one;
* `shares`               the segments cut into pieces of these sizes;
* `assignInOrder_eq`     the walk over the variables hands out these pieces;
* `split?_by_position`   which variables are bound, to what, and when the split fails.
-/

namespace UriTemplate
open Percent

/-! ### the sizes -/

/-- the place of the variable that a surplus goes to: the first exploded one, else the last -/
def surplusPlace (xs : List Variable) : Nat :=
  min (xs.findIdx Variable.isExploded) (xs.length - 1)

/-- how many of `m` segments the variables get that get any -/
def shareSizes (xs : List Variable) (m : Nat) : List Nat :=
  (List.range (min xs.length m)).map fun i =>
    if i = surplusPlace xs then 1 + (m - xs.length) else 1

section
variable {x : Variable} {xs : List Variable} {m : Nat}

theorem shareSize_le (x : Variable) (xs : List Variable) (h : 0 < m) : shareSize x xs m ≤ m := by
  unfold shareSize
  split
  · omega
  · split <;> omega

theorem surplusPlace_cons : surplusPlace (x :: xs) =
    if x.isExploded || xs.isEmpty then 0 else surplusPlace xs + 1 := by
  unfold surplusPlace
  rw [List.findIdx_cons, List.length_cons]
  cases hx : x.isExploded with
  | true => simp
  | false =>
    cases xs with
    | nil => simp
    | cons y ys =>
      simp only [List.isEmpty_cons, Bool.or_false, Bool.false_eq_true, if_false, cond_false,
        List.length_cons]
      omega

/-- what is left behind the first variable is shared as if it were all -/
theorem shareSizes_cons : shareSizes (x :: xs) (m + 1) =
    shareSize x xs (m + 1) :: shareSizes xs (m + 1 - shareSize x xs (m + 1)) := by
  unfold shareSizes
  have hmin : min (x :: xs).length (m + 1) = min xs.length m + 1 := by
    rw [List.length_cons]
    omega
  rw [hmin, List.range_succ_eq_map, List.map_cons, List.map_map, surplusPlace_cons,
    List.length_cons]
  by_cases hx : (x.isExploded || xs.isEmpty) = true
  · -- the surplus goes to the first variable, and what is left reaches at most once
    have hsize : shareSize x xs (m + 1) = 1 + (m - xs.length) := by
      unfold shareSize
      split
      · omega
      · next hexp =>
        have hnil : xs.isEmpty = true := by simpa [hexp] using hx
        rw [if_pos hnil, List.isEmpty_iff.1 hnil, List.length_nil]
        omega
    have hrest : min xs.length (m + 1 - (1 + (m - xs.length))) = min xs.length m := by omega
    rw [if_pos hx, if_pos rfl, hsize, hrest]
    congr 1
    · omega
    · refine List.map_congr_left fun i hi => ?_
      have hsurplus : m + 1 - (1 + (m - xs.length)) - xs.length = 0 := by omega
      rw [hsurplus]
      simp
  · have hsize : shareSize x xs (m + 1) = 1 := by
      unfold shareSize
      simp only [Bool.or_eq_true, not_or] at hx
      rw [if_neg hx.1, if_neg hx.2]
    rw [if_neg hx, hsize]
    congr 1
    refine List.map_congr_left fun i _ => ?_
    have hsurplus : m + 1 - (xs.length + 1) = m - xs.length := by omega
    simp [hsurplus]

end

/-! ### the shares -/

/-- the segments of the variables that get any, in order -/
def shares (xs : List Variable) (ss : List Text) : List (List Text) :=
  (shareSizes xs ss.length).splitLengths ss

section
variable {sep : Char} {x : Variable} {xs : List Variable} {s : Text} {ss : List Text}

theorem shares_cons : shares (x :: xs) (s :: ss) =
    (s :: ss).take (shareSize x xs (s :: ss).length) ::
      shares xs ((s :: ss).drop (shareSize x xs (s :: ss).length)) := by
  unfold shares
  rw [List.length_drop, List.length_cons, shareSizes_cons, List.splitLengths_cons]

theorem shares_no_segments (xs : List Variable) : shares xs [] = [] := by
  unfold shares shareSizes
  rw [List.length_nil, Nat.min_zero]
  rfl

theorem shares_no_variables (ss : List Text) : shares [] ss = [] := by
  unfold shares shareSizes
  rw [List.length_nil, Nat.zero_min]
  rfl

/-- nothing is lost or handed out twice -/
theorem flatten_shares (ss : List Text) (h : xs ≠ []) : (shares xs ss).flatten = ss := by
  induction xs generalizing ss with
  | nil => exact absurd rfl h
  | cons x xs ih =>
    cases ss with
    | nil => rw [shares_no_segments, List.flatten_nil]
    | cons s ss =>
      rw [shares_cons, List.flatten_cons]
      cases xs with
      | nil =>
        have hsize : shareSize x [] (s :: ss).length = (s :: ss).length := by
          unfold shareSize
          rw [List.length_cons, List.length_nil]
          split
          · omega
          · rfl
        rw [hsize, shares_no_variables, List.take_length, List.flatten_nil, List.append_nil]
      | cons y ys => rw [ih _ (List.cons_ne_nil _ _), List.take_append_drop]

theorem map_length_shares (xs : List Variable) (ss : List Text) :
    (shares xs ss).map List.length = shareSizes xs ss.length := by
  induction xs generalizing ss with
  | nil => rw [shares_no_variables]; unfold shareSizes; rw [List.length_nil, Nat.zero_min]; rfl
  | cons x xs ih =>
    cases ss with
    | nil => rw [shares_no_segments]; unfold shareSizes; rw [List.length_nil, Nat.min_zero]; rfl
    | cons s ss =>
      have hle := shareSize_le x xs (List.length_pos_iff.2 (List.cons_ne_nil s ss))
      rw [shares_cons, List.map_cons, ih, List.length_take, Nat.min_eq_left hle, List.length_drop,
        List.length_cons, shareSizes_cons]

/-- the variables that get segments -/
theorem map_fst_zip_shares (xs : List Variable) (ss : List Text) :
    (xs.zip (shares xs ss)).map Prod.fst = xs.take ss.length := by
  have hlength : (shares xs ss).length = min xs.length ss.length := by
    have hsizes := congrArg List.length (map_length_shares xs ss)
    rwa [List.length_map, shareSizes, List.length_map, List.length_range] at hsizes
  rw [List.zip_eq_zip_take_min, List.map_fst_zip (by simp), hlength,
    List.take_eq_take_min (i := ss.length)]
  congr 1
  omega

theorem length_flatMap_of_scalars {f : Variable → List Text}
    (hscalar : ∀ x ∈ xs, x.isExploded = false → (f x).length = 1)
    (hnone : ∀ x ∈ xs, x.isExploded = false) : (xs.flatMap f).length = xs.length := by
  have hones : xs.map (fun x => (f x).length) = xs.map fun _ => 1 :=
    List.map_congr_left fun x hx => hscalar x hx (hnone x hx)
  rw [List.length_flatMap, hones, List.map_const', List.sum_replicate_nat, Nat.mul_one]

/-- Where at most one variable is exploded and every scalar one brings a single segment, each gets the
segments that it brings. -/
theorem shares_flatMap {f : Variable → List Text}
    (hone : (xs.filter Variable.isExploded).length ≤ 1) (hne : ∀ x ∈ xs, f x ≠ [])
    (hscalar : ∀ x ∈ xs, x.isExploded = false → (f x).length = 1) :
    shares xs (xs.flatMap f) = xs.map f := by
  induction xs with
  | nil => exact shares_no_variables _
  | cons x xs ih =>
    obtain ⟨hx, hne⟩ := List.forall_mem_cons.1 hne
    obtain ⟨hx1, hscalar⟩ := List.forall_mem_cons.1 hscalar
    have hpos := List.length_pos_iff.2 hx
    have hsize : shareSize x xs (f x ++ xs.flatMap f).length = (f x).length := by
      rw [List.length_append]
      unfold shareSize
      split
      · -- the others are scalar, and what they bring is left to them
        next hexp =>
        rw [List.filter_cons_of_pos hexp, List.length_cons] at hone
        have hnone : xs.filter Variable.isExploded = [] :=
          List.length_eq_zero_iff.1 (by omega)
        have hothers := length_flatMap_of_scalars hscalar fun y hy =>
          Bool.eq_false_of_not_eq_true (List.filter_eq_nil_iff.1 hnone y hy)
        omega
      · next hexp =>
        split
        · next hxs =>
          rw [List.isEmpty_iff.1 hxs]
          rfl
        · exact (hx1 (Bool.eq_false_of_not_eq_true hexp)).symm
    have hone' : (xs.filter Variable.isExploded).length ≤ 1 :=
      ((List.sublist_cons_self x xs).filter _).length_le.trans hone
    rw [List.flatMap_cons, List.map_cons]
    cases hfx : f x with
    | nil => exact absurd hfx hx
    | cons s ss =>
      rw [hfx] at hsize
      rw [List.cons_append, shares_cons, ← List.cons_append, hsize,
        List.take_left, List.drop_left, ih hone' hne hscalar]

/-- the walk hands out the shares -/
theorem assignInOrder_eq (sep : Char) (xs : List Variable) (ss : List Text) :
    assignInOrder sep xs ss =
      (xs.zip (shares xs ss)).mapM fun p => do return (p.1.name, ← p.1.recover? sep p.2) := by
  induction xs generalizing ss with
  | nil =>
    rw [assignInOrder_nil]
    rfl
  | cons x xs ih =>
    cases ss with
    | nil =>
      rw [assignInOrder_no_segments, shares_no_segments]
      rfl
    | cons s ss =>
      rw [assignInOrder_cons_cons, ih, shares_cons, List.zip_cons_cons, List.mapM_cons]
      simp only [Option.bind_eq_bind, Option.pure_def, Option.bind_assoc, Option.bind_some]

theorem assignInOrder_eq_some_iff {vs : List (Text × Recovered)} :
    assignInOrder sep xs ss = some vs ↔
      List.Forall₂ (fun p v => v.1 = p.1.name ∧ p.1.Recovers sep p.2 v.2)
        (xs.zip (shares xs ss)) vs := by
  have hentry (p : Variable × List Text) (v : Text × Recovered) :
      (do return (p.1.name, ← p.1.recover? sep p.2) : Option (Text × Recovered)) = some v ↔
        v.1 = p.1.name ∧ p.1.Recovers sep p.2 v.2 := by
    simp only [Option.bind_eq_bind, Option.pure_def, Option.bind_eq_some_iff, Option.some.injEq,
      Variable.recover?_eq_some_iff, Prod.ext_iff]
    constructor
    · rintro ⟨w, hw, hname, rfl⟩
      exact ⟨hname.symm, hw⟩
    · rintro ⟨hname, hv⟩
      exact ⟨v.2, hv, hname.symm, rfl⟩
  rw [assignInOrder_eq, mapM_eq_some_iff]
  exact ⟨fun h => h.imp fun p v => (hentry p v).1, fun h => h.imp fun p v => (hentry p v).2⟩

theorem assignInOrder_eq_none_iff : assignInOrder sep xs ss = none ↔
    ∃ p ∈ xs.zip (shares xs ss),
      p.1.isExploded = false ∧ decode? ([sep].intercalate p.2) = none ∨
        p.1.isExploded = true ∧ ∃ s ∈ p.2, decode? s = none := by
  rw [assignInOrder_eq, mapM_eq_none_iff]
  simp only [Option.bind_eq_bind, Option.pure_def, Option.bind_eq_none_iff, reduceCtorEq,
    imp_false, ← Option.eq_none_iff_forall_ne_some, Variable.recover?_eq_none_iff]

end

/-! ### the split -/

/-- An operator without names binds as many variables, from the first, as there are segments. They
share the segments in order: each gets one, and a surplus goes to the first exploded variable, or else
to the last. The split fails exactly if the text of a scalar variable that is bound, or a segment of
an exploded one, is not UTF-8. -/
theorem split?_by_position {e : Expression} (he : e.operator.row.named = false)
    (hne : e.vars ≠ []) (hnodup : (e.vars.map Variable.name).Nodup) (span : Text) :
    ∃ shares : List (List Text), shares.flatten = span.splitOn e.operator.row.sep ∧
      shares.map List.length =
        shareSizes e.vars (span.splitOn e.operator.row.sep).length ∧
      (e.split? span = none ↔ ∃ p ∈ e.vars.zip shares,
        p.1.isExploded = false ∧ decode? ([e.operator.row.sep].intercalate p.2) = none ∨
          p.1.isExploded = true ∧ ∃ s ∈ p.2, decode? s = none) ∧
      ∀ params, e.split? span = some params →
        params.keys = (e.vars.take (span.splitOn e.operator.row.sep).length).map Variable.name ∧
          ∀ p ∈ e.vars.zip shares, ∃ v, params.find? p.1.name = some v ∧
            p.1.Recovers e.operator.row.sep p.2 v := by
  rw [Expression.split?_of_unnamed he]
  refine ⟨shares e.vars _, flatten_shares _ hne, map_length_shares _ _, ?_, fun params h => ?_⟩
  · rw [Option.map_eq_none_iff, assignInOrder_eq_none_iff]
  · obtain ⟨vs, hvs, rfl⟩ := Option.map_eq_some_iff.1 h
    have hbound : (e.vars.zip (shares e.vars (span.splitOn e.operator.row.sep))).map
        (fun p => p.1.name) =
          (e.vars.take (span.splitOn e.operator.row.sep).length).map Variable.name := by
      rw [← map_fst_zip_shares, List.map_map]
      rfl
    rw [← hbound]
    refine Table.ofList_of_forall₂ (assignInOrder_eq_some_iff.1 hvs) ?_
    rw [hbound]
    exact hnodup.sublist ((List.take_sublist _ _).map _)

/-- more segments than variables, two of them exploded, and a segment without text -/
theorem split?_by_position_surplus :
    ∃ shares : List (List Text), shares.flatten = [['1'], ['2'], ['3'], ['4'], [], ['x', 'y']] ∧
      shares.map List.length = [1, 3, 1, 1] ∧
      ∀ p ∈ ([⟨['a'], .whole⟩, ⟨['b'], .exploded⟩, ⟨['c'], .exploded⟩,
          ⟨['d'], .truncated 1⟩] : List Variable).zip shares,
        ∃ v, Table.find? (⟨[(['a'], .text ['1']), (['b'], .items [['2'], ['3'], ['4']]),
            (['c'], .items []), (['d'], .text ['x'])]⟩ : Params) p.1.name = some v ∧
          p.1.Recovers '/' p.2 v := by
  obtain ⟨shares, hflatten, hlengths, -, hvalues⟩ := split?_by_position
    (e := ⟨.path, [⟨['a'], .whole⟩, ⟨['b'], .exploded⟩, ⟨['c'], .exploded⟩, ⟨['d'], .truncated 1⟩]⟩)
    rfl (by decide) (by decide) ['1', '/', '2', '/', '3', '/', '4', '/', '/', 'x', 'y']
  refine ⟨shares, hflatten.trans ?_, hlengths.trans ?_, (hvalues _ ?_).2⟩
  · decide
  · decide
  · decide

end UriTemplate
