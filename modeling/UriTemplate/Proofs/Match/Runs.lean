import Mathlib.Data.List.Nodup
import Mathlib.Logic.Function.Basic
import UriTemplate.Proofs.Match.Split

/-!
# What each variable gets by name

An operator with names passes its variables in declared order, so the segments of a variable stand
together: the span is cut into runs, one for each variable that takes anything.

* `Variable.TakesRun`   what a run looks like, and the value that it gives;
* `Walked`              the walk so far has handed out runs, those of the variables that are left
                        are empty, and nothing else is stored. Each step keeps this
                        (`Walked.takeSegment`);
* `split?_runs`         no segment is lost or handed out twice.
-/

namespace UriTemplate
open Percent

/-- The run of an exploded variable is any list of segments. That of a scalar starts with a segment
under its name, whose value goes on with all segments behind, of which there are none unless it is
the last declared variable. -/
inductive Variable.TakesRun (sep : Char) (xs : List Variable) (x : Variable) :
    List Text → Recovered → Prop
  | items {ss : List Text} {v : Recovered} (hx : x.isExploded = true) (h : x.Recovers sep ss v) :
      TakesRun sep xs x ss v
  | text {s : Text} {more : List Text} {v : Recovered} (hx : x.isExploded = false)
      (hkey : key s = x.name) (hlast : more ≠ [] → xs.getLast? = some x)
      (h : x.Recovers sep (valueText s :: more) v) : TakesRun sep xs x (s :: more) v

/-! ### what is stored for a variable -/

/-- what the walk has stored for a variable with this run -/
inductive Assignment.Holds (sep : Char) (xs : List Variable) (a : Assignment) (x : Variable) :
    List Text → Prop
  | nothing (hs : a.scalars.find? x.name = none) (hl : a.lists.find? x.name = none) :
      Holds sep xs a x []
  | items {ss : List Text} (hx : x.isExploded = true) (hne : ss ≠ [])
      (hs : a.scalars.find? x.name = none) (hl : a.lists.find? x.name = some ss) :
      Holds sep xs a x ss
  | text {s : Text} {more : List Text} (hx : x.isExploded = false) (hkey : key s = x.name)
      (hlast : more ≠ [] → xs.getLast? = some x)
      (hs : a.scalars.find? x.name = some ([sep].intercalate (valueText s :: more)))
      (hl : a.lists.find? x.name = none) : Holds sep xs a x (s :: more)

namespace Assignment.Holds
variable {sep : Char} {xs ys : List Variable} {a a' : Assignment} {x : Variable} {s : Text}
  {ss : List Text}

theorem congr (h : a.Holds sep xs x ss) (hs : a'.scalars.find? x.name = a.scalars.find? x.name)
    (hl : a'.lists.find? x.name = a.lists.find? x.name) : a'.Holds sep xs x ss := by
  cases h with
  | nothing h₁ h₂ => exact .nothing (hs.trans h₁) (hl.trans h₂)
  | items hx hne h₁ h₂ => exact .items hx hne (hs.trans h₁) (hl.trans h₂)
  | text hx hkey hlast h₁ h₂ => exact .text hx hkey hlast (hs.trans h₁) (hl.trans h₂)

theorem itemTaken (h : a.Holds sep xs x ss) (hx : x.isExploded = true) (ys : List Variable)
    (s : Text) : (a.itemTaken x ys s).Holds sep xs x (ss ++ [s]) := by
  have hown : (a.itemTaken x ys s).lists.find? x.name =
      some ((a.lists.find? x.name).getD [] ++ [s]) := Table.find?_insert_self
  have hne : ss ++ [s] ≠ [] := List.append_ne_nil_of_right_ne_nil _ (List.cons_ne_nil _ _)
  cases h with
  | nothing hs hl =>
    rw [hl] at hown
    exact .items hx hne hs hown
  | items _ _ hs hl =>
    rw [hl] at hown
    exact .items hx hne hs hown
  | text hx' =>
    rw [hx] at hx'
    cases hx'

theorem scalarTaken (h : a.Holds sep xs x []) (hx : x.isExploded = false) (hkey : key s = x.name)
    (ys : List Variable) : (a.scalarTaken x ys s).Holds sep xs x [s] := by
  have hown : (a.scalarTaken x ys s).scalars.find? x.name = some (valueText s) :=
    Table.find?_insert_self
  cases h with
  | nothing hs hl =>
    refine .text hx hkey (fun hne => absurd rfl hne) (hown.trans ?_) hl
    rw [List.intercalate_singleton]
  | items hx' =>
    rw [hx] at hx'
    cases hx'

/-- What goes to the last variable is put behind its text with the separator that cut it off. -/
theorem overflown {raw : Text} (h : a.Holds sep xs x ss) (hx : x.isExploded = false)
    (hlast : xs.getLast? = some x) (hraw : a.scalars.find? x.name = some raw) (s : Text) :
    (a.overflown sep x raw s).Holds sep xs x (ss ++ [s]) := by
  have hown : (a.overflown sep x raw s).scalars.find? x.name = some (raw ++ sep :: s) :=
    Table.find?_insert_self
  cases h with
  | nothing hs =>
    rw [hs] at hraw
    cases hraw
  | items hx' =>
    rw [hx] at hx'
    cases hx'
  | text _ hkey _ hs hl =>
    rw [hs] at hraw
    cases hraw
    exact .text hx hkey (fun _ => hlast)
      (hown.trans (congrArg some (intercalate_concat _ _ _ _).symm)) hl

/-- A variable has a value if it has a run. -/
theorem value? {vs : List (Text × Recovered)} (h : a.Holds sep xs x ss)
    (hvs : a.value? x = some vs) :
    ss = [] ∧ vs = [] ∨ ss ≠ [] ∧ ∃ v, vs = [(x.name, v)] ∧ x.TakesRun sep xs ss v := by
  unfold Assignment.value? at hvs
  cases h with
  | nothing hs hl =>
    rw [hs, hl] at hvs
    cases hvs
    exact .inl ⟨rfl, rfl⟩
  | items hx hne hs hl =>
    rw [hs, hl] at hvs
    obtain ⟨v, hv, hvs⟩ := Option.bind_eq_some_iff.1 hvs
    cases hvs
    have hrecover : x.recover? sep ss = some v := by rwa [Variable.recover?, if_pos hx]
    exact .inr ⟨hne, v, rfl, .items hx (Variable.recover?_eq_some_iff.1 hrecover)⟩
  | @text s more hx hkey hlast hs hl =>
    rw [hs] at hvs
    obtain ⟨v, hv, hvs⟩ := Option.bind_eq_some_iff.1 hvs
    cases hvs
    have hrecover : x.recover? sep (valueText s :: more) = some v := by
      rwa [Variable.recover?, if_neg (by simp [hx])]
    exact .inr ⟨List.cons_ne_nil _ _, v, rfl,
      .text hx hkey hlast (Variable.recover?_eq_some_iff.1 hrecover)⟩

end Assignment.Holds

/-! ### the walk -/

/-- where the walk is behind some segments, which it has cut into runs -/
structure Walked (sep : Char) (xs : List Variable) (done : List Text) (a : Assignment)
    (run : Variable → List Text) : Prop where
  cut : xs.flatMap run = done
  holds : ∀ x ∈ xs, a.Holds sep xs x (run x)
  remaining : a.remaining <:+ xs
  /-- of the variables that are left only an exploded one in front has taken anything -/
  fresh : ∀ x ys, x :: ys <:+ a.remaining →
    (∀ y ∈ ys, run y = []) ∧ (x.isExploded = false → run x = [])
  last : ∀ x, a.last = some (x, true) → [x] <:+ xs

theorem suffix_remainingAfter {x y : Variable} {ys zs : List Variable}
    (h : y :: zs <:+ remainingAfter x ys) :
    x.isExploded = true ∧ y = x ∧ zs = ys ∨ y :: zs <:+ ys := by
  unfold remainingAfter at h
  split at h
  · next hx =>
    rcases List.suffix_cons_iff.1 h with heq | h
    · obtain ⟨rfl, rfl⟩ := List.cons.inj heq
      exact .inl ⟨hx, rfl, rfl⟩
    · exact .inr h
  · exact .inr h

theorem flatMap_update {before ys : List Variable} {run : Variable → List Text} {x : Variable}
    {s : Text} (hbefore : x ∉ before) (hbehind : x ∉ ys) (hys : ∀ y ∈ ys, run y = []) :
    (before ++ x :: ys).flatMap (Function.update run x (run x ++ [s])) =
      (before ++ x :: ys).flatMap run ++ [s] := by
  have hother : ∀ zs : List Variable, x ∉ zs →
      zs.flatMap (Function.update run x (run x ++ [s])) = zs.flatMap run := fun zs hzs =>
    List.flatMap_congr fun z hz => Function.update_of_ne (ne_of_mem_of_not_mem hz hzs) _ _
  rw [List.flatMap_append, List.flatMap_cons, List.flatMap_append, List.flatMap_cons,
    Function.update_self, hother _ hbefore, hother _ hbehind, List.flatMap_eq_nil_iff.2 hys,
    List.append_nil, List.append_nil, List.append_assoc]

namespace Walked
variable {sep : Char} {xs ys : List Variable} {done : List Text} {a a' : Assignment}
  {run : Variable → List Text} {x : Variable} {s : Text}

theorem start (sep : Char) (xs : List Variable) :
    Walked sep xs [] (.start xs) fun _ => [] where
  cut := List.flatMap_eq_nil_iff.2 fun _ _ => rfl
  holds := fun _ _ => .nothing rfl rfl
  remaining := List.suffix_refl _
  fresh := fun _ _ _ => ⟨fun _ _ => rfl, fun _ => rfl⟩
  last := fun _ h => by cases h

/-- A segment that goes to the variable behind which no other has taken any makes its run longer. -/
theorem extend (h : Walked sep xs done a run) (hnodup : (xs.map Variable.name).Nodup)
    (hx : x :: ys <:+ xs) (hys : ∀ y ∈ ys, run y = [])
    (hholds : a'.Holds sep xs x (run x ++ [s]))
    (hscalars : ∀ name, name ≠ x.name → a'.scalars.find? name = a.scalars.find? name)
    (hlists : ∀ name, name ≠ x.name → a'.lists.find? name = a.lists.find? name)
    (hremaining : a'.remaining = remainingAfter x ys) (hlast : a'.last = some (x, ys.isEmpty)) :
    Walked sep xs (done ++ [s]) a' (Function.update run x (run x ++ [s])) := by
  have hmem := hx.mem List.mem_cons_self
  have hnames := List.inj_on_of_nodup_map hnodup
  obtain ⟨before, hxs⟩ := hx
  obtain ⟨hbefore, hbehind⟩ : x ∉ before ∧ x ∉ ys := by
    have hdisjoint := hnodup.of_map
    rw [← hxs, List.nodup_middle, List.nodup_cons, List.mem_append, not_or] at hdisjoint
    exact hdisjoint.1
  have hempty : ∀ y ∈ ys, Function.update run x (run x ++ [s]) y = [] := by
    intro y hy
    rw [Function.update_of_ne (ne_of_mem_of_not_mem hy hbehind), hys y hy]
  refine { cut := ?cut, holds := ?holds, remaining := ?remaining, fresh := ?fresh, last := ?last }
  case cut =>
    rw [← hxs, ← h.cut, ← hxs]
    exact flatMap_update hbefore hbehind hys
  case holds =>
    intro y hy
    by_cases hyx : y = x
    · subst hyx
      rw [Function.update_self]
      exact hholds
    · have hname : y.name ≠ x.name := fun heq => hyx (hnames hy hmem heq)
      rw [Function.update_of_ne hyx]
      exact (h.holds y hy).congr (hscalars _ hname) (hlists _ hname)
  case remaining =>
    rw [hremaining]
    exact (remainingAfter_suffix x ys).trans ⟨before, hxs⟩
  case fresh =>
    intro y zs hyzs
    rw [hremaining] at hyzs
    rcases suffix_remainingAfter hyzs with ⟨hexploded, rfl, rfl⟩ | hyzs
    · refine ⟨hempty, fun hscalar => ?_⟩
      rw [hexploded] at hscalar
      cases hscalar
    · have hsubset := hyzs.subset
      exact ⟨fun z hz => hempty z (hsubset (List.mem_cons_of_mem y hz)),
        fun _ => hempty y (hsubset List.mem_cons_self)⟩
  case last =>
    intro y hy
    rw [hlast] at hy
    obtain ⟨rfl, hnil⟩ := Prod.mk.inj (Option.some.inj hy)
    exact ⟨before, by rw [← hxs, List.isEmpty_iff.1 hnil]⟩

/-- Each segment makes the run of one variable longer. -/
theorem takeSegment (h : Walked sep xs done a run) (hnodup : (xs.map Variable.name).Nodup)
    (ha : a.takeSegment sep s = some a') : ∃ run', Walked sep xs (done ++ [s]) a' run' := by
  rcases Assignment.takeSegment_cases ha with ⟨x, ys, htaker, rfl⟩ | ⟨x, raw, hlast, hx, hraw, rfl⟩
  · have hleft := suffix_of_taker? htaker
    have hsuffix := hleft.trans h.remaining
    have hmem : x ∈ xs := hsuffix.mem List.mem_cons_self
    obtain ⟨hys, hscalar⟩ := h.fresh x ys hleft
    cases hx : x.isExploded with
    | true =>
      -- it may have taken segments before, and stays in front
      rw [if_pos rfl]
      refine ⟨_, h.extend hnodup hsuffix hys ((h.holds x hmem).itemTaken hx ys s)
        (fun _ _ => rfl) (fun _ => Table.find?_insert_of_ne) ?_ rfl⟩
      rw [remainingAfter, if_pos hx]
      rfl
    | false =>
      -- scalars are passed once they have taken one, so this is the first
      have hrun := hscalar hx
      have hholds := (hrun ▸ h.holds x hmem).scalarTaken hx (name_of_taker? htaker hx).symm ys
      rw [if_neg Bool.false_ne_true]
      refine ⟨_, h.extend hnodup hsuffix hys ?_
        (fun _ => Table.find?_insert_of_ne) (fun _ _ => rfl) ?_ rfl⟩
      · rwa [hrun, List.nil_append]
      · rw [remainingAfter, if_neg (by simp [hx])]
        rfl
  · -- no variable is left, and `x` is the last declared one
    have hsuffix := h.last x hlast
    have hmem : x ∈ xs := hsuffix.mem List.mem_cons_self
    have hgetLast : xs.getLast? = some x := by
      obtain ⟨before, rfl⟩ := hsuffix
      exact List.getLast?_concat
    refine ⟨_, h.extend hnodup hsuffix (fun _ hy => absurd hy List.not_mem_nil)
      ((h.holds x hmem).overflown hx hgetLast hraw s)
      (fun _ => Table.find?_insert_of_ne) (fun _ _ => rfl) ?_ hlast⟩
    rw [remainingAfter, if_neg (by simp [hx])]
    rfl

/-- the run lemma: whatever the walk has taken, it has cut into runs -/
theorem exists_walked {ss : List Text} (hnodup : (xs.map Variable.name).Nodup)
    (ha : ss.foldlM (fun (a : Assignment) s => a.takeSegment sep s) (.start xs) = some a) :
    ∃ run, Walked sep xs ss a run := by
  refine foldlM_induction (I := fun done a => ∃ run, Walked sep xs done a run)
    (fun done s a a' hdone hstep => ?_) ⟨_, start sep xs⟩ ha
  obtain ⟨run, hrun⟩ := hdone
  exact hrun.takeSegment hnodup hstep

/-- The values of the walk are those of the runs that are not empty. -/
theorem values {vss : List (List (Text × Recovered))} (h : Walked sep xs done a run)
    (hvss : xs.mapM a.value? = some vss) :
    List.Forall₂ (fun x e => e.1 = x.name ∧ x.TakesRun sep xs (run x) e.2)
      (xs.filter fun x => run x ≠ []) vss.flatten := by
  have hboth := (List.forall₂_and_left _ _).2 ⟨h.holds, mapM_eq_some_iff.1 hvss⟩
  refine forall₂_flatten (hboth.imp fun x vs hx => ?_)
  rcases hx.1.value? hx.2 with ⟨hrun, hvs⟩ | ⟨hrun, v, hvs, hv⟩
  · exact .inl ⟨by simpa using hrun, hvs⟩
  · exact .inr ⟨by simpa using hrun, (x.name, v), hvs, rfl, hv⟩

end Walked

/-! ### whole spans -/

/-- Each segment of a span goes to one variable. The segments of one variable stand together, the
variables come in declared order, those with segments are bound, and each to the value that its
segments give. -/
theorem split?_runs {e : Expression} (he : e.operator.row.named = true)
    (hnodup : (e.vars.map Variable.name).Nodup) {span : Text} (hspan : span ≠ []) {params : Params}
    (h : e.split? span = some params) :
    ∃ run : Variable → List Text, e.vars.flatMap run = span.splitOn e.operator.row.sep ∧
      params.keys = (e.vars.filter fun x => run x ≠ []).map Variable.name ∧
      ∀ x ∈ e.vars, run x ≠ [] → ∃ v, params.find? x.name = some v ∧
        x.TakesRun e.operator.row.sep e.vars (run x) v := by
  have hsegments : e.operator.row.segments span = span.splitOn e.operator.row.sep := by
    unfold Operator.Row.segments
    rw [if_neg (by simp [hspan])]
  rw [Expression.split?_of_named he, hsegments] at h
  obtain ⟨vs, hvs, rfl⟩ := Option.map_eq_some_iff.1 h
  obtain ⟨a, ha, hvs⟩ := Option.bind_eq_some_iff.1 hvs
  obtain ⟨vss, hvss, hvs⟩ := Option.bind_eq_some_iff.1 hvs
  cases hvs
  obtain ⟨run, hrun⟩ := Walked.exists_walked hnodup ha
  obtain ⟨hkeys, hvalues⟩ := Table.ofList_of_forall₂ (hrun.values hvss)
    (hnodup.sublist (List.filter_sublist.map _))
  exact ⟨run, hrun.cut, hkeys, fun x hx hne =>
    hvalues x (List.mem_filter.2 ⟨hx, decide_eq_true hne⟩)⟩

/-- an exploded variable between scalars, and at the end a segment that has no variable's name -/
theorem split?_runs_overflow :
    ∃ run : Variable → List Text,
      [⟨['a'], .whole⟩, ⟨['b'], .exploded⟩, ⟨['c'], .truncated 3⟩].flatMap run =
        [['a', '=', '1'], ['x'], ['y', '='], ['c', '=', '%', '4', '1'], ['d']] ∧
      [['a'], ['b'], ['c']] = ([⟨['a'], .whole⟩, ⟨['b'], .exploded⟩,
        ⟨['c'], .truncated 3⟩].filter fun x => run x ≠ []).map Variable.name ∧
      ∀ x ∈ ([⟨['a'], .whole⟩, ⟨['b'], .exploded⟩, ⟨['c'], .truncated 3⟩] : List Variable),
        run x ≠ [] → ∃ v, Table.find? (⟨[(['a'], .text ['1']), (['b'], .items [['x'], ['y', '=']]),
          (['c'], .text ['A', ';', 'd'])]⟩ : Params) x.name = some v ∧ x.TakesRun ';'
            [⟨['a'], .whole⟩, ⟨['b'], .exploded⟩, ⟨['c'], .truncated 3⟩] (run x) v := by
  have hsplit : Expression.split? ⟨.parameter, [⟨['a'], .whole⟩, ⟨['b'], .exploded⟩,
      ⟨['c'], .truncated 3⟩]⟩
      ['a', '=', '1', ';', 'x', ';', 'y', '=', ';', 'c', '=', '%', '4', '1', ';', 'd'] =
      some ⟨[(['a'], .text ['1']), (['b'], .items [['x'], ['y', '=']]),
        (['c'], .text ['A', ';', 'd'])]⟩ := by decide
  obtain ⟨run, hcut, hkeys, hvalues⟩ :=
    split?_runs (by rfl) (by decide) (List.cons_ne_nil _ _) hsplit
  exact ⟨run, hcut.trans (by decide), hkeys, hvalues⟩

end UriTemplate
