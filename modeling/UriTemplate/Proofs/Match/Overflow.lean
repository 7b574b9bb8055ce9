import UriTemplate.Proofs.Expansion.Span
import UriTemplate.Proofs.Match.Split

/-!
# Segments that no variable takes

Under an operator with names a segment that none of the variables left takes goes to the raw text of
the last declared variable, if that one took the segment before. Names may repeat, so it is not plain
that there is such a text, nor that the variable is not an exploded one.

* `exists_taker?`          an exploded variable at the end takes every segment, or leaves it to another
                           one, and is never passed;
* `Assignment.Anchored`    what the walk keeps: the variable that took the last segment has a raw text
                           if it is a scalar, and an exploded one at the end is still left;
* `split?_overflow`        so a segment that no variable takes finds a scalar with a raw text, and with
                           an exploded variable at the end there is none.
-/

namespace UriTemplate
open Percent

section
variable {sep : Char} {xs ys : List Variable} {x : Variable} {k s : Text}

/-! ### takers -/

/-- A key has a taker if the last of the variables is exploded, and that one is still left behind it. -/
theorem exists_taker? (hlast : xs.getLast? = some x) (hx : x.isExploded = true) (k : Text) :
    ∃ y ys, taker? k xs = some (y, ys) ∧ (remainingAfter y ys).getLast? = some x := by
  induction xs with
  | nil => cases hlast
  | cons y xs ih =>
    unfold taker?
    cases xs with
    | nil =>
      obtain rfl : y = x := Option.some.inj hlast
      refine ⟨y, [], ?_, ?_⟩
      · rw [if_pos hx]
        rfl
      · rw [remainingAfter, if_pos hx]
        rfl
    | cons z zs =>
      have hbehind : (z :: zs).getLast? = some x := by rwa [List.getLast?_cons_cons] at hlast
      split
      · next hy =>
        split
        · exact ih hbehind
        · refine ⟨y, z :: zs, rfl, ?_⟩
          rwa [remainingAfter, if_pos hy]
      · next hy =>
        split
        · refine ⟨y, z :: zs, rfl, ?_⟩
          rwa [remainingAfter, if_neg hy]
        · exact ih hbehind

namespace Assignment
variable {a a' : Assignment}

/-! ### the walk -/

/-- What the walk keeps of the variable that took the last segment, and of one at the end. -/
structure Anchored (xs : List Variable) (a : Assignment) : Prop where
  remaining : a.remaining <:+ xs
  /-- an exploded variable at the end is left -/
  waiting : ∀ x, xs.getLast? = some x → x.isExploded = true → a.remaining.getLast? = some x
  /-- a scalar that took the last segment has a raw text -/
  stored : ∀ x isLast, a.last = some (x, isLast) → x.isExploded = false →
    ∃ raw, a.scalars.find? x.name = some raw
  declared : ∀ x, a.last = some (x, true) → xs.getLast? = some x

theorem anchored_start (xs : List Variable) : (start xs).Anchored xs where
  remaining := List.suffix_refl xs
  waiting := fun _ h _ => h
  stored := fun _ _ h => by cases h
  declared := fun _ h => by cases h

/-- The step lemma: a segment goes to a variable that is left, or to the text of the last one. -/
theorem Anchored.takeSegment (h : a.Anchored xs) (ha : a.takeSegment sep s = some a') :
    a'.Anchored xs := by
  refine ⟨(remaining_suffix ha).trans h.remaining, fun z hz hexploded => ?waiting,
    fun y isLast hy hscalar => ?stored, fun y hy => ?declared⟩
  all_goals
    rcases takeSegment_cases ha with ⟨x, ys, htaker, rfl⟩ | ⟨x, raw, hlast, hx, hraw, rfl⟩
  case waiting.inl =>
    obtain ⟨y, zs, htaker', hbehind⟩ := exists_taker? (h.waiting z hz hexploded) hexploded (key s)
    obtain ⟨rfl, rfl⟩ := Prod.mk.inj (Option.some.inj (htaker.symm.trans htaker'))
    rwa [remaining_taken]
  case waiting.inr =>
    -- the last declared variable is `x`, a scalar
    obtain rfl : x = z := Option.some.inj ((h.declared x hlast).symm.trans hz)
    rw [hx] at hexploded
    cases hexploded
  case stored.inl =>
    rw [last_taken] at hy
    obtain ⟨rfl, -⟩ := Prod.mk.inj (Option.some.inj hy)
    rw [if_neg (by simp [hscalar])]
    exact ⟨valueText s, Table.find?_insert_self⟩
  case stored.inr =>
    obtain ⟨rfl, -⟩ := Prod.mk.inj (Option.some.inj (hlast.symm.trans hy))
    exact ⟨raw ++ sep :: s, Table.find?_insert_self⟩
  case declared.inl =>
    rw [last_taken] at hy
    obtain ⟨rfl, hnil⟩ := Prod.mk.inj (Option.some.inj hy)
    obtain ⟨front, hxs⟩ := (suffix_of_taker? htaker).trans h.remaining
    rw [← hxs, List.isEmpty_iff.1 hnil]
    exact List.getLast?_concat
  case declared.inr => exact h.declared y hy

/-! ### segments without a taker -/

/-- A segment without a taker finds no exploded variable at the end. -/
theorem Anchored.not_isExploded (h : a.Anchored xs) (hnone : taker? k a.remaining = none)
    (hx : xs.getLast? = some x) : x.isExploded = false := by
  refine Bool.eq_false_iff.2 fun hexploded => ?_
  obtain ⟨y, ys, htaker, -⟩ := exists_taker? (h.waiting x hx hexploded) hexploded k
  rw [hnone] at htaker
  cases htaker

theorem takeSegment_of_overflow {raw : Text} (hnone : taker? (key s) a.remaining = none)
    (hlast : a.last = some (x, true)) (hx : x.isExploded = false)
    (hraw : a.scalars.find? x.name = some raw) :
    a.takeSegment sep s = some (a.overflown sep x raw s) := by
  unfold takeSegment overflow?
  rw [hnone]
  dsimp only
  rw [hlast]
  dsimp only
  rw [if_neg (by simp [hx]), hraw, overflown, hlast]
  rfl

/-- A step fails only on a segment without a taker behind one that the last declared variable did not
take. -/
theorem Anchored.takeSegment_eq_none_iff (h : a.Anchored xs)
    (hnone : taker? (key s) a.remaining = none) :
    a.takeSegment sep s = none ↔ ∀ x, a.last ≠ some (x, true) := by
  constructor
  · intro hstuck x hlast
    have hx := h.not_isExploded hnone (h.declared x hlast)
    obtain ⟨raw, hraw⟩ := h.stored x true hlast hx
    rw [takeSegment_of_overflow hnone hlast hx hraw] at hstuck
    cases hstuck
  · intro hother
    rw [Option.eq_none_iff_forall_ne_some]
    intro a' ha'
    rcases takeSegment_cases ha' with ⟨x, ys, htaker, -⟩ | ⟨x, raw, hlast, -⟩
    · rw [hnone] at htaker
      cases htaker
    · exact hother x hlast

end Assignment

end

/-! ### walks over spans -/

/-- the walk over segments, if it comes to their end -/
def Expression.walk? (e : Expression) (segments : List Text) : Option Assignment :=
  segments.foldlM (fun a s => a.takeSegment e.operator.row.sep s) (.start e.vars)

section
variable {e : Expression} {a : Assignment} {x : Variable} {span : Text} {ss : List Text}

/-- the values of a span are those of the walk over its segments -/
theorem Expression.split?_eq_walk (he : e.operator.row.named = true) (span : Text) :
    e.split? span = do
      let a ← e.walk? (e.operator.row.segments span)
      let vss ← e.vars.mapM a.value?
      return Table.ofList vss.flatten := by
  rw [split?_of_named he, assignByName, walk?]
  simp only [Option.bind_eq_bind, Option.pure_def, Option.map_bind, Function.comp_def,
    Option.map_some]

/-- The run lemma: the walk is anchored wherever it comes. -/
theorem Expression.anchored_of_walk? (h : e.walk? ss = some a) : a.Anchored e.vars :=
  @foldlM_induction _ _ _ _ (fun _ a => a.Anchored e.vars)
    (fun _ _ _ _ ha hstep => ha.takeSegment hstep) [] _ _ (Assignment.anchored_start e.vars) h

theorem Expression.readable_of_walk? (hss : ∀ s ∈ ss, Decodes s) (h : e.walk? ss = some a) :
    a.Readable := by
  have hsep := Operator.standsAlone_sep e.operator
  have hstep (front : List Text) (s : Text) (a a' : Assignment)
      (ih : (∀ t ∈ front, Decodes t) → a.Readable)
      (ha : a.takeSegment e.operator.row.sep s = some a') (hfront : ∀ t ∈ front ++ [s], Decodes t) :
      a'.Readable := by
    rw [List.forall_mem_append, List.forall_mem_singleton] at hfront
    exact (ih hfront.1).takeSegment hsep hfront.2 ha
  exact @foldlM_induction _ _ _ _ (fun front a => (∀ t ∈ front, Decodes t) → a.Readable) hstep
    [] _ _ (fun _ => Assignment.readable_start e.vars) h hss

theorem Expression.exists_split?_of_walk? (he : e.operator.row.named = true) (hspan : Decodes span)
    (h : e.walk? (e.operator.row.segments span) = some a) :
    ∃ params, e.split? span = some params := by
  have hsegments : ∀ s ∈ e.operator.row.segments span, Decodes s := by
    unfold Operator.Row.segments
    split
    · exact fun s hs => absurd hs List.not_mem_nil
    · exact hspan.splitOn (Operator.standsAlone_sep e.operator)
  obtain ⟨vss, hvss⟩ := exists_mapM fun x (_ : x ∈ e.vars) =>
    (readable_of_walk? hsegments h).value? x
  refine ⟨Table.ofList vss.flatten, ?_⟩
  rw [split?_eq_walk he, h]
  simp only [Option.bind_eq_bind, Option.bind_some, hvss]
  rfl

/-- With an exploded variable at the end every segment has a taker. -/
theorem Expression.exists_walk? (hlast : e.vars.getLast? = some x) (hx : x.isExploded = true)
    (ss : List Text) : ∃ a, e.walk? ss = some a := by
  have hstep {s : Text} {a : Assignment} (ha : a.Anchored e.vars) :
      ∃ a', a.takeSegment e.operator.row.sep s = some a' ∧ a'.Anchored e.vars := by
    obtain ⟨y, ys, htaker, -⟩ := exists_taker? (ha.waiting x hlast hx) hx (key s)
    have hnext := Assignment.takeSegment_of_taker htaker e.operator.row.sep
    exact ⟨_, hnext, ha.takeSegment hnext⟩
  obtain ⟨a, ha, -⟩ := exists_foldlM (I := fun _ a => Assignment.Anchored e.vars a)
    (fun _ _ _ => hstep) (Assignment.anchored_start e.vars)
  exact ⟨a, ha⟩

end

/-- Where the walk over a span comes to a segment that no variable takes, and the variable that took
the segment before is the last declared one, that is a scalar with a raw text, and the segment is put
behind it; the walk stops only if it is another variable, or none. With an exploded variable at the
end it never stops, and nothing keeps the span from being split but an escape that is not UTF-8. -/
theorem split?_overflow {e : Expression} (he : e.operator.row.named = true) (span : Text) :
    (∀ front s behind a, e.operator.row.segments span = front ++ s :: behind →
      e.walk? front = some a → taker? (key s) a.remaining = none →
        (∀ x isLast, a.last = some (x, isLast) → e.vars.getLast? = some x →
          x.isExploded = false ∧ ∃ raw, a.scalars.find? x.name = some raw) ∧
        (∀ x, a.last = some (x, true) → e.vars.getLast? = some x ∧
          ∃ raw, a.scalars.find? x.name = some raw ∧ a.takeSegment e.operator.row.sep s =
            some (a.overflown e.operator.row.sep x raw s)) ∧
        (a.takeSegment e.operator.row.sep s = none ↔ ∀ x, a.last ≠ some (x, true))) ∧
    ∀ x, e.vars.getLast? = some x → x.isExploded = true →
      (∃ a, e.walk? (e.operator.row.segments span) = some a) ∧
      (Decodes span → ∃ params, e.split? span = some params) := by
  constructor
  · intro front s behind a _ ha hnone
    have hanchored := Expression.anchored_of_walk? ha
    have hstored : ∀ x isLast, a.last = some (x, isLast) → e.vars.getLast? = some x →
        x.isExploded = false ∧ ∃ raw, a.scalars.find? x.name = some raw := by
      intro x isLast hlast hx
      have hscalar := hanchored.not_isExploded hnone hx
      exact ⟨hscalar, hanchored.stored x isLast hlast hscalar⟩
    refine ⟨hstored, fun x hlast => ?_, hanchored.takeSegment_eq_none_iff hnone⟩
    have hx := hanchored.declared x hlast
    obtain ⟨hscalar, raw, hraw⟩ := hstored x true hlast hx
    exact ⟨hx, raw, hraw, Assignment.takeSegment_of_overflow hnone hlast hscalar hraw⟩
  · intro x hlast hx
    obtain ⟨a, ha⟩ := Expression.exists_walk? hlast hx (e.operator.row.segments span)
    exact ⟨⟨a, ha⟩, fun hspan => Expression.exists_split?_of_walk? he hspan ha⟩

/-- A name that two scalars share, with an exploded variable between them: the last segment goes to the
text that the second of them took. An exploded variable at the end takes whatever comes. -/
theorem split?_overflow_repeated :
    let e : Expression := ⟨.query, [⟨['b'], .whole⟩, ⟨['l'], .exploded⟩, ⟨['b'], .truncated 3⟩]⟩
    let f : Expression := ⟨.parameter, [⟨['a'], .whole⟩, ⟨['a'], .exploded⟩]⟩
    let a : Assignment := ⟨[], ⟨[(['b'], ['x'])]⟩, ⟨[(['l'], [['q']])]⟩,
      some (⟨['b'], .truncated 3⟩, true)⟩
    e.walk? [['b', '=', '1'], ['q'], ['b', '=', 'x']] = some a ∧
    taker? (key ['y']) a.remaining = none ∧
    (∃ raw, a.scalars.find? ['b'] = some raw ∧ a.takeSegment '&' ['y'] =
      some (a.overflown '&' ⟨['b'], .truncated 3⟩ raw ['y'])) ∧
    ∃ params, f.split? ['x', ';', 'a', '=', '1', ';', '%', '4', '1'] = some params := by
  intro e f a
  have hwalk : e.walk? [['b', '=', '1'], ['q'], ['b', '=', 'x']] = some a := by decide
  have hnone : taker? (key ['y']) a.remaining = none := by decide
  have hsegments : e.operator.row.segments
      ['b', '=', '1', '&', 'q', '&', 'b', '=', 'x', '&', 'y'] =
      [['b', '=', '1'], ['q'], ['b', '=', 'x']] ++ ['y'] :: [] := by decide
  have hoverflow := ((split?_overflow (e := e) rfl _).1 _ _ _ a hsegments hwalk hnone).2.1
  obtain ⟨-, hstored⟩ := hoverflow ⟨['b'], .truncated 3⟩ rfl
  have hdecodes : Decodes ['x', ';', 'a', '=', '1', ';', '%', '4', '1'] := by
    unfold Decodes
    decide
  obtain ⟨-, hsplit⟩ := (split?_overflow (e := f) rfl _).2 ⟨['a'], .exploded⟩ rfl rfl
  exact ⟨hwalk, hnone, hstored, hsplit hdecodes⟩

end UriTemplate
