import UriTemplate.Proofs.Match.Reading

/-!
# The search without look-ahead and memory

`search` leaves out choices that the part behind the expression rules out, and it remembers the
expressions and positions from which it failed. `exhaustive` does neither: it tries every choice,
in the same order, as often as it comes upon it.

* `AllFail`                  what may be remembered: each pair names an expression of the parts and
                             a position from which the exhaustive search of that expression and the
                             parts behind it fails;
* `search_eq_exhaustive`     from such a memory the search answers as the exhaustive one does, and
                             leaves such a memory behind.
-/

namespace UriTemplate
open Cursor

/-! ### trying every choice -/

/-- Reads parts at a cursor, up to the end of the URI: each choice of an expression is tried with all
that may follow, and the first that works is taken. -/
def exhaustive : List Part → (afterExpression : Bool) → Cursor → Option Params
  | [], _, c => if c.atEnd then some .empty else none
  | .literal t :: ps, _, c => (c.literal? t).bind fun d => exhaustive ps false d
  | .expression e :: ps, after, c =>
    (e.choices (e.isRequired ps after) c).findSome? fun ch => do
      let rest ← exhaustive ps true ch.stop
      return (← e.valuesOf? ch).orElse rest

/-- whether the part behind these ones follows an expression -/
def endsInExpression (ps : List Part) : Bool := (ps.getLast?.bind Part.expression?).isSome

/-- The pair names an expression, by the number of parts behind it, and a position from which the
exhaustive search fails. A position past the end of the URI is never reached. -/
def FailsAt (ps : List Part) (uri : Text) (k : Nat × Nat) : Prop :=
  ∃ front e behind, ps = front ++ .expression e :: behind ∧ k.1 = behind.length ∧
    ∀ c : Cursor, c.In uri → c.pos = k.2 →
      exhaustive (.expression e :: behind) (endsInExpression front) c = none

def AllFail (ps : List Part) (uri : Text) (known : Failures) : Prop :=
  ∀ k, known.contains k = true → FailsAt ps uri k

theorem allFail_empty (ps : List Part) (uri : Text) : AllFail ps uri ∅ := by
  intro k hk
  rw [Failures.contains_empty] at hk
  cases hk

section
variable {uri : Text} {front behind : List Part} {e : Expression} {c : Cursor} {known : Failures}

theorem endsInExpression_concat (front : List Part) (p : Part) :
    endsInExpression (front ++ [p]) = p.expression?.isSome := by
  unfold endsInExpression
  rw [List.getLast?_concat]
  rfl

/-- A remembered pair of an expression is one of this very expression. -/
theorem AllFail.exhaustive_eq_none (h : AllFail (front ++ .expression e :: behind) uri known)
    (hc : c.In uri) (hk : known.contains (behind.length, c.pos) = true) :
    exhaustive (.expression e :: behind) (endsInExpression front) c = none := by
  obtain ⟨front', e', behind', hps, hlen, hfail⟩ := h _ hk
  have hlen' : (Part.expression e :: behind).length = (Part.expression e' :: behind').length :=
    congrArg Nat.succ hlen
  obtain ⟨rfl, hrest⟩ := List.append_inj' hps hlen'
  cases hrest
  exact hfail c hc rfl

theorem AllFail.insert (h : AllFail (front ++ .expression e :: behind) uri known) (hc : c.In uri)
    (hfail : exhaustive (.expression e :: behind) (endsInExpression front) c = none) :
    AllFail (front ++ .expression e :: behind) uri (known.insert (behind.length, c.pos)) := by
  intro k hk
  rw [Failures.contains_insert, Bool.or_eq_true, decide_eq_true_eq] at hk
  rcases hk with rfl | hk
  · refine ⟨front, e, behind, rfl, rfl, fun d hd hpos => ?_⟩
    obtain rfl := eq_of_pos_eq hd hc hpos
    exact hfail
  · exact h k hk

/-! ### one expression -/

/-- what the look-ahead rules out fails anyway -/
theorem exhaustive_of_not_mayFollow (after : Bool) (h : mayFollow c behind = false) :
    exhaustive behind after c = none := by
  cases behind with
  | nil =>
    have hend : c.atEnd = false := h
    rw [exhaustive, hend]
    rfl
  | cons p ps =>
    cases p with
    | literal t =>
      have hnone : c.literal? t = none := Option.not_isSome_iff_eq_none.1 (Bool.eq_false_iff.1 h)
      rw [exhaustive, hnone]
      rfl
    | expression e => cases h

/-- Choices are tried in turn, where `next` answers as the exhaustive search does as long as the
memory keeps the invariant `I`, and keeps it. -/
theorem firstChoice_eq_findSome? (e : Expression) {I : Failures → Prop}
    (next : Cursor → Failures → Option Params × Failures) (chs : List Choice)
    (hnext : ∀ ch ∈ chs, ∀ known, I known →
      (next ch.stop known).1 = exhaustive behind true ch.stop ∧ I (next ch.stop known).2)
    (hknown : I known) :
    (firstChoice e behind next chs known).1 = (chs.findSome? fun ch => do
      let rest ← exhaustive behind true ch.stop
      return (← e.valuesOf? ch).orElse rest) ∧
    I (firstChoice e behind next chs known).2 := by
  induction chs generalizing known with
  | nil => exact ⟨rfl, hknown⟩
  | cons ch chs ih =>
    obtain ⟨hch, hchs⟩ := List.forall_mem_cons.1 hnext
    obtain ⟨hanswer, hkept⟩ := hch known hknown
    rw [List.findSome?_cons]
    unfold firstChoice
    split
    · -- the part behind the expression cannot begin here
      next hlook =>
      have hnone : exhaustive behind true ch.stop = none :=
        exhaustive_of_not_mayFollow true (by simpa using (Bool.and_eq_true_iff.1 hlook).2)
      rw [hnone]
      exact ih hchs hknown
    · split
      · next known' heq =>
        rw [heq] at hanswer hkept
        rw [← hanswer]
        exact ih hchs hkept
      · next rest known' heq =>
        rw [heq] at hanswer hkept
        rw [← hanswer]
        cases hvalues : e.valuesOf? ch with
        | none => exact ih hchs hkept
        | some values => exact ⟨rfl, hkept⟩

end

/-! ### all parts -/

/-- The search of the parts behind `front`: the memory speaks of all parts. -/
theorem search_of_allFail {uri : Text} (front ps : List Part) {c : Cursor} {known : Failures}
    (hc : c.In uri) (hknown : AllFail (front ++ ps) uri known) :
    (search ps (endsInExpression front) c known).1 = exhaustive ps (endsInExpression front) c ∧
      AllFail (front ++ ps) uri (search ps (endsInExpression front) c known).2 := by
  induction ps generalizing front c known with
  | nil =>
    refine ⟨?_, hknown⟩
    rw [search, exhaustive]
  | cons p ps ih =>
    -- what is left behind the part is searched with the part counted among those in front
    have hrest {d : Cursor} {known : Failures} (hd : d.In uri)
        (hknown : AllFail (front ++ p :: ps) uri known) :
        (search ps p.expression?.isSome d known).1 = exhaustive ps p.expression?.isSome d ∧
          AllFail (front ++ p :: ps) uri (search ps p.expression?.isSome d known).2 := by
      rw [List.append_cons] at hknown ⊢
      rw [← endsInExpression_concat front p]
      exact ih (front ++ [p]) hd hknown
    cases p with
    | literal t =>
      rw [search, exhaustive]
      cases hd : c.literal? t with
      | none => exact ⟨rfl, hknown⟩
      | some d =>
        obtain ⟨u, hover, -⟩ := literal?_eq_some hd
        exact hrest (hover.in hc) hknown
    | expression e =>
      rw [search]
      split
      · next hk => exact ⟨(hknown.exhaustive_eq_none hc hk).symm, hknown⟩
      · have hchoices := firstChoice_eq_findSome? e (search ps true)
          (e.choices (e.isRequired ps (endsInExpression front)) c)
          (fun ch hch known hknown => hrest (in_of_mem_choices hc hch) hknown) hknown
        split
        · next params known' heq =>
          rw [heq] at hchoices
          exact ⟨hchoices.1, hchoices.2⟩
        · next known' heq =>
          rw [heq] at hchoices
          exact ⟨hchoices.1, hchoices.2.insert hc hchoices.1.symm⟩

/-- Look-ahead and memory change no answer: matching finds what the exhaustive search finds, and so
does the search of any of the parts from any place, with any memory of pairs that fail. Such a memory
it leaves behind. -/
theorem search_eq_exhaustive :
    (∀ (t : Template) (uri : Text), t.recover? uri =
      (exhaustive t.parts false (.start uri)).map fun params => ⟨t.source, params⟩) ∧
    ∀ (front ps : List Part) (uri : Text) (c : Cursor) (known : Failures), c.In uri →
      AllFail (front ++ ps) uri known →
        (search ps (endsInExpression front) c known).1 =
            exhaustive ps (endsInExpression front) c ∧
          AllFail (front ++ ps) uri (search ps (endsInExpression front) c known).2 := by
  refine ⟨fun t uri => ?_, fun front ps uri c known => search_of_allFail front ps⟩
  have hsearch := search_of_allFail [] t.parts (start_in uri) (allFail_empty _ uri)
  exact congrArg (Option.map _) hsearch.1

/-- With `x` behind two adjacent expressions: the second is known to fail at the end of the URI. -/
theorem search_eq_exhaustive_remembered :
    AllFail [.expression ⟨.simple, [⟨['a'], .whole⟩]⟩, .expression ⟨.simple, [⟨['b'], .whole⟩]⟩,
        .literal ['x']] ['1', 'x', '2', 'x'] ((∅ : Failures).insert (1, 4)) ∧
    (search [.expression ⟨.simple, [⟨['a'], .whole⟩]⟩, .expression ⟨.simple, [⟨['b'], .whole⟩]⟩,
        .literal ['x']] false (.start ['1', 'x', '2', 'x']) ((∅ : Failures).insert (1, 4))).1 =
      some ⟨[(['a'], .text ['1', 'x', '2']), (['b'], .text [])]⟩ := by
  have hknown : AllFail [.expression ⟨.simple, [⟨['a'], .whole⟩]⟩,
      .expression ⟨.simple, [⟨['b'], .whole⟩]⟩, .literal ['x']] ['1', 'x', '2', 'x']
      ((∅ : Failures).insert (1, 4)) := by
    intro k hk
    rw [Failures.contains_insert, Failures.contains_empty, Bool.or_false, decide_eq_true_eq] at hk
    subst hk
    refine ⟨[.expression ⟨.simple, [⟨['a'], .whole⟩]⟩], ⟨.simple, [⟨['b'], .whole⟩]⟩,
      [.literal ['x']], rfl, rfl, ?_⟩
    rintro ⟨pos, rest⟩ ⟨-, hrest⟩ hpos
    obtain rfl : pos = 4 := hpos
    obtain rfl : rest = [] := hrest
    decide
  exact ⟨hknown, (search_eq_exhaustive.2 [] _ _ _ _ (start_in _) hknown).1.trans (by decide)⟩

end UriTemplate
