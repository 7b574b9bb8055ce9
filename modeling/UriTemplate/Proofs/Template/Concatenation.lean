import Mathlib.Data.Option.NAry
import UriTemplate.Expansion
import UriTemplate.Proofs.Template.Faults

/-!
# Templates in a row

A template behind another one is again a template. Only at the seam do the two have something to do
with each other: literal text on both sides of it is one literal.

* `joined`               the parts of two templates in a row;
* `partsFrom_spelling`   behind the text of a template the reader goes on as if it started there;
* `expand_joined`       the two templates are expanded one after the other.
-/

namespace UriTemplate

/-! ### the seam -/

def dropEmpty (ps : List Part) : List Part := ps.filter fun p => p ≠ .literal []

/-- one list of parts behind another; a literal at the end of the first takes in one at the front of
the second -/
def fuse : List Part → List Part → List Part
  | [], qs => qs
  | [.literal s], .literal t :: qs => .literal (s ++ t) :: qs
  | p :: ps, qs => p :: fuse ps qs

/-- the parts of two templates in a row; without literal text and expressions an empty literal -/
def joined (ps qs : List Part) : List Part := orEmptyLiteral (fuse (dropEmpty ps) (dropEmpty qs))

section
variable {e : Expression} {ps qs : List Part} {l s t : Text}

theorem fuse_expression (e : Expression) (ps qs : List Part) :
    fuse (.expression e :: ps) qs = .expression e :: fuse ps qs := by
  rw [fuse]
  exact nofun

theorem fuse_cons_cons (p q : Part) (ps qs : List Part) :
    fuse (p :: q :: ps) qs = p :: fuse (q :: ps) qs := by
  rw [fuse]
  exact nofun

theorem fuse_singleton (p : Part) (hqs : ∀ t, qs.head? ≠ some (.literal t)) :
    fuse [p] qs = p :: qs := by
  rw [fuse, fuse]
  rintro _ t qs' rfl
  exact absurd rfl (hqs t)

theorem fuse_literalParts_append (l : Text) (e : Expression) (ps qs : List Part) :
    fuse (literalParts l ++ .expression e :: ps) qs =
      literalParts l ++ .expression e :: fuse ps qs := by
  cases l with
  | nil => exact fuse_expression e ps qs
  | cons c l =>
    show fuse (.literal (c :: l) :: .expression e :: ps) qs = _
    rw [fuse_cons_cons, fuse_expression]
    rfl

theorem foldr_consLiteral_literal (l t : Text) (qs : List Part) :
    l.foldr consLiteral (.literal t :: qs) = .literal (l ++ t) :: qs := by
  induction l with
  | nil => rfl
  | cons c l ih => rw [List.foldr_cons, ih, consLiteral, List.cons_append]

/-- Literal text in front of parts is read character by character. -/
theorem foldr_consLiteral_eq_fuse (l : Text) (qs : List Part) :
    l.foldr consLiteral qs = fuse (literalParts l) qs := by
  by_cases hhead : ∃ t, qs.head? = some (.literal t)
  · obtain ⟨t, ht⟩ := hhead
    obtain ⟨qs', rfl⟩ := List.head?_eq_some_iff.1 ht
    rw [foldr_consLiteral_literal]
    cases l <;> rfl
  · have hqs : ∀ t, qs.head? ≠ some (.literal t) := not_exists.1 hhead
    rw [foldr_consLiteral hqs]
    cases l with
    | nil => rfl
    | cons c l => exact (fuse_singleton _ hqs).symm

/-! ### reading -/

theorem partsFrom_spelling (h : Spelling ps s) (pos : Nat) (t : Text) :
    partsFrom pos none (s ++ t) = (partsFrom (pos + s.length) none t).map (fuse ps) := by
  induction h generalizing pos with
  | @literal l hl =>
    rw [partsFrom_append pos hl, funext (foldr_consLiteral_eq_fuse l)]
  | @expression l body u e ps hl hbody he _ ih =>
    have htext : l ++ '{' :: (body ++ '}' :: u) ++ t = l ++ '{' :: (body ++ '}' :: (u ++ t)) := by
      simp only [List.append_assoc, List.cons_append]
    have hlen : pos + (l ++ '{' :: (body ++ ['}'])).length + u.length =
        pos + (l ++ '{' :: (body ++ '}' :: u)).length := by
      simp only [List.length_append, List.length_cons, List.length_nil]
      omega
    rw [htext, partsFrom_expression hl hbody, Expression.ofBody_eq_ok_iff.2 he]
    dsimp only
    rw [ih, hlen]
    cases partsFrom (pos + (l ++ '{' :: (body ++ '}' :: u)).length) none t with
    | error f => rfl
    | ok qs => exact congrArg Except.ok (fuse_literalParts_append l e ps qs).symm

/-- no part of what is read is an empty literal -/
theorem Spelling.dropEmpty_eq (h : Spelling ps t) : dropEmpty ps = ps := by
  have hliteral : ∀ (l : Text) (qs : List Part),
      dropEmpty (literalParts l ++ qs) = literalParts l ++ dropEmpty qs := by
    intro l qs
    cases l <;> rfl
  induction h with
  | @literal l hl =>
    have hl := hliteral l []
    rwa [List.append_nil, show dropEmpty [] = [] from rfl, List.append_nil] at hl
  | expression hl hbody he _ ih =>
    rw [hliteral]
    exact congrArg _ (congrArg _ ih)

theorem dropEmpty_orEmptyLiteral (ps : List Part) :
    dropEmpty (orEmptyLiteral ps) = dropEmpty ps := by
  cases ps <;> rfl

/-! ### expanding -/

theorem expand_nil (b : Bindings) : expand [] b = .ok [] := rfl

theorem expand_cons (p : Part) (ps : List Part) (b : Bindings) :
    expand (p :: ps) b = do return (← p.expand b) ++ (← expand ps b) := by
  unfold expand
  rw [List.mapM_cons]
  cases p.expand b with
  | error e => rfl
  | ok u => cases ps.mapM (Part.expand b) <;> rfl

theorem expand_literal_cons (l : Text) (ps : List Part) (b : Bindings) :
    expand (.literal l :: ps) b = (expand ps b).map (l ++ ·) := by
  rw [expand_cons]
  cases expand ps b <;> rfl

theorem expand_dropEmpty (ps : List Part) (b : Bindings) :
    expand (dropEmpty ps) b = expand ps b := by
  induction ps with
  | nil => rfl
  | cons p ps ih =>
    unfold dropEmpty at ih ⊢
    by_cases hp : p = .literal []
    · rw [List.filter_cons_of_neg (by simpa using hp), ih, hp, expand_literal_cons]
      cases expand ps b <;> rfl
    · rw [List.filter_cons_of_pos (by simpa using hp), expand_cons, expand_cons, ih]

theorem expand_fuse (ps qs : List Part) (b : Bindings) :
    expand (fuse ps qs) b = do return (← expand ps b) ++ (← expand qs b) := by
  fun_induction fuse ps qs with
  | case1 qs => cases expand qs b <;> rfl
  | case2 s t qs =>
    rw [expand_literal_cons, expand_literal_cons, expand_literal_cons, expand_nil]
    cases expand qs b with
    | error e => rfl
    | ok u =>
      show Except.ok (s ++ t ++ u) = .ok (s ++ [] ++ (t ++ u))
      rw [List.append_nil, List.append_assoc]
  | case3 p ps qs _ ih =>
    rw [expand_cons, ih, expand_cons]
    simp only [bind_assoc, pure_bind, List.append_assoc]

theorem expand_joined (ps qs : List Part) (b : Bindings) :
    expand (joined ps qs) b = do return (← expand ps b) ++ (← expand qs b) := by
  have hor : ∀ rs, expand (orEmptyLiteral rs) b = expand rs b := by
    intro rs
    cases rs <;> rfl
  rw [joined, hor, expand_fuse, expand_dropEmpty, expand_dropEmpty]

end

/-- Behind a template every text is read as it is by itself: a second template gives the parts and
the expansions of both in a row, and what is wrong with any other text is wrong further on. -/
theorem parse_append {s : Text} {tpl : Template} (h : parse s = .ok tpl) :
    (∀ t tpl', parse t = .ok tpl' →
      parse (s ++ t) = .ok ⟨s ++ t, joined tpl.parts tpl'.parts⟩ ∧
      ∀ b, expand (joined tpl.parts tpl'.parts) b =
        do return (← expand tpl.parts b) ++ (← expand tpl'.parts b)) ∧
    ∀ t e, parse t = .error e →
      parse (s ++ t) = .error ⟨e.fault, s ++ t, s.length + e.position⟩ := by
  obtain ⟨ps, hps, rfl⟩ := parse_eq_ok_iff.1 h
  refine ⟨fun t tpl' h' => ⟨?_, expand_joined _ _⟩, fun t e h' => ?_⟩
  · obtain ⟨qs, hqs, rfl⟩ := parse_eq_ok_iff.1 h'
    have hread : partsFrom 0 none (s ++ t) = .ok (fuse ps qs) := by
      rw [partsFrom_spelling hps, partsFrom_eq_ok_iff.2 hqs]
      rfl
    rw [joined, dropEmpty_orEmptyLiteral, dropEmpty_orEmptyLiteral, hps.dropEmpty_eq,
      hqs.dropEmpty_eq]
    exact parse_eq_ok_iff.2 ⟨_, partsFrom_eq_ok_iff.1 hread, rfl⟩
  · obtain ⟨front, rest, rfl, hpos, hfront, hfault⟩ :=
      partsFrom_eq_error_iff.1 (parse_eq_error_iff.1 h').2
    refine parse_eq_error_iff.2 ⟨rfl, ?_⟩
    have hread : partsFrom (0 + s.length) none (front ++ '{' :: rest) =
        .error (e.fault, s.length + e.position) :=
      partsFrom_eq_error_iff.2 ⟨front, rest, rfl, by omega, hfront, hfault⟩
    rw [partsFrom_spelling hps, hread]
    rfl

/-- literal text on both sides of the seam, and a text whose brace is not closed -/
theorem parse_append_seam :
    parse ['{', 'a', '}', 'b', 'c', '{', 'd', '}'] =
      .ok ⟨['{', 'a', '}', 'b', 'c', '{', 'd', '}'],
        [.expression ⟨.simple, [⟨['a'], .whole⟩]⟩, .literal ['b', 'c'],
          .expression ⟨.simple, [⟨['d'], .whole⟩]⟩]⟩ ∧
    expand [.expression ⟨.simple, [⟨['a'], .whole⟩]⟩, .literal ['b', 'c'],
        .expression ⟨.simple, [⟨['d'], .whole⟩]⟩] ⟨[(['a'], .text ['x'])]⟩ =
      .ok ['x', 'b', 'c'] ∧
    parse ['{', 'a', '}', 'b', '}', '{', 'e'] =
      .error ⟨.unclosed, ['{', 'a', '}', 'b', '}', '{', 'e'], 5⟩ := by
  have hleft : parse ['{', 'a', '}', 'b'] =
      .ok ⟨['{', 'a', '}', 'b'],
        [.expression ⟨.simple, [⟨['a'], .whole⟩]⟩, .literal ['b']]⟩ := by rfl
  have hright : parse ['c', '{', 'd', '}'] =
      .ok ⟨['c', '{', 'd', '}'],
        [.literal ['c'], .expression ⟨.simple, [⟨['d'], .whole⟩]⟩]⟩ := by rfl
  have hbad : parse ['}', '{', 'e'] = .error ⟨.unclosed, ['}', '{', 'e'], 1⟩ := by rfl
  obtain ⟨htemplate, hfault⟩ := parse_append hleft
  obtain ⟨hparts, hexpand⟩ := htemplate _ _ hright
  exact ⟨hparts, (hexpand ⟨[(['a'], .text ['x'])]⟩).trans (by rfl), hfault _ _ hbad⟩

end UriTemplate
