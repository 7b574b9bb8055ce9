import UriTemplate.Proofs.Template.Braces

/-!
# The leftmost fault

Which texts are templates, said of all their opening braces at once, and what a parse reports of a
text that is none: the first opening brace that is not closed, or whose body is not one of an
expression (`parse_grammatical_or_fault`).
-/

namespace UriTemplate

/-- Every opening brace is closed before the next one, and what is between spells an expression. -/
def Grammatical (t : Text) : Prop := ∀ front rest, t = front ++ '{' :: rest →
  ∃ body behind e, BraceFree body ∧ rest = body ++ '}' :: behind ∧ Expression.Spelling e body

/-- what is wrong with the expression whose brace stands in front of a text -/
inductive ExpressionFault : Text → Fault → Prop
  | unclosed {rest : Text} (h : ¬Closed rest) : ExpressionFault rest .unclosed
  | body {body : Text} {f : Fault} (hbody : BraceFree body) (h : BodyFault body f)
      (behind : Text) : ExpressionFault (body ++ '}' :: behind) f

/-! ### opening braces of texts that are put together -/

section
variable {c : Char} {a b l body front rest t u v : Text}

theorem exists_append_of_not_mem (hc : c ∉ a) (h : a ++ u = b ++ c :: v) :
    ∃ b', b = a ++ b' ∧ u = b' ++ c :: v := by
  induction a generalizing b with
  | nil => exact ⟨b, rfl, h⟩
  | cons x a ih =>
    obtain ⟨hx, ha⟩ := not_or.1 (mt List.mem_cons.2 hc)
    cases b with
    | nil =>
      cases h
      exact absurd rfl hx
    | cons y b =>
      rw [List.cons_append, List.cons_append, List.cons.injEq] at h
      obtain ⟨rfl, h⟩ := h
      obtain ⟨b', rfl, hu⟩ := ih ha h
      exact ⟨b', rfl, hu⟩

/-- the first opening brace of a text, or one behind it -/
theorem brace_cases (hl : '{' ∉ l) (h : l ++ '{' :: t = front ++ '{' :: rest) :
    (front = l ∧ rest = t) ∨ ∃ front', front = l ++ '{' :: front' ∧ t = front' ++ '{' :: rest := by
  obtain ⟨b, rfl, hb⟩ := exists_append_of_not_mem hl h
  cases b with
  | nil =>
    cases hb
    exact .inl ⟨List.append_nil l, rfl⟩
  | cons d b =>
    rw [List.cons_append, List.cons.injEq] at hb
    obtain ⟨rfl, hb⟩ := hb
    exact .inr ⟨b, rfl, hb⟩

/-- the opening brace of an expression, or one behind its closing brace -/
theorem expression_cases (hl : '{' ∉ l) (hbody : BraceFree body)
    (h : l ++ '{' :: (body ++ '}' :: t) = front ++ '{' :: rest) :
    (front = l ∧ rest = body ++ '}' :: t) ∨
      ∃ front', front = l ++ '{' :: (body ++ '}' :: front') ∧ t = front' ++ '{' :: rest := by
  rcases brace_cases hl h with hfirst | ⟨front', hfront, hbehind⟩
  · exact .inl hfirst
  · have hopen : '{' ∉ body ++ ['}'] := by simp [hbody.1]
    rw [List.append_cons] at hbehind
    obtain ⟨front'', rfl, ht⟩ := exists_append_of_not_mem hopen hbehind
    rw [List.append_assoc] at hfront
    exact .inr ⟨front'', hfront, ht⟩

/-! ### grammatical texts -/

theorem grammatical_of_not_mem (hl : '{' ∉ l) : Grammatical l := by
  rintro front rest rfl
  exact absurd (List.mem_append_right _ List.mem_cons_self) hl

theorem not_grammatical_of_not_closed (ht : ¬Closed t) : ¬Grammatical (l ++ '{' :: t) := by
  intro h
  obtain ⟨body, behind, e, hbody, rfl, -⟩ := h l t rfl
  exact ht ⟨body, behind, hbody, rfl⟩

/-- the text between an opening brace and the first closing one -/
theorem append_close_inj {body' : Text} (hbody : BraceFree body) (hbody' : BraceFree body')
    (h : body ++ '}' :: t = body' ++ '}' :: u) : body = body' ∧ t = u := by
  obtain ⟨b, rfl, hb⟩ := exists_append_of_not_mem hbody.2 h
  cases b with
  | nil =>
    cases hb
    exact ⟨(List.append_nil body).symm, rfl⟩
  | cons d b =>
    cases hb
    exact absurd (List.mem_append_right _ List.mem_cons_self) hbody'.2

theorem grammatical_expression_iff (hl : '{' ∉ l) (hbody : BraceFree body) :
    Grammatical (l ++ '{' :: (body ++ '}' :: t)) ↔
      (∃ e, Expression.Spelling e body) ∧ Grammatical t := by
  constructor
  · intro h
    constructor
    · obtain ⟨body', behind, e, hbody', heq, he⟩ := h l _ rfl
      obtain ⟨rfl, -⟩ := append_close_inj hbody hbody' heq
      exact ⟨e, he⟩
    · rintro front rest rfl
      apply h (l ++ '{' :: (body ++ '}' :: front)) rest
      simp only [List.append_assoc, List.cons_append]
  · rintro ⟨⟨e, he⟩, h⟩ front rest heq
    rcases expression_cases hl hbody heq with ⟨-, rfl⟩ | ⟨front', -, ht⟩
    · exact ⟨body, t, e, hbody, rfl, he⟩
    · exact h front' rest ht

theorem exists_spelling_iff : (∃ ps, Spelling ps t) ↔ Grammatical t := by
  constructor
  · rintro ⟨ps, h⟩
    induction h with
    | literal hl => exact grammatical_of_not_mem hl
    | expression hl hbody he _ ih => exact (grammatical_expression_iff hl hbody).2 ⟨⟨_, he⟩, ih⟩
  · induction t using braces_induction with
    | literal l hl => exact fun _ => ⟨_, .literal hl⟩
    | unclosed l t hl ht => exact fun h => absurd h (not_grammatical_of_not_closed ht)
    | expression l body t hl hbody ih =>
      intro h
      obtain ⟨⟨e, he⟩, ht⟩ := (grammatical_expression_iff hl hbody).1 h
      obtain ⟨ps, hps⟩ := ih ht
      exact ⟨_, .expression hl hbody he hps⟩

theorem exists_parse_eq_ok_iff : (∃ tpl, parse t = .ok tpl) ↔ Grammatical t := by
  rw [← exists_spelling_iff]
  constructor
  · rintro ⟨tpl, h⟩
    obtain ⟨ps, hps, -⟩ := parse_eq_ok_iff.1 h
    exact ⟨ps, hps⟩
  · rintro ⟨ps, hps⟩
    exact ⟨_, parse_eq_ok_iff.2 ⟨ps, hps, rfl⟩⟩

/-! ### faults -/

theorem expressionFault_iff {f : Fault} (hbody : BraceFree body) :
    ExpressionFault (body ++ '}' :: t) f ↔ BodyFault body f := by
  constructor
  · intro h
    generalize heq : body ++ '}' :: t = rest at h
    cases h with
    | unclosed h => exact absurd ⟨body, t, hbody, heq.symm⟩ h
    | body hbody' h behind =>
      obtain ⟨rfl, -⟩ := append_close_inj hbody hbody' heq
      exact h
  · exact fun h => .body hbody h t

/-- The reader reports the first opening brace behind which something is wrong. -/
theorem partsFrom_eq_error_iff {pos q : Nat} {f : Fault} : partsFrom pos none t = .error (f, q) ↔
    ∃ front rest, t = front ++ '{' :: rest ∧ q = pos + front.length ∧ Grammatical front ∧
      ExpressionFault rest f := by
  induction t using braces_induction generalizing pos with
  | literal l hl =>
    rw [partsFrom_literal hl]
    constructor
    · intro h
      cases h
    · rintro ⟨front, rest, rfl, -⟩
      exact absurd (List.mem_append_right _ List.mem_cons_self) hl
  | unclosed l t hl ht =>
    rw [partsFrom_unclosed hl ht]
    constructor
    · intro h
      cases h
      exact ⟨l, t, rfl, rfl, grammatical_of_not_mem hl, .unclosed ht⟩
    · rintro ⟨front, rest, heq, rfl, hfront, hf⟩
      rcases brace_cases hl heq with ⟨rfl, rfl⟩ | ⟨front', rfl, rfl⟩
      · cases hf with
        | unclosed => rfl
        | body hbody _ behind => exact absurd ⟨_, behind, hbody, rfl⟩ ht
      · obtain ⟨body, behind, e, hbody, rfl, -⟩ := hfront l front' rfl
        refine absurd ⟨body, behind ++ '{' :: rest, hbody, ?_⟩ ht
        rw [List.append_assoc, List.cons_append]
  | expression l body t hl hbody ih =>
    rw [partsFrom_expression hl hbody]
    constructor
    · intro h
      split at h
      · next e he =>
        obtain ⟨front, rest, rfl, rfl, hfront, hf⟩ := ih.1 (map_eq_error_iff.1 h)
        refine ⟨l ++ '{' :: (body ++ '}' :: front), rest, ?_, ?_, ?_, hf⟩
        · simp only [List.append_assoc, List.cons_append]
        · simp only [List.length_append, List.length_cons, List.length_nil]
          omega
        · exact (grammatical_expression_iff hl hbody).2
            ⟨⟨e, Expression.ofBody_eq_ok_iff.1 he⟩, hfront⟩
      · next g hg =>
        cases h
        exact ⟨l, _, rfl, rfl, grammatical_of_not_mem hl,
          .body hbody (Expression.ofBody_eq_error_iff.1 hg) t⟩
    · rintro ⟨front, rest, heq, rfl, hfront, hf⟩
      rcases expression_cases hl hbody heq with ⟨rfl, rfl⟩ | ⟨front', rfl, ht⟩
      · rw [Expression.ofBody_eq_error_iff.2 ((expressionFault_iff hbody).1 hf)]
      · obtain ⟨⟨e, he⟩, hfront'⟩ := (grammatical_expression_iff hl hbody).1 hfront
        rw [Expression.ofBody_eq_ok_iff.2 he]
        refine map_eq_error_iff.2 (ih.2 ⟨front', rest, ht, ?_, hfront', hf⟩)
        simp only [List.length_append, List.length_cons, List.length_nil]
        omega

theorem parse_eq_error_iff {e : ParseError} : parse t = .error e ↔
    e.template = t ∧ partsFrom 0 none t = .error (e.fault, e.position) := by
  unfold parse
  cases hps : partsFrom 0 none t with
  | ok ps =>
    constructor
    · intro h
      cases h
    · rintro ⟨-, h⟩
      cases h
  | error fq =>
    constructor
    · intro h
      cases h
      exact ⟨rfl, rfl⟩
    · rintro ⟨rfl, h⟩
      cases h
      rfl

end

/-- A text is a template exactly if it is grammatical. Else the error names the text, and the place
and the fault of the leftmost opening brace behind which something is wrong: the text in front of
that brace is a template. -/
theorem parse_grammatical_or_fault (t : Text) :
    ((∃ tpl, parse t = .ok tpl) ↔ Grammatical t) ∧
    ∀ e, parse t = .error e ↔ e.template = t ∧
      ∃ front rest, t = front ++ '{' :: rest ∧ e.position = front.length ∧
        (∃ tpl, parse front = .ok tpl) ∧ ExpressionFault rest e.fault := by
  refine ⟨exists_parse_eq_ok_iff, fun e => ?_⟩
  rw [parse_eq_error_iff, partsFrom_eq_error_iff]
  simp only [exists_parse_eq_ok_iff, Nat.zero_add]

/-- Of two bad tokens the first counts, and of a bad token and an open end the bad token. -/
example : parse ['a', '{', 'b', ',', '*', ',', 'c', ':', '}', '{'] =
    .error ⟨.emptyName, ['a', '{', 'b', ',', '*', ',', 'c', ':', '}', '{'], 1⟩ := by rfl

end UriTemplate
