import UriTemplate.Proofs.Template.Braces

/-!
# Parsed templates are well-formed

Parts that are put together by hand need not be the parts of any template: a literal may hold a
brace, two literals may follow each other. `WellFormed` says what the parts of a parsed template are
like, `wellFormed_of_parse` that they are.
-/

namespace UriTemplate

/-! ### well-formed parts -/

structure Variable.WellFormed (x : Variable) : Prop where
  name_ne_nil : x.name ≠ []
  name_chars : ∀ c ∈ x.name, c ≠ '{' ∧ c ≠ '}' ∧ c ≠ ',' ∧ c ≠ ':'
  name_star : x.isExploded = false → x.name.getLast? ≠ some '*'
  length : ∀ n, x.modifier = .truncated n → 1 ≤ n ∧ n ≤ maxLength

structure Expression.WellFormed (e : Expression) : Prop where
  vars_ne_nil : e.vars ≠ []
  vars : ∀ x ∈ e.vars, x.WellFormed
  /-- else the name would be read as an operator and a shorter name -/
  no_sign : e.operator = .simple → ∀ x ∈ e.vars.head?, ∀ c ∈ x.name.head?, Operator.ofChar? c = none

/-- parts that print to a text with the same parts -/
def Regular : List Part → Prop
  | [] => True
  | .literal t :: ps => (t ≠ [] ∧ '{' ∉ t) ∧ (∀ u, ps.head? ≠ some (.literal u)) ∧ Regular ps
  | .expression e :: ps => e.WellFormed ∧ Regular ps

/-- parts of a template; the empty template has an empty literal -/
def WellFormed (ps : List Part) : Prop := ps = [.literal []] ∨ ps ≠ [] ∧ Regular ps

/-! ### what is spelled -/

theorem Variable.Spelling.wellFormed {x : Variable} {token : Text} (h : x.Spelling token)
    (hchars : ∀ c ∈ token, c ≠ '{' ∧ c ≠ '}' ∧ c ≠ ',') : x.WellFormed := by
  have hname (hcolon : ':' ∉ x.name) : ∀ c ∈ x.name, c ≠ '{' ∧ c ≠ '}' ∧ c ≠ ',' ∧ c ≠ ':' := by
    intro c hc
    obtain ⟨hopen, hclose, hcomma⟩ := hchars c (h.name_prefix.subset hc)
    exact ⟨hopen, hclose, hcomma, ne_of_mem_of_not_mem hc hcolon⟩
  cases h with
  | whole hne hcolon hstar => exact ⟨hne, hname hcolon, fun _ => hstar, nofun⟩
  | exploded hne hcolon => exact ⟨hne, hname hcolon, nofun, nofun⟩
  | truncated hne hcolon hstar hlength =>
    refine ⟨hne, hname hcolon, fun _ => hstar, fun m hm => ?_⟩
    cases hm
    exact hlength.range

theorem Expression.Spelling.wellFormed {e : Expression} {body : Text} (h : e.Spelling body)
    (hbody : BraceFree body) : e.WellFormed := by
  obtain ⟨tokens, hcut, hvars⟩ := h
  have hspelled {x : Variable} (hx : x ∈ e.vars) : ∃ token ∈ tokens, x.Spelling token :=
    exists_of_mem_forall₂ hvars hx
  refine ⟨?_, fun x hx => ?_, fun hsimple x hx c hc => ?_⟩
  · intro hnil
    rw [hnil, List.forall₂_nil_left_iff] at hvars
    exact hcut.ne_nil hvars
  · obtain ⟨token, ht, hx⟩ := hspelled hx
    refine hx.wellFormed fun c hc => ⟨?_, ?_, ?_⟩
    · exact ne_of_mem_of_not_mem (hcut.subset ht hc) hbody.1
    · exact ne_of_mem_of_not_mem (hcut.subset ht hc) hbody.2
    · exact ne_of_mem_of_not_mem hc (hcut.no_comma token ht)
  · -- without a sign the first name stands at the front of the body
    obtain ⟨xs, hxs⟩ := List.head?_eq_some_iff.1 hx
    rw [hxs, List.forall₂_cons_left_iff] at hvars
    obtain ⟨token, tokens, hx, -, rfl⟩ := hvars
    obtain ⟨rest, hrest⟩ := hx.name_prefix.trans (prefix_intercalate_cons ',' token tokens)
    obtain ⟨cs, hcs⟩ := List.head?_eq_some_iff.1 hc
    apply hcut.no_sign hsimple
    rw [hcut.text, hsimple, ← hrest, hcs]
    rfl

/-- Literal text in front of parts that do not begin with a literal is one more part. -/
theorem Regular.literalParts_append {l : Text} {ps : List Part} (h : Regular ps) (hl : '{' ∉ l)
    (hhead : ∀ u, ps.head? ≠ some (.literal u)) : Regular (literalParts l ++ ps) := by
  cases l with
  | nil => exact h
  | cons c l => exact ⟨⟨List.cons_ne_nil c l, hl⟩, hhead, h⟩

theorem Spelling.regular {ps : List Part} {t : Text} (h : Spelling ps t) : Regular ps := by
  induction h with
  | @literal l hl =>
    have hnil : Regular (literalParts l ++ []) := Regular.literalParts_append trivial hl (by simp)
    rwa [List.append_nil] at hnil
  | expression hl hbody he _ ih =>
    exact Regular.literalParts_append ⟨he.wellFormed hbody, ih⟩ hl (by simp)

theorem wellFormed_of_parse {t : Text} {tpl : Template} (h : parse t = .ok tpl) :
    WellFormed tpl.parts := by
  obtain ⟨ps, hps, rfl⟩ := parse_eq_ok_iff.1 h
  cases ps with
  | nil => exact .inl rfl
  | cons p ps => exact .inr ⟨List.cons_ne_nil _ _, hps.regular⟩

/-! ### the parts of well-formed templates -/

theorem Regular.expression {ps : List Part} {e : Expression} (h : Regular ps)
    (he : .expression e ∈ ps) : e.WellFormed := by
  induction ps with
  | nil => cases he
  | cons p ps ih =>
    cases p with
    | literal t =>
      rcases List.mem_cons.1 he with heq | he
      · cases heq
      · exact ih h.2.2 he
    | expression f =>
      rcases List.mem_cons.1 he with heq | he
      · cases heq
        exact h.1
      · exact ih h.2 he

theorem WellFormed.expression {ps : List Part} {e : Expression} (h : WellFormed ps)
    (he : .expression e ∈ ps) : e.WellFormed := by
  rcases h with rfl | h
  · cases List.mem_singleton.1 he
  · exact h.2.expression he

end UriTemplate
