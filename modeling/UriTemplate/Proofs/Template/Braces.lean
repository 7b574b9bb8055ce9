import UriTemplate.Proofs.Template.Grammar

/-!
# Templates from brace to brace

A template is literal text up to an opening brace, a body up to a closing one, and the same again
(`braces_induction`). For each of these there is one equation of the reader: `partsFrom_literal`,
`partsFrom_unclosed`, `partsFrom_expression`.

* `Spelling`          the texts of parts;
* `parse_eq_ok_iff`   what is read from a text are the parts that it spells.
-/

namespace UriTemplate

/-! ### braces -/

/-- text without braces, as it stands between two of them -/
def BraceFree (t : Text) : Prop := '{' ∉ t ∧ '}' ∉ t

/-- behind an opening brace: a closing one comes before the next opening one and before the end -/
def Closed (t : Text) : Prop := ∃ body behind, BraceFree body ∧ t = body ++ '}' :: behind

theorem Closed.cons {c : Char} {t : Text} (hopen : c ≠ '{') (h : Closed t) : Closed (c :: t) := by
  obtain ⟨body, behind, hbody, rfl⟩ := h
  by_cases hclose : c = '}'
  · exact ⟨[], body ++ '}' :: behind, ⟨List.not_mem_nil, List.not_mem_nil⟩, by rw [hclose]; rfl⟩
  · refine ⟨c :: body, behind, ⟨?_, ?_⟩, rfl⟩
    · simp [hopen.symm, hbody.1]
    · simp [Ne.symm hclose, hbody.2]

theorem braces_induction {P : Text → Prop} (literal : ∀ l, '{' ∉ l → P l)
    (unclosed : ∀ l t, '{' ∉ l → ¬Closed t → P (l ++ '{' :: t))
    (expression : ∀ l body t, '{' ∉ l → BraceFree body → P t →
      P (l ++ '{' :: (body ++ '}' :: t)))
    (t : Text) : P t := by
  induction hn : t.length using Nat.strongRecOn generalizing t with
  | ind n ih =>
    by_cases hopen : '{' ∈ t
    · obtain ⟨l, rest, rfl, hl⟩ := List.eq_append_cons_of_mem hopen
      by_cases hclosed : Closed rest
      · obtain ⟨body, behind, hbody, rfl⟩ := hclosed
        refine expression l body behind hl hbody (ih behind.length ?_ behind rfl)
        rw [← hn]
        simp only [List.length_append, List.length_cons]
        omega
      · exact unclosed l rest hl hclosed
    · exact literal t hopen

/-! ### the reader -/

/-- the parts of literal text -/
def literalParts : Text → List Part
  | [] => []
  | t => [.literal t]

theorem literalParts_of_ne_nil {t : Text} (h : t ≠ []) : literalParts t = [.literal t] := by
  cases t with
  | nil => exact absurd rfl h
  | cons c t => rfl

theorem foldr_consLiteral {ps : List Part} (h : ∀ u, ps.head? ≠ some (.literal u)) (l : Text) :
    l.foldr consLiteral ps = literalParts l ++ ps := by
  induction l with
  | nil => rfl
  | cons c l ih =>
    rw [List.foldr_cons, ih]
    cases l with
    | nil =>
      cases ps with
      | nil => rfl
      | cons p ps =>
        cases p with
        | literal u => exact absurd rfl (h u)
        | expression e => rfl
    | cons d l => rfl

section
variable {pos : Nat} {l body t : Text} {o : OpenExpression}

theorem partsFrom_append (pos : Nat) (hl : '{' ∉ l) (t : Text) : partsFrom pos none (l ++ t) =
    (partsFrom (pos + l.length) none t).map fun ps => l.foldr consLiteral ps := by
  induction l generalizing pos with
  | nil =>
    show partsFrom pos none t = (partsFrom pos none t).map id
    rw [Except.map_id]
    rfl
  | cons c l ih =>
    obtain ⟨hc, hl⟩ := not_or.1 (mt List.mem_cons.2 hl)
    rw [List.cons_append, partsFrom, if_neg (Ne.symm hc), ih (pos + 1) hl, List.length_cons,
      Nat.add_assoc, Nat.add_comm 1]
    cases partsFrom (pos + (l.length + 1)) none t <;> rfl

theorem partsFrom_literal (hl : '{' ∉ l) : partsFrom pos none l = .ok (literalParts l) := by
  have h := partsFrom_append pos hl []
  rw [List.append_nil] at h
  rw [h, partsFrom, ← List.append_nil (literalParts l), ← foldr_consLiteral (by simp)]
  rfl

theorem partsFrom_body (hbody : BraceFree body) (t : Text) : partsFrom pos (some o) (body ++ t) =
    partsFrom (pos + body.length) (some ⟨o.position, body.reverse ++ o.body⟩) t := by
  induction body generalizing pos o with
  | nil => rfl
  | cons c body ih =>
    obtain ⟨hopen, hclose⟩ := hbody
    obtain ⟨hopen', hopen⟩ := not_or.1 (mt List.mem_cons.2 hopen)
    obtain ⟨hclose', hclose⟩ := not_or.1 (mt List.mem_cons.2 hclose)
    rw [List.cons_append, partsFrom, if_neg (Ne.symm hclose'), if_neg (Ne.symm hopen'),
      ih ⟨hopen, hclose⟩, List.length_cons, Nat.add_assoc, Nat.add_comm 1, List.reverse_cons,
      List.append_assoc]
    rfl

theorem partsFrom_of_not_closed (h : ¬Closed t) :
    partsFrom pos (some o) t = .error (.unclosed, o.position) := by
  induction t generalizing pos o with
  | nil => rfl
  | cons c t ih =>
    have hclose : c ≠ '}' := by
      rintro rfl
      exact h ⟨[], t, ⟨List.not_mem_nil, List.not_mem_nil⟩, rfl⟩
    rw [partsFrom, if_neg hclose]
    split
    · rfl
    · next hopen => exact ih fun ht => h (ht.cons hopen)

theorem partsFrom_unclosed (hl : '{' ∉ l) (h : ¬Closed t) :
    partsFrom pos none (l ++ '{' :: t) = .error (.unclosed, pos + l.length) := by
  rw [partsFrom_append pos hl, partsFrom, if_pos rfl, partsFrom_of_not_closed h]
  rfl

theorem partsFrom_expression (hl : '{' ∉ l) (hbody : BraceFree body) (t : Text) :
    partsFrom pos none (l ++ '{' :: (body ++ '}' :: t)) =
      match Expression.ofBody body with
      | .ok e => (partsFrom (pos + (l ++ '{' :: (body ++ ['}'])).length) none t).map
          fun ps => literalParts l ++ .expression e :: ps
      | .error f => .error (f, pos + l.length) := by
  have hlen : pos + l.length + 1 + body.length + 1 =
      pos + (l ++ '{' :: (body ++ ['}'])).length := by
    simp only [List.length_append, List.length_cons, List.length_nil]
    omega
  rw [partsFrom_append pos hl, partsFrom, if_pos rfl, partsFrom_body hbody, partsFrom, if_pos rfl,
    hlen, List.append_nil, List.reverse_reverse]
  cases Expression.ofBody body with
  | error f => rfl
  | ok e =>
    dsimp only
    cases partsFrom (pos + (l ++ '{' :: (body ++ ['}'])).length) none t with
    | error f => rfl
    | ok ps => exact congrArg Except.ok (foldr_consLiteral (by simp) l)

end

/-! ### the texts of parts -/

inductive Spelling : List Part → Text → Prop
  | literal {l : Text} (hl : '{' ∉ l) : Spelling (literalParts l) l
  | expression {l body t : Text} {e : Expression} {ps : List Part} (hl : '{' ∉ l)
      (hbody : BraceFree body) (he : e.Spelling body) (hps : Spelling ps t) :
      Spelling (literalParts l ++ .expression e :: ps) (l ++ '{' :: (body ++ '}' :: t))

theorem partsFrom_eq_ok_iff {pos : Nat} {t : Text} {ps : List Part} :
    partsFrom pos none t = .ok ps ↔ Spelling ps t := by
  constructor
  · induction t using braces_induction generalizing pos ps with
    | literal l hl =>
      intro h
      rw [partsFrom_literal hl] at h
      cases h
      exact .literal hl
    | unclosed l t hl ht =>
      intro h
      rw [partsFrom_unclosed hl ht] at h
      cases h
    | expression l body t hl hbody ih =>
      intro h
      rw [partsFrom_expression hl hbody] at h
      split at h
      · next e he =>
        obtain ⟨ps', hps', rfl⟩ := map_eq_ok_iff.1 h
        exact .expression hl hbody (Expression.ofBody_eq_ok_iff.1 he) (ih hps')
      · cases h
  · intro h
    induction h generalizing pos with
    | literal hl => exact partsFrom_literal hl
    | expression hl hbody he _ ih =>
      rw [partsFrom_expression hl hbody, Expression.ofBody_eq_ok_iff.2 he]
      exact map_eq_ok_iff.2 ⟨_, ih, rfl⟩

theorem parse_eq_ok_iff {t : Text} {tpl : Template} :
    parse t = .ok tpl ↔ ∃ ps, Spelling ps t ∧ tpl = ⟨t, orEmptyLiteral ps⟩ := by
  unfold parse
  constructor
  · intro h
    split at h
    · next ps hps =>
      cases h
      exact ⟨ps, partsFrom_eq_ok_iff.1 hps, rfl⟩
    · cases h
  · rintro ⟨ps, hps, rfl⟩
    rw [partsFrom_eq_ok_iff.2 hps]

theorem source_of_parse {t : Text} {tpl : Template} (h : parse t = .ok tpl) : tpl.source = t := by
  obtain ⟨ps, -, rfl⟩ := parse_eq_ok_iff.1 h
  rfl

end UriTemplate
