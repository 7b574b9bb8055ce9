import UriTemplate.Proofs.Template.Faults
import UriTemplate.Proofs.Template.WellFormed

/-!
# Reading what is printed, printing what was read

Parts print to one of their spellings: the one where no length has a zero in front
(`print_eq_trimLengths`, `print_eq_iff`). So well-formed parts come back from their text, and a text
comes back from its parts up to those zeros (`parse_print_inverse`).
-/

namespace UriTemplate

/-! ### zeros in front of lengths -/

/-- where a reader of a template stands, as far as lengths go -/
inductive Zone where
  | outside
  | name
  /-- behind the colon of a token and nothing but zeros -/
  | zeros
  | digits
deriving DecidableEq, Repr

def Zone.next : Zone → Char → Zone
  | outside, c => if c = '{' then name else outside
  | name, c => if c = '}' then outside else if c = ':' then zeros else name
  | _, c => if c = '}' then outside else if c = ',' then name else digits

def trimFrom : Zone → Text → Text
  | _, [] => []
  | .zeros, '0' :: t => trimFrom .zeros t
  | z, c :: t => c :: trimFrom (z.next c) t

/-- a template without the zeros in front of its lengths -/
def trimLengths (t : Text) : Text := trimFrom .outside t

/-- a token that writes a length with a zero in front -/
def Padded (token : Text) : Prop := ∃ name digits, token = name ++ ':' :: '0' :: digits ∧ ':' ∉ name

/-- the text has a body with such a token -/
def PadsLength (t : Text) : Prop := ∃ front body behind operator tokens,
  t = front ++ '{' :: (body ++ '}' :: behind) ∧ BraceFree body ∧ Cut operator tokens body ∧
    ∃ token ∈ tokens, Padded token

example : trimLengths ['0', ':', '0', '{', 'a', ':', '0', '1', '0', ',', 'b', '0', '}', '0'] =
    ['0', ':', '0', '{', 'a', ':', '1', '0', ',', 'b', '0', '}', '0'] := by decide

/-! ### digits of lengths -/

section
variable {c : Char} {digits : Text} {n : Nat}

theorem exists_digitChar (h : c.isDigit = true) : ∃ d < 10, d.digitChar = c := by
  have hdigit : ∀ d < 10, d.digitChar.toNat = '0'.toNat + d := by decide
  obtain ⟨hlow, hhigh⟩ := Char.isDigit_iff_toNat.1 h
  have hlt : c.toNat - '0'.toNat < 10 := by
    have h9 : '9'.toNat = '0'.toNat + 9 := rfl
    omega
  refine ⟨c.toNat - '0'.toNat, hlt, Char.toNat_inj.1 ?_⟩
  rw [hdigit _ hlt]
  omega

theorem toDigits_ofDigitChars (h : ∀ c ∈ digits, c.isDigit = true) (hn : 0 < n) :
    Nat.toDigits 10 (Nat.ofDigitChars 10 digits n) = Nat.toDigits 10 n ++ digits := by
  induction digits generalizing n with
  | nil => rw [Nat.ofDigitChars_nil, List.append_nil]
  | cons c digits ih =>
    obtain ⟨hc, hdigits⟩ := List.forall_mem_cons.1 h
    obtain ⟨d, hd, rfl⟩ := exists_digitChar hc
    rw [Nat.ofDigitChars_cons_digitChar_of_lt_ten hd, ih hdigits (by omega),
      ← Nat.toDigits_append_toDigits (by decide) hn hd, Nat.toDigits_of_lt_base hd,
      List.append_assoc, List.singleton_append]

/-- a number is written with the digits it is read from, up to zeros in front -/
theorem natText_ofDigitChars (h : ∀ c ∈ digits, c.isDigit = true)
    (hn : 0 < Nat.ofDigitChars 10 digits 0) :
    natText (Nat.ofDigitChars 10 digits 0) = digits.dropWhile (· = '0') := by
  induction digits with
  | nil => exact absurd hn (by simp)
  | cons c digits ih =>
    obtain ⟨hc, hdigits⟩ := List.forall_mem_cons.1 h
    obtain ⟨d, hd, rfl⟩ := exists_digitChar hc
    rw [Nat.ofDigitChars_cons_digitChar_of_lt_ten hd, Nat.mul_zero, Nat.zero_add] at hn ⊢
    cases d with
    | zero =>
      rw [ih hdigits hn]
      rfl
    | succ d =>
      rw [natText, toDigits_ofDigitChars hdigits (Nat.succ_pos d), Nat.toDigits_of_lt_base hd,
        List.dropWhile_cons_of_neg (by simp)]
      rfl

theorem IsLength.natText (h : IsLength digits n) : natText n = digits.dropWhile (· = '0') := by
  obtain ⟨-, hdigits, -, rfl, hpos, -⟩ := h
  exact natText_ofDigitChars hdigits hpos

theorem isLength_natText (h : 1 ≤ n ∧ n ≤ maxLength) : IsLength (UriTemplate.natText n) n where
  ne_nil := Nat.toDigits_ne_nil
  isDigit _ hc := Nat.isDigit_of_mem_toDigits (by decide) (by decide) hc
  readable := by
    have hlt : n < 10 ^ 4 := Nat.lt_of_le_of_lt h.2 (by decide)
    have hlen : (UriTemplate.natText n).length ≤ 4 :=
      (Nat.length_toDigits_le_iff (by decide) (by decide)).2 hlt
    exact Nat.le_trans hlen (by decide)
  value := Nat.ofDigitChars_ten_toDigits
  range := h

end

/-! ### tokens -/

section
variable {c : Char} {l name digits token t : Text} {x : Variable}

theorem trimFrom_cons (z : Zone) (h : z = .zeros → c ≠ '0') (t : Text) :
    trimFrom z (c :: t) = c :: trimFrom (z.next c) t := by
  rw [trimFrom]
  exact h

theorem trimFrom_outside (hl : '{' ∉ l) (t : Text) :
    trimFrom .outside (l ++ t) = l ++ trimFrom .outside t := by
  induction l with
  | nil => rfl
  | cons c l ih =>
    obtain ⟨hc, hl⟩ := not_or.1 (mt List.mem_cons.2 hl)
    rw [List.cons_append, List.cons_append, ← ih hl, trimFrom_cons .outside nofun, Zone.next,
      if_neg (Ne.symm hc)]

theorem trimFrom_name (hcolon : ':' ∉ name) (hclose : '}' ∉ name) (t : Text) :
    trimFrom .name (name ++ t) = name ++ trimFrom .name t := by
  induction name with
  | nil => rfl
  | cons c name ih =>
    obtain ⟨hc, hcolon⟩ := not_or.1 (mt List.mem_cons.2 hcolon)
    obtain ⟨hc', hclose⟩ := not_or.1 (mt List.mem_cons.2 hclose)
    rw [List.cons_append, List.cons_append, ← ih hcolon hclose, trimFrom_cons .name nofun,
      Zone.next, if_neg (Ne.symm hc'), if_neg (Ne.symm hc)]

/-- Behind a token the next one begins, or the text outside of the braces. -/
theorem trimFrom_digits (hdigits : ∀ d ∈ digits, d.isDigit = true) (hc : c = ',' ∨ c = '}')
    (t : Text) : trimFrom .digits (digits ++ c :: t) = digits ++ trimFrom .name (c :: t) := by
  induction digits with
  | nil => rcases hc with rfl | rfl <;> rfl
  | cons d digits ih =>
    obtain ⟨hd, hdigits⟩ := List.forall_mem_cons.1 hdigits
    have hclose : d ≠ '}' := by
      rintro rfl
      cases hd
    have hcomma : d ≠ ',' := by
      rintro rfl
      cases hd
    rw [List.cons_append, List.cons_append, ← ih hdigits, trimFrom_cons .digits nofun]
    simp only [Zone.next, if_neg hclose, if_neg hcomma]

theorem trimFrom_zeros (hdigits : ∀ d ∈ digits, d.isDigit = true) (hc : c = ',' ∨ c = '}')
    (t : Text) : trimFrom .zeros (digits ++ c :: t) =
      digits.dropWhile (· = '0') ++ trimFrom .name (c :: t) := by
  induction digits with
  | nil => rcases hc with rfl | rfl <;> rfl
  | cons d digits ih =>
    by_cases hd : d = '0'
    · rw [hd, List.cons_append, trimFrom, ih (List.forall_mem_cons.1 hdigits).2,
        List.dropWhile_cons_of_pos (by simp)]
    · have hstep : trimFrom .zeros (d :: (digits ++ c :: t)) =
          trimFrom .digits (d :: (digits ++ c :: t)) := by
        rw [trimFrom_cons .zeros fun _ => hd, trimFrom_cons .digits nofun]
        rfl
      rw [List.dropWhile_cons_of_neg (by simpa using hd), List.cons_append, hstep,
        ← List.cons_append, trimFrom_digits hdigits hc]

theorem trimFrom_token (hx : x.Spelling token) (hclose : '}' ∉ token) (hc : c = ',' ∨ c = '}')
    (t : Text) : trimFrom .name (token ++ c :: t) = x.print ++ trimFrom .name (c :: t) := by
  cases hx with
  | whole hne hcolon hstar => exact trimFrom_name hcolon hclose _
  | exploded hne hcolon =>
    refine trimFrom_name ?_ hclose _
    simpa using hcolon
  | @truncated name digits n hne hcolon hstar hlength =>
    have hclose' : '}' ∉ name := fun hm => hclose (List.mem_append_left _ hm)
    show _ = (name ++ ':' :: natText n) ++ _
    rw [List.append_assoc, List.append_assoc, trimFrom_name hcolon hclose', hlength.natText,
      List.cons_append, List.cons_append, ← trimFrom_zeros hlength.isDigit hc]
    rfl

/-- printing adds no character -/
theorem print_subset (hx : x.Spelling token) : x.print ⊆ token := by
  cases hx with
  | whole => exact List.Subset.refl _
  | exploded => exact List.Subset.refl _
  | @truncated name digits n _ _ _ hlength =>
    have hsub : natText n ⊆ digits := hlength.natText ▸ (List.dropWhile_suffix _).subset
    intro c hc
    rcases List.mem_append.1 hc with hc | hc
    · exact List.mem_append_left _ hc
    · exact List.mem_append_right _ (List.cons_subset_cons _ hsub hc)

theorem not_padded_of_not_mem (h : ':' ∉ token) : ¬Padded token := by
  rintro ⟨name, digits, rfl, -⟩
  exact h (List.mem_append_right _ List.mem_cons_self)

theorem print_eq_token_iff (hx : x.Spelling token) : x.print = token ↔ ¬Padded token := by
  cases hx with
  | whole hne hcolon => exact iff_of_true rfl (not_padded_of_not_mem hcolon)
  | exploded hne hcolon => exact iff_of_true rfl (not_padded_of_not_mem (by simpa using hcolon))
  | @truncated name digits n hne hcolon hstar hlength =>
    have hpadded : Padded (name ++ ':' :: digits) ↔ digits.head? = some '0' := by
      constructor
      · rintro ⟨name', digits', heq, hcolon'⟩
        have hdrop := congrArg (List.dropWhile (· ≠ ':')) heq
        rw [dropWhile_ne_append hcolon, dropWhile_ne_append hcolon'] at hdrop
        cases hdrop
        rfl
      · intro h
        obtain ⟨digits', rfl⟩ := List.head?_eq_some_iff.1 h
        exact ⟨name, digits', rfl, hcolon⟩
    show name ++ ':' :: natText n = name ++ ':' :: digits ↔ _
    rw [hpadded, List.append_cancel_left_eq, List.cons.injEq, hlength.natText]
    cases digits with
    | nil => exact absurd rfl hlength.ne_nil
    | cons d digits =>
      rw [List.head?_cons, Option.some.injEq]
      by_cases hd : d = '0'
      · refine iff_of_false (fun h => ?_) (fun h => h hd)
        have hlen := (List.dropWhile_suffix (l := digits) (· = '0')).length_le
        rw [List.dropWhile_cons_of_pos (by simpa using hd)] at h
        rw [h.2, List.length_cons] at hlen
        omega
      · exact iff_of_true ⟨rfl, List.dropWhile_cons_of_neg (by simpa using hd)⟩ hd

end

/-! ### bodies -/

/-- the text of an expression between its braces -/
def Expression.body (e : Expression) : Text :=
  e.operator.sign.toList ++ [','].intercalate (e.vars.map Variable.print)

theorem Expression.print_eq (e : Expression) : e.print = '{' :: (e.body ++ ['}']) := by
  unfold print body
  simp only [List.append_assoc]

section
variable {e : Expression} {operator : Operator} {xs : List Variable} {tokens : List Text}
  {body t : Text}

theorem trimFrom_tokens (h : List.Forall₂ Variable.Spelling xs tokens)
    (hclose : ∀ token ∈ tokens, '}' ∉ token) (hne : tokens ≠ []) (t : Text) :
    trimFrom .name ([','].intercalate tokens ++ '}' :: t) =
      [','].intercalate (xs.map Variable.print) ++ '}' :: trimFrom .outside t := by
  induction h with
  | nil => exact absurd rfl hne
  | @cons x token xs tokens hx hxs ih =>
    obtain ⟨htoken, htokens⟩ := List.forall_mem_cons.1 hclose
    cases hxs with
    | nil =>
      rw [List.map_cons, List.map_nil, List.intercalate_singleton, List.intercalate_singleton,
        trimFrom_token hx htoken (.inr rfl)]
      rfl
    | cons hy hys =>
      have hrest := ih htokens (List.cons_ne_nil _ _)
      simp only [List.map_cons, List.intercalate_cons_cons, List.append_assoc,
        List.cons_append] at hrest ⊢
      rw [trimFrom_token hx htoken (.inl rfl), trimFrom_cons .name nofun, ← hrest]
      rfl

theorem sign_not_mem (operator : Operator) :
    ':' ∉ operator.sign.toList ∧ '{' ∉ operator.sign.toList ∧ '}' ∉ operator.sign.toList := by
  cases operator <;> decide

theorem trimFrom_body (he : e.Spelling body) (hbody : BraceFree body) (t : Text) :
    trimFrom .name (body ++ '}' :: t) = e.body ++ '}' :: trimFrom .outside t := by
  obtain ⟨tokens, hcut, hvars⟩ := he
  obtain ⟨hcolon, -, hclose⟩ := sign_not_mem e.operator
  have htokens : ∀ token ∈ tokens, '}' ∉ token := fun token ht hm =>
    hbody.2 (hcut.subset ht hm)
  rw [hcut.text, List.append_assoc, trimFrom_name hcolon hclose,
    trimFrom_tokens hvars htokens hcut.ne_nil, Expression.body, List.append_assoc]

theorem map_print_eq_iff (h : List.Forall₂ Variable.Spelling xs tokens) :
    xs.map Variable.print = tokens ↔ ∀ token ∈ tokens, ¬Padded token := by
  induction h with
  | nil => exact iff_of_true rfl (by simp)
  | cons hx _ ih =>
    rw [List.map_cons, List.cons.injEq, print_eq_token_iff hx, ih, List.forall_mem_cons]

theorem not_mem_print {c : Char} {x : Variable} (h : List.Forall₂ Variable.Spelling xs tokens)
    (hc : ∀ token ∈ tokens, c ∉ token) (hx : x ∈ xs) : c ∉ x.print := by
  obtain ⟨token, htoken, hx⟩ := exists_of_mem_forall₂ h hx
  exact fun hm => hc token htoken (print_subset hx hm)

theorem body_eq_iff (hcut : Cut e.operator tokens body)
    (hvars : List.Forall₂ Variable.Spelling e.vars tokens) :
    e.body = body ↔ ∀ token ∈ tokens, ¬Padded token := by
  have hne : e.vars.map Variable.print ≠ [] := by
    have hlen := hvars.length_eq
    intro hnil
    rw [List.map_eq_nil_iff.1 hnil] at hlen
    exact hcut.ne_nil (List.eq_nil_of_length_eq_zero hlen.symm)
  have hcomma : ∀ u ∈ e.vars.map Variable.print, ',' ∉ u := by
    intro u hu
    obtain ⟨x, hx, rfl⟩ := List.mem_map.1 hu
    exact not_mem_print hvars hcut.no_comma hx
  rw [← map_print_eq_iff hvars, Expression.body, hcut.text, List.append_cancel_left_eq]
  constructor
  · intro h
    rw [← List.splitOn_intercalate ',' hcomma hne, h,
      List.splitOn_intercalate ',' hcut.no_comma hcut.ne_nil]
  · exact congrArg _

theorem not_mem_body {c : Char} (hsign : c ∉ e.operator.sign.toList) (hc : c ≠ ',')
    (hvars : ∀ x ∈ e.vars, c ∉ x.print) : c ∉ e.body := by
  intro hm
  rcases List.mem_append.1 hm with hm | hm
  · exact hsign hm
  · rcases eq_or_mem_of_mem_intercalate hm with heq | ⟨u, hu, hm⟩
    · exact hc heq
    · obtain ⟨x, hx, rfl⟩ := List.mem_map.1 hu
      exact hvars x hx hm

theorem braceFree_body (he : e.Spelling body) (hbody : BraceFree body) : BraceFree e.body := by
  obtain ⟨tokens, hcut, hvars⟩ := he
  obtain ⟨-, hopen, hclose⟩ := sign_not_mem e.operator
  refine ⟨not_mem_body hopen (by decide) fun x hx => ?_,
    not_mem_body hclose (by decide) fun x hx => ?_⟩
  · exact not_mem_print hvars (fun token ht hm => hbody.1 (hcut.subset ht hm)) hx
  · exact not_mem_print hvars (fun token ht hm => hbody.2 (hcut.subset ht hm)) hx

end

/-! ### templates -/

section
variable {l body t : Text} {e : Expression} {ps : List Part} {tokens : List Text}

theorem print_literalParts_append (l : Text) (ps : List Part) :
    print (literalParts l ++ ps) = l ++ print ps := by
  cases l with
  | nil => rfl
  | cons c l => rfl

theorem print_literalParts (l : Text) : print (literalParts l) = l := by
  have h := print_literalParts_append l []
  rw [List.append_nil] at h
  exact h.trans (List.append_nil l)

theorem print_expression_cons (l : Text) (e : Expression) (ps : List Part) :
    print (literalParts l ++ .expression e :: ps) = l ++ '{' :: (e.body ++ '}' :: print ps) := by
  have hcons : print (.expression e :: ps) = e.print ++ print ps := rfl
  rw [print_literalParts_append, hcons, e.print_eq, List.cons_append, List.append_assoc]
  rfl

theorem print_orEmptyLiteral (ps : List Part) : print (orEmptyLiteral ps) = print ps := by
  cases ps with
  | nil => rfl
  | cons p ps => rfl

theorem print_eq_trimLengths (h : Spelling ps t) : print ps = trimLengths t := by
  unfold trimLengths
  induction h with
  | @literal l hl =>
    have htrim := trimFrom_outside hl []
    rw [List.append_nil] at htrim
    rw [print_literalParts, htrim]
    exact (List.append_nil l).symm
  | expression hl hbody he _ ih =>
    rw [print_expression_cons, trimFrom_outside hl, trimFrom_cons .outside nofun, ih]
    exact congrArg _ (congrArg _ (trimFrom_body he hbody _).symm)

theorem not_padsLength_of_not_mem (hl : '{' ∉ l) : ¬PadsLength l := by
  rintro ⟨front, body, behind, operator, tokens, rfl, -⟩
  exact hl (List.mem_append_right _ List.mem_cons_self)

theorem padsLength_expression_iff {operator : Operator} (hl : '{' ∉ l) (hbody : BraceFree body)
    (hcut : Cut operator tokens body) : PadsLength (l ++ '{' :: (body ++ '}' :: t)) ↔
      (∃ token ∈ tokens, Padded token) ∨ PadsLength t := by
  constructor
  · rintro ⟨front, body', behind, operator', tokens', heq, hbody', hcut', hpadded⟩
    rcases expression_cases hl hbody heq with ⟨-, heq⟩ | ⟨front', -, rfl⟩
    · obtain ⟨rfl, -⟩ := append_close_inj hbody hbody' heq.symm
      obtain ⟨-, rfl⟩ := cut_iff.1 hcut
      obtain ⟨-, rfl⟩ := cut_iff.1 hcut'
      exact .inl hpadded
    · exact .inr ⟨front', body', behind, operator', tokens', rfl, hbody', hcut', hpadded⟩
  · rintro (hpadded | ⟨front, body', behind, operator', tokens', rfl, h⟩)
    · exact ⟨l, body, t, operator, tokens, rfl, hbody, hcut, hpadded⟩
    · refine ⟨l ++ '{' :: (body ++ '}' :: front), body', behind, operator', tokens', ?_, h⟩
      simp only [List.append_assoc, List.cons_append]

theorem print_eq_iff (h : Spelling ps t) : print ps = t ↔ ¬PadsLength t := by
  induction h with
  | literal hl => exact iff_of_true (print_literalParts _) (not_padsLength_of_not_mem hl)
  | @expression l body t e ps hl hbody he _ ih =>
    have hfree := braceFree_body he hbody
    obtain ⟨tokens, hcut, hvars⟩ := he
    rw [print_expression_cons, padsLength_expression_iff hl hbody hcut, not_or, ← ih,
      List.append_cancel_left_eq, List.cons.injEq]
    have htokens : e.body = body ↔ ¬∃ token ∈ tokens, Padded token := by
      rw [body_eq_iff hcut hvars]
      simp only [not_exists, not_and]
    rw [← htokens]
    constructor
    · rintro ⟨-, heq⟩
      exact append_close_inj hfree hbody heq
    · rintro ⟨rfl, rfl⟩
      exact ⟨rfl, rfl⟩

end

/-! ### well-formed parts -/

section
variable {x : Variable} {e : Expression} {ps : List Part}

theorem Variable.WellFormed.spelling (h : x.WellFormed) : x.Spelling x.print := by
  obtain ⟨name, modifier⟩ := x
  have hcolon : ':' ∉ name := fun hm => (h.name_chars _ hm).2.2.2 rfl
  cases modifier with
  | whole => exact .whole h.name_ne_nil hcolon (h.name_star rfl)
  | truncated n =>
    exact .truncated h.name_ne_nil hcolon (h.name_star rfl) (isLength_natText (h.length n rfl))
  | exploded => exact .exploded h.name_ne_nil hcolon

theorem Variable.WellFormed.print_chars (h : x.WellFormed) :
    ∀ c ∈ x.print, c ≠ '{' ∧ c ≠ '}' ∧ c ≠ ',' := by
  have hname : ∀ c ∈ x.name, c ≠ '{' ∧ c ≠ '}' ∧ c ≠ ',' := fun c hc =>
    ⟨(h.name_chars c hc).1, (h.name_chars c hc).2.1, (h.name_chars c hc).2.2.1⟩
  obtain ⟨name, modifier⟩ := x
  intro c hc
  cases modifier with
  | whole => exact hname c hc
  | truncated n =>
    rcases List.mem_append.1 hc with hc | hc
    · exact hname c hc
    · rcases List.mem_cons.1 hc with rfl | hc
      · decide
      · have hdigit := (isLength_natText (h.length n rfl)).isDigit c hc
        refine ⟨?_, ?_, ?_⟩ <;>
        · rintro rfl
          cases hdigit
  | exploded =>
    rcases List.mem_append.1 hc with hc | hc
    · exact hname c hc
    · obtain rfl := List.mem_singleton.1 hc
      decide

/-- the first name starts the body of an expression without a sign -/
theorem Expression.WellFormed.head?_body (h : e.WellFormed) (hsimple : e.operator = .simple) :
    ∃ x ∈ e.vars.head?, e.body.head? = x.name.head? := by
  obtain ⟨x, xs, hvars⟩ := List.exists_cons_of_ne_nil h.vars_ne_nil
  have hx : x ∈ e.vars := hvars ▸ List.mem_cons_self
  refine ⟨x, by rw [hvars]; rfl, ?_⟩
  have hprefix : x.name <+: e.body := by
    refine (h.vars x hx).spelling.name_prefix.trans ?_
    rw [body, hsimple, hvars]
    exact prefix_intercalate_cons ',' _ _
  obtain ⟨rest, hrest⟩ := hprefix
  rw [← hrest, List.head?_append_of_ne_nil _ (h.vars x hx).name_ne_nil]

theorem Expression.WellFormed.spelling (h : e.WellFormed) : e.Spelling e.body := by
  refine ⟨e.vars.map Variable.print, ⟨rfl, ?_, ?_, ?_⟩, ?_⟩
  · exact fun hnil => h.vars_ne_nil (List.map_eq_nil_iff.1 hnil)
  · intro token ht hm
    obtain ⟨x, hx, rfl⟩ := List.mem_map.1 ht
    exact ((h.vars x hx).print_chars _ hm).2.2 rfl
  · intro hsimple c hc
    obtain ⟨x, hx, hhead⟩ := h.head?_body hsimple
    exact h.no_sign hsimple x hx c (hhead ▸ hc)
  · rw [List.forall₂_map_right_iff, List.forall₂_same]
    exact fun x hx => (h.vars x hx).spelling

theorem Expression.WellFormed.braceFree (h : e.WellFormed) : BraceFree e.body := by
  obtain ⟨-, hopen, hclose⟩ := sign_not_mem e.operator
  refine ⟨not_mem_body hopen (by decide) fun x hx hm => ?_,
    not_mem_body hclose (by decide) fun x hx hm => ?_⟩
  · exact ((h.vars x hx).print_chars _ hm).1 rfl
  · exact ((h.vars x hx).print_chars _ hm).2.1 rfl

/-- Literal text in front of parts that do not begin with a literal is one more part. -/
theorem Regular.spelling_append {l : Text} (h : Regular ps) (hl : '{' ∉ l)
    (hhead : l = [] ∨ ∀ u, ps.head? ≠ some (.literal u)) :
    Spelling (literalParts l ++ ps) (l ++ print ps) := by
  induction ps generalizing l with
  | nil =>
    rw [List.append_nil, print, List.flatMap_nil, List.append_nil]
    exact .literal hl
  | cons p ps ih =>
    cases p with
    | literal t =>
      obtain ⟨⟨ht, hopen⟩, hnext, hps⟩ := h
      obtain rfl : l = [] := by
        rcases hhead with hl | hhead
        · exact hl
        · exact absurd rfl (hhead t)
      have hrest := ih hps hopen (.inr hnext)
      rw [literalParts_of_ne_nil ht] at hrest
      exact hrest
    | expression e =>
      obtain ⟨he, hps⟩ := h
      have hrest := ih hps List.not_mem_nil (.inl rfl)
      rw [← print_literalParts_append, print_expression_cons]
      exact .expression hl he.braceFree he.spelling hrest

theorem parse_print (h : WellFormed ps) : parse (print ps) = .ok ⟨print ps, ps⟩ := by
  rcases h with rfl | ⟨hne, h⟩
  · rfl
  · have hspelling := h.spelling_append (l := []) List.not_mem_nil (.inl rfl)
    refine parse_eq_ok_iff.2 ⟨ps, hspelling, ?_⟩
    cases ps with
    | nil => exact absurd rfl hne
    | cons p ps => rfl

end

/-- Well-formed parts are what is read from their text, and what is read from a text is well-formed
and prints to it without the zeros in front of its lengths. -/
theorem parse_print_inverse :
    (∀ ps, WellFormed ps → parse (print ps) = .ok ⟨print ps, ps⟩) ∧
    ∀ t tpl, parse t = .ok tpl → tpl.source = t ∧ WellFormed tpl.parts ∧
      print tpl.parts = trimLengths t ∧ (print tpl.parts = t ↔ ¬PadsLength t) := by
  refine ⟨fun ps => parse_print, fun t tpl h => ?_⟩
  have hwell := wellFormed_of_parse h
  obtain ⟨ps, hps, rfl⟩ := parse_eq_ok_iff.1 h
  dsimp only
  rw [print_orEmptyLiteral]
  exact ⟨rfl, hwell, print_eq_trimLengths hps, print_eq_iff hps⟩

/-- a stray closing brace, a name with a sign and a star in it, and a length with zeros in front -/
theorem parse_print_inverse_padded :
    parse (print [.literal ['}'], .expression ⟨.simple, [⟨['a', '*'], .exploded⟩]⟩]) =
      .ok ⟨['}', '{', 'a', '*', '*', '}'],
        [.literal ['}'], .expression ⟨.simple, [⟨['a', '*'], .exploded⟩]⟩]⟩ ∧
    print [.expression ⟨.query, [⟨['+'], .truncated 30⟩]⟩] =
      trimLengths ['{', '?', '+', ':', '0', '3', '0', '}'] ∧
    PadsLength ['{', '?', '+', ':', '0', '3', '0', '}'] := by
  refine ⟨parse_print_inverse.1 _ ?_, ?_⟩
  · refine .inr ⟨List.cons_ne_nil _ _, ⟨by decide, by decide⟩, ?_, ⟨?_, ?_, ?_⟩, trivial⟩
    · simp
    · exact List.cons_ne_nil _ _
    · intro x hx
      obtain rfl := List.mem_singleton.1 hx
      exact ⟨by decide, by simp, by decide, fun n hn => by cases hn⟩
    · intro _ x hx c hc
      cases hx
      cases hc
      rfl
  · have hparse : parse ['{', '?', '+', ':', '0', '3', '0', '}'] =
        .ok ⟨['{', '?', '+', ':', '0', '3', '0', '}'],
          [.expression ⟨.query, [⟨['+'], .truncated 30⟩]⟩]⟩ := by rfl
    obtain ⟨-, -, htrim, hiff⟩ := parse_print_inverse.2 _ _ hparse
    exact ⟨htrim, not_not.1 fun h => absurd (hiff.2 h) (by decide)⟩

end UriTemplate
