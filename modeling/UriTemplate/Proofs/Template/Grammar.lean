import UriTemplate.Template.Parse
import UriTemplate.Proofs.Lists

/-!
# How expressions are written

Expressions as texts, apart from the reader. A body is an operator's sign, or none, and tokens
between commas; a token is a name, a name with a star, or a name, a colon and digits.

* `Variable.Spelling`, `Expression.Spelling`   the texts of a variable and of an expression. Only the
                                               digits of a length can be written in several ways;
* `TokenFault`, `BodyFault`                    what is wrong with any other text;
* `ofBody_eq_ok_iff`, `ofBody_eq_error_iff`    the reader takes the first and reports the second.
-/

namespace UriTemplate

/-! ### tokens -/

/-- digits of a length: no more than numbers are read with, and a value in range -/
structure IsLength (digits : Text) (n : Nat) : Prop where
  ne_nil : digits ≠ []
  isDigit : ∀ c ∈ digits, c.isDigit = true
  readable : digits.length ≤ maxDigits
  value : Nat.ofDigitChars 10 digits 0 = n
  range : 1 ≤ n ∧ n ≤ maxLength

inductive Variable.Spelling : Variable → Text → Prop
  | whole {name : Text} (hne : name ≠ []) (hcolon : ':' ∉ name)
      (hstar : name.getLast? ≠ some '*') : Spelling ⟨name, .whole⟩ name
  | exploded {name : Text} (hne : name ≠ []) (hcolon : ':' ∉ name) :
      Spelling ⟨name, .exploded⟩ (name ++ ['*'])
  | truncated {name digits : Text} {n : Nat} (hne : name ≠ []) (hcolon : ':' ∉ name)
      (hstar : name.getLast? ≠ some '*') (hlength : IsLength digits n) :
      Spelling ⟨name, .truncated n⟩ (name ++ ':' :: digits)

theorem Variable.Spelling.name_prefix {x : Variable} {token : Text} (h : x.Spelling token) :
    x.name <+: token := by
  cases h with
  | whole => exact List.prefix_refl _
  | exploded => exact List.prefix_append _ _
  | truncated => exact List.prefix_append _ _

/-- what is wrong with a name that has a colon and these digits behind it -/
inductive LengthFault (name digits : Text) : Fault → Prop
  | exploded (h : name.getLast? = some '*') : LengthFault name digits (.invalidLength digits name)
  | missing (h : digits = []) : LengthFault name digits (.invalidLength digits name)
  | notDigits (h : ∃ c ∈ digits, c.isDigit = false) :
      LengthFault name digits (.invalidLength digits name)
  | outOfRange (hreadable : digits.length ≤ maxDigits)
      (h : ¬(1 ≤ Nat.ofDigitChars 10 digits 0 ∧ Nat.ofDigitChars 10 digits 0 ≤ maxLength)) :
      LengthFault name digits (.invalidLength digits name)
  | oversized (hstar : name.getLast? ≠ some '*') (hdigits : ∀ c ∈ digits, c.isDigit = true)
      (h : maxDigits < digits.length) : LengthFault name digits (.oversizedLength digits.length)

/-- what is wrong with a token; a name that is missing comes first -/
inductive TokenFault : Text → Fault → Prop
  | empty : TokenFault [] .emptyName
  | star : TokenFault ['*'] .emptyName
  | colon (digits : Text) : TokenFault (':' :: digits) .emptyName
  | length {name digits : Text} {f : Fault} (hne : name ≠ []) (hcolon : ':' ∉ name)
      (h : LengthFault name digits f) : TokenFault (name ++ ':' :: digits) f

section
variable {name digits token : Text} {x : Variable} {n : Nat} {f : Fault}

theorem lengthOfDigits_eq_ok_iff :
    lengthOfDigits name digits = .ok n ↔ name.getLast? ≠ some '*' ∧ IsLength digits n := by
  unfold lengthOfDigits
  constructor
  · intro h
    split at h
    · cases h
    · next hform =>
      simp only [Bool.or_eq_true, decide_eq_true_eq, List.isEmpty_iff, Bool.not_eq_true', not_or,
        Bool.not_eq_false] at hform
      obtain ⟨⟨hstar, hne⟩, hdigits⟩ := hform
      split at h
      · cases h
      · next hreadable =>
        dsimp only at h
        split at h
        · next hrange =>
          cases h
          exact ⟨hstar, hne, List.all_eq_true.1 hdigits, Nat.le_of_not_lt hreadable, rfl, hrange⟩
        · cases h
  · rintro ⟨hstar, hlength⟩
    obtain ⟨hne, hdigits, hreadable, rfl, hrange⟩ := hlength
    have hall : digits.all Char.isDigit = true := List.all_eq_true.2 hdigits
    rw [if_neg (by simp [hstar, hne, hall]), if_neg (Nat.not_lt.2 hreadable)]
    exact if_pos hrange

theorem lengthOfDigits_eq_error_iff :
    lengthOfDigits name digits = .error f ↔ LengthFault name digits f := by
  unfold lengthOfDigits
  constructor
  · intro h
    split at h
    · next hform =>
      cases h
      simp only [Bool.or_eq_true, decide_eq_true_eq, List.isEmpty_iff, Bool.not_eq_true',
        List.all_eq_false, Bool.not_eq_true] at hform
      rcases hform with (h | h) | h
      · exact .exploded h
      · exact .missing h
      · exact .notDigits h
    · next hform =>
      simp only [Bool.or_eq_true, decide_eq_true_eq, List.isEmpty_iff, Bool.not_eq_true', not_or,
        Bool.not_eq_false] at hform
      obtain ⟨⟨hstar, -⟩, hdigits⟩ := hform
      split at h
      · next hlong =>
        cases h
        exact .oversized hstar (List.all_eq_true.1 hdigits) hlong
      · next hreadable =>
        dsimp only at h
        split at h
        · cases h
        · next hrange =>
          cases h
          exact .outOfRange (Nat.le_of_not_lt hreadable) hrange
  · intro h
    cases h with
    | exploded h => rw [if_pos (by simp [h])]
    | missing h => rw [if_pos (by simp [h])]
    | notDigits h =>
      obtain ⟨c, hc, hd⟩ := h
      have hall : digits.all Char.isDigit = false := List.all_eq_false.2 ⟨c, hc, by simp [hd]⟩
      rw [if_pos (by simp [hall])]
    | outOfRange hreadable h =>
      split
      · rfl
      · rw [if_neg (Nat.not_lt.2 hreadable)]
        exact if_neg h
    | oversized hstar hdigits h =>
      have hall : digits.all Char.isDigit = true := List.all_eq_true.2 hdigits
      have hne : digits ≠ [] := fun hnil => by
        rw [hnil] at h
        cases h
      rw [if_neg (by simp [hstar, hne, hall]), if_pos h]

/-- A token without a colon is a name, with a star or without. -/
theorem Variable.ofToken_of_not_mem (h : ':' ∉ token) : ofToken token =
    if token.getLast? = some '*' then
      if token.dropLast = [] then .error .emptyName else .ok ⟨token.dropLast, .exploded⟩
    else if token = [] then .error .emptyName else .ok ⟨token, .whole⟩ := by
  unfold ofToken
  rw [dropWhile_ne_of_not_mem h]
  by_cases hstar : token.getLast? = some '*'
  · simp only [if_pos hstar, List.isEmpty_iff]
  · simp only [if_neg hstar, List.isEmpty_iff]

/-- The first colon of a token ends the name. -/
theorem Variable.ofToken_append (h : ':' ∉ name) : ofToken (name ++ ':' :: digits) =
    if name = [] then .error .emptyName
    else (lengthOfDigits name digits).map fun n => ⟨name, .truncated n⟩ := by
  unfold ofToken
  rw [takeWhile_ne_append h, dropWhile_ne_append h]
  simp only [List.isEmpty_iff]
  split
  · rfl
  · cases lengthOfDigits name digits <;> rfl

/-- a token without a colon, or a name and what follows its colon -/
theorem token_cases (token : Text) :
    ':' ∉ token ∨ ∃ name digits, token = name ++ ':' :: digits ∧ ':' ∉ name := by
  by_cases h : ':' ∈ token
  · obtain ⟨name, digits, heq, hname⟩ := List.eq_append_cons_of_mem h
    exact .inr ⟨name, digits, heq, hname⟩
  · exact .inl h

theorem Variable.ofToken_eq_ok_iff : ofToken token = .ok x ↔ x.Spelling token := by
  constructor
  · intro h
    rcases token_cases token with hcolon | ⟨name, digits, rfl, hcolon⟩
    · rw [ofToken_of_not_mem hcolon] at h
      split at h
      · next hstar =>
        split at h
        · cases h
        · next hne =>
          cases h
          obtain ⟨name, rfl⟩ := List.getLast?_eq_some_iff.1 hstar
          rw [List.dropLast_concat] at hne ⊢
          exact .exploded hne fun hm => hcolon (List.mem_append_left _ hm)
      · next hstar =>
        split at h
        · cases h
        · next hne =>
          cases h
          exact .whole hne hcolon hstar
    · rw [ofToken_append hcolon] at h
      split at h
      · cases h
      · next hne =>
        obtain ⟨n, hn, rfl⟩ := map_eq_ok_iff.1 h
        obtain ⟨hstar, hlength⟩ := lengthOfDigits_eq_ok_iff.1 hn
        exact .truncated hne hcolon hstar hlength
  · intro h
    cases h with
    | whole hne hcolon hstar => rw [ofToken_of_not_mem hcolon, if_neg hstar, if_neg hne]
    | @exploded name hne hcolon =>
      have hcolon' : ':' ∉ name ++ ['*'] := by simpa using hcolon
      rw [ofToken_of_not_mem hcolon', if_pos List.getLast?_concat, List.dropLast_concat,
        if_neg hne]
    | truncated hne hcolon hstar hlength =>
      rw [ofToken_append hcolon, if_neg hne, lengthOfDigits_eq_ok_iff.2 ⟨hstar, hlength⟩]
      rfl

theorem Variable.ofToken_eq_error_iff : ofToken token = .error f ↔ TokenFault token f := by
  constructor
  · intro h
    rcases token_cases token with hcolon | ⟨name, digits, rfl, hcolon⟩
    · rw [ofToken_of_not_mem hcolon] at h
      split at h
      · next hstar =>
        split at h
        · next hnil =>
          cases h
          obtain ⟨name, rfl⟩ := List.getLast?_eq_some_iff.1 hstar
          rw [List.dropLast_concat] at hnil
          rw [hnil]
          exact .star
        · cases h
      · split at h
        · next hnil =>
          cases h
          rw [hnil]
          exact .empty
        · cases h
    · rw [ofToken_append hcolon] at h
      split at h
      · next hnil =>
        cases h
        rw [hnil]
        exact .colon digits
      · next hne =>
        exact .length hne hcolon (lengthOfDigits_eq_error_iff.1 (map_eq_error_iff.1 h))
  · intro h
    cases h with
    | empty => rfl
    | star => rfl
    | colon digits => rw [← List.nil_append (':' :: digits), ofToken_append List.not_mem_nil]; rfl
    | length hne hcolon h =>
      rw [ofToken_append hcolon, if_neg hne, lengthOfDigits_eq_error_iff.2 h]
      rfl

end

/-! ### bodies -/

/-- A body is the sign of an operator and tokens with commas between. Without a sign it does not
begin with one. -/
structure Cut (operator : Operator) (tokens : List Text) (body : Text) : Prop where
  text : body = operator.sign.toList ++ [','].intercalate tokens
  ne_nil : tokens ≠ []
  no_comma : ∀ token ∈ tokens, ',' ∉ token
  no_sign : operator = .simple → ∀ c ∈ body.head?, Operator.ofChar? c = none

theorem Cut.subset {operator : Operator} {tokens : List Text} {body token : Text}
    (h : Cut operator tokens body) (htoken : token ∈ tokens) : token ⊆ body := by
  rw [h.text]
  exact List.subset_append_of_subset_right _ (infix_intercalate_of_mem htoken).subset

def Expression.Spelling (e : Expression) (body : Text) : Prop :=
  ∃ tokens, Cut e.operator tokens body ∧ List.Forall₂ Variable.Spelling e.vars tokens

/-- what is wrong with a body: nothing is in it, or its first bad token -/
inductive BodyFault : Text → Fault → Prop
  | empty : BodyFault [] .emptyExpression
  | token {operator : Operator} {good more : List Text} {bad body : Text} {f : Fault}
      (hne : body ≠ []) (hcut : Cut operator (good ++ bad :: more) body)
      (hgood : ∀ token ∈ good, ∃ x, Variable.Spelling x token) (hbad : TokenFault bad f) :
      BodyFault body f

section
variable {operator : Operator} {tokens : List Text} {body list : Text} {e : Expression} {f : Fault}

theorem takeOperator_eq_iff : takeOperator body = (operator, list) ↔
    body = operator.sign.toList ++ list ∧
      (operator = .simple → ∀ c ∈ body.head?, Operator.ofChar? c = none) := by
  constructor
  · intro h
    cases body with
    | nil =>
      cases h
      exact ⟨rfl, fun _ c hc => by cases hc⟩
    | cons c t =>
      simp only [takeOperator] at h
      split at h
      · next o ho =>
        cases h
        have hsign := Operator.ofChar?_eq_some.1 ho
        rw [hsign]
        refine ⟨rfl, fun hsimple => ?_⟩
        rw [hsimple] at hsign
        cases hsign
      · next hnone =>
        cases h
        refine ⟨rfl, fun _ d hd => ?_⟩
        cases hd
        exact hnone
  · rintro ⟨htext, hsign⟩
    cases ho : operator.sign with
    | some c =>
      rw [ho] at htext
      rw [htext]
      simp only [Option.toList_some, List.singleton_append, takeOperator,
        Operator.ofChar?_eq_some.2 ho]
    | none =>
      have hsimple : operator = .simple := by
        cases operator <;> first | rfl | cases ho
      rw [ho] at htext
      cases body with
      | nil =>
        rw [hsimple, ← show [] = list from htext]
        rfl
      | cons c t =>
        simp only [takeOperator, hsign hsimple c rfl, hsimple]
        rw [← show c :: t = list from htext]

theorem cut_iff : Cut operator tokens body ↔
    (takeOperator body).1 = operator ∧ (takeOperator body).2.splitOn ',' = tokens := by
  constructor
  · rintro ⟨htext, hne, hcomma, hsign⟩
    rw [takeOperator_eq_iff.2 ⟨htext, hsign⟩]
    exact ⟨rfl, List.splitOn_intercalate ',' hcomma hne⟩
  · rintro ⟨rfl, rfl⟩
    obtain ⟨htext, hsign⟩ := takeOperator_eq_iff.1 (Eq.refl (takeOperator body))
    refine ⟨?_, List.splitOn_ne_nil _ _, fun token h => not_mem_of_mem_splitOn h, hsign⟩
    rw [List.intercalate_splitOn]
    exact htext

/-- every body is cut, in one way -/
theorem cut_takeOperator (body : Text) :
    Cut (takeOperator body).1 ((takeOperator body).2.splitOn ',') body :=
  cut_iff.2 ⟨rfl, rfl⟩

theorem Expression.ofBody_of_cut (hne : body ≠ []) (hcut : Cut operator tokens body) :
    ofBody body = (tokens.mapM Variable.ofToken).map fun vars => ⟨operator, vars⟩ := by
  obtain ⟨rfl, rfl⟩ := cut_iff.1 hcut
  unfold ofBody
  rw [if_neg (by simpa using hne)]
  generalize takeOperator body = ol
  dsimp only
  cases (ol.2.splitOn ',').mapM Variable.ofToken <;> rfl

theorem Expression.ofBody_eq_ok_iff : ofBody body = .ok e ↔ e.Spelling body := by
  constructor
  · intro h
    have hne : body ≠ [] := by
      rintro rfl
      cases h
    have hcut := cut_takeOperator body
    rw [ofBody_of_cut hne hcut, map_eq_ok_iff] at h
    obtain ⟨vars, hvars, rfl⟩ := h
    exact ⟨_, hcut, (mapM_eq_ok_iff.1 hvars).imp fun _ _ => Variable.ofToken_eq_ok_iff.1⟩
  · rintro ⟨tokens, hcut, hvars⟩
    have hm : tokens.mapM Variable.ofToken = .ok e.vars :=
      mapM_eq_ok_iff.2 (hvars.imp fun _ _ => Variable.ofToken_eq_ok_iff.2)
    have hne : body ≠ [] := by
      rintro rfl
      obtain ⟨-, rfl⟩ := cut_iff.1 hcut
      cases hm
    rw [ofBody_of_cut hne hcut, hm]
    rfl

theorem Expression.ofBody_eq_error_iff : ofBody body = .error f ↔ BodyFault body f := by
  by_cases hne : body = []
  · rw [hne]
    constructor
    · intro h
      cases h
      exact .empty
    · intro h
      cases h with
      | empty => rfl
      | token hne => exact absurd rfl hne
  · have hmap {o : Operator} {tokens : List Text} (hcut : Cut o tokens body) :
        ofBody body = .error f ↔ tokens.mapM Variable.ofToken = .error f := by
      rw [ofBody_of_cut hne hcut, map_eq_error_iff]
    constructor
    · intro h
      have hcut := cut_takeOperator body
      obtain ⟨good, bad, more, heq, hgood, hbad⟩ := mapM_eq_error_iff.1 ((hmap hcut).1 h)
      refine .token hne (heq ▸ hcut) (fun token ht => ?_) (Variable.ofToken_eq_error_iff.1 hbad)
      obtain ⟨x, hx⟩ := hgood token ht
      exact ⟨x, Variable.ofToken_eq_ok_iff.1 hx⟩
    · intro h
      cases h with
      | empty => exact absurd rfl hne
      | @token _ good more bad _ _ _ hcut hgood hbad =>
        refine (hmap hcut).2 (mapM_eq_error_iff.2 ⟨good, bad, more, rfl, fun token ht => ?_,
          Variable.ofToken_eq_error_iff.2 hbad⟩)
        obtain ⟨x, hx⟩ := hgood token ht
        exact ⟨x, Variable.ofToken_eq_ok_iff.2 hx⟩

end

end UriTemplate
