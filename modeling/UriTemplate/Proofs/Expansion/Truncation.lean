import UriTemplate.Proofs.Expansion.Span

/-!
# Truncated expansions

A length cuts the text of a value before it is encoded. Where triplets pass through, the cut may lie
inside of one, and what is left of it is then encoded character by character: of `%41` two
characters leave `%254`.

* `LeavesEscapes`                      the cuts inside of no triplet, and those that do not show;
* `encode_take_prefix_iff`             behind such a cut, and no other, the encoded text is an initial
                                       segment of the encoded whole;
* `Expression.expand_truncated_iff`   and so is the expansion of a truncated variable.
-/

namespace UriTemplate

namespace Percent

/-- The cut behind `n` characters lies inside of no triplet, or the triplet is `%25` and what is left
of it is encoded to what stands there: to `%25`, and with its digit to the `%252` of a text that goes
on with a `2`. -/
def LeavesEscapes (t : Text) (n : Nat) : Prop :=
  ∀ i < n, n < i + 3 → isTripletAt t i = true →
    ['%', '2', '5'] ++ (t.take n).drop (i + 1) <+: t.drop i

instance (t : Text) (n : Nat) : Decidable (LeavesEscapes t n) :=
  inferInstanceAs (Decidable (∀ i < n, _ → _ → _))

section
variable {c hi lo : Char} {n : Nat} {t : Text}

/-! ### cuts -/

theorem leavesEscapes_zero (t : Text) : LeavesEscapes t 0 :=
  fun i hi => absurd hi (Nat.not_lt_zero i)

theorem leavesEscapes_succ (h : startsTriplet (c :: t) = true → 2 ≤ n) :
    LeavesEscapes (c :: t) (n + 1) ↔ LeavesEscapes t n := by
  constructor
  · intro hcut i hlt hgt htriplet
    exact hcut (i + 1) (by omega) (by omega) htriplet
  · intro hcut i hlt hgt htriplet
    cases i with
    | zero =>
      have hn := h htriplet
      omega
    | succ i => exact hcut i (by omega) (by omega) htriplet

theorem leavesEscapes_triplet (h : (isHexDigit hi && isHexDigit lo) = true) :
    LeavesEscapes ('%' :: hi :: lo :: t) (n + 3) ↔ LeavesEscapes t n := by
  obtain ⟨hhi, hlo⟩ := Bool.and_eq_true_iff.1 h
  have hhi' := not_startsTriplet_of_isHexDigit hhi (lo :: t)
  have hlo' := not_startsTriplet_of_isHexDigit hlo t
  rw [leavesEscapes_succ fun _ => Nat.le_add_left 2 n, leavesEscapes_succ fun h => absurd h hhi',
    leavesEscapes_succ fun h => absurd h hlo']

theorem leavesEscapes_inside (h : (isHexDigit hi && isHexDigit lo) = true) (hpos : 0 < n)
    (hlt : n < 3) : LeavesEscapes ('%' :: hi :: lo :: t) n ↔
      ['%', '2', '5'] ++ (('%' :: hi :: lo :: t).take n).drop 1 <+: '%' :: hi :: lo :: t := by
  constructor
  · exact fun hcut => hcut 0 hpos hlt h
  · intro hprefix i _ _ htriplet
    obtain rfl | rfl : i = 0 ∨ i = 1 := by omega
    · exact hprefix
    · have hhi := not_startsTriplet_of_isHexDigit (Bool.and_eq_true_iff.1 h).1 (lo :: t)
      exact absurd htriplet hhi

/-! ### encoding behind a cut -/

/-- a character that is kept stands in front of both or of neither -/
theorem singleton_prefix_encode_iff (hc : Allow.reserved.keeps c = true) :
    [c] <+: encode .reserved t ↔ [c] <+: t := by
  have hpercent : c ≠ '%' := by
    rintro rfl
    cases hc
  induction t using symbol_induction with
  | nil => rfl
  | triplet hi lo t hd _ =>
    rw [encode_reserved_triplet hd, List.cons_prefix_cons, List.cons_prefix_cons]
    exact iff_of_false (fun h => hpercent h.1) fun h => hpercent h.1
  | plain d t hd _ =>
    rw [encode_reserved_plain hd, List.cons_prefix_cons]
    unfold encodeChar
    split
    · rw [List.singleton_append, List.cons_prefix_cons]
      exact and_congr_right fun _ => iff_of_true List.nil_prefix List.nil_prefix
    · next hkeeps =>
      obtain ⟨b, bs, hb⟩ := List.exists_cons_of_ne_nil (Utf8.encodeChar_ne_nil d)
      rw [hb, List.flatMap_cons]
      refine iff_of_false (fun h => hpercent (List.cons_prefix_cons.1 h).1) ?_
      rintro ⟨rfl, -⟩
      exact hkeeps hc

theorem encode_take_prefix_iff (t : Text) (n : Nat) :
    encode .reserved (t.take n) <+: encode .reserved t ↔ LeavesEscapes t n := by
  induction t using symbol_induction generalizing n with
  | nil =>
    rw [List.take_nil]
    refine iff_of_true (List.prefix_refl _) fun i _ _ h => ?_
    rw [isTripletAt, List.drop_nil] at h
    cases h
  | plain c t hc ih =>
    cases n with
    | zero => exact iff_of_true List.nil_prefix (leavesEscapes_zero _)
    | succ n =>
      have hcut : ¬startsTriplet (c :: t.take n) = true := by
        intro h
        have ht := startsTriplet_append h (t.drop n)
        rw [List.take_append_drop] at ht
        exact hc ht
      rw [List.take_succ_cons, encode_reserved_plain hcut, encode_reserved_plain hc,
        List.prefix_append_right_inj, ih, leavesEscapes_succ fun h => absurd h hc]
  | triplet hi lo t hd ih =>
    match n with
    | 0 => exact iff_of_true List.nil_prefix (leavesEscapes_zero _)
    | 1 =>
      have hencode : encode .reserved ['%'] = ['%', '2', '5'] := by decide
      rw [leavesEscapes_inside hd (by omega) (by omega), encode_reserved_triplet hd]
      show encode .reserved ['%'] <+: _ ↔ ['%', '2', '5'] <+: _
      rw [hencode]
      simp only [List.cons_prefix_cons, List.nil_prefix]
    | 2 =>
      have hpercent : encodeChar .reserved '%' = ['%', '2', '5'] := by decide
      have hsign : ¬startsTriplet ['%', hi] = true := nofun
      have hdigit : ¬startsTriplet [hi] = true :=
        not_startsTriplet_of_isHexDigit (Bool.and_eq_true_iff.1 hd).1 []
      rw [leavesEscapes_inside hd (by omega) (by omega), encode_reserved_triplet hd]
      show encode .reserved ['%', hi] <+: _ ↔ ['%', '2', '5', hi] <+: _
      rw [encode_reserved_plain hsign, encode_reserved_plain hdigit, hpercent]
      simp only [List.cons_append, List.nil_append, List.cons_prefix_cons, true_and]
      refine and_congr_right fun htwo => and_congr_right fun _ => ?_
      subst htwo
      exact singleton_prefix_encode_iff (by decide)
    | n + 3 =>
      rw [leavesEscapes_triplet hd, ← ih, encode_reserved_triplet hd]
      show encode .reserved ('%' :: hi :: lo :: t.take n) <+: _ ↔ _
      rw [encode_reserved_triplet hd]
      simp only [List.cons_prefix_cons, true_and]

end
end Percent

open Percent

/-! ### truncated variables -/

section
variable {o : Operator} {name u v : Text}

theorem Operator.assign_prefix_iff : o.row.assign name u <+: o.row.assign name v ↔ u <+: v := by
  have hempty : o.row.ifEmpty <+: ['='] := by cases o <;> decide
  have hassign {t : Text} (ht : t ≠ []) : o.row.assign name t = name ++ '=' :: t := by
    rw [Operator.Row.assign, if_neg (by simpa using ht)]
  have hnone : o.row.assign name [] = name ++ o.row.ifEmpty := rfl
  by_cases hu : u = []
  · subst hu
    refine iff_of_true ?_ List.nil_prefix
    by_cases hv : v = []
    · subst hv
      exact List.prefix_refl _
    · rw [hnone, hassign hv, List.prefix_append_right_inj]
      exact hempty.trans (List.cons_prefix_cons.2 ⟨rfl, List.nil_prefix⟩)
  · rw [hassign hu]
    by_cases hv : v = []
    · subst hv
      refine iff_of_false (fun h => ?_) fun h => hu (List.prefix_nil.1 h)
      -- the equals sign would be all that stands behind the name
      rw [hnone, List.prefix_append_right_inj] at h
      have hnil := (List.cons_prefix_cons.1 (h.trans hempty)).2
      exact hu (List.prefix_nil.1 hnil)
    · rw [hassign hv, List.prefix_append_right_inj, List.cons_prefix_cons]
      exact and_iff_right rfl

theorem Operator.item_prefix_iff {s t : Text} :
    o.row.item name s <+: o.row.item name t ↔ o.row.encode s <+: o.row.encode t := by
  unfold Operator.Row.item
  split
  · exact Operator.assign_prefix_iff
  · exact Iff.rfl

theorem Operator.encode_take_prefix_iff (t : Text) (n : Nat) :
    o.row.encode (t.take n) <+: o.row.encode t ↔ (o.row.allow = .reserved → LeavesEscapes t n) := by
  unfold Operator.Row.encode
  cases o.row.allow with
  | reserved =>
    rw [Percent.encode_take_prefix_iff]
    exact ⟨fun h _ => h, fun h => h rfl⟩
  | unreserved =>
    refine iff_of_true ?_ nofun
    have happend := encode_unreserved_append (t.take n) (t.drop n)
    rw [List.take_append_drop] at happend
    rw [happend]
    exact List.prefix_append _ _

end

/-- A variable under a length expands to an initial segment of what it expands to without, unless the
operator lets triplets pass and the cut lies inside of one of them. -/
theorem Expression.expand_truncated_iff {o : Operator} {name t : Text} {b : Bindings} (n : Nat)
    (ht : b.get name = .text t) : ∃ short full,
      Expression.expand ⟨o, [⟨name, .truncated n⟩]⟩ b = .ok short ∧
      Expression.expand ⟨o, [⟨name, .whole⟩]⟩ b = .ok full ∧
      (short <+: full ↔ (o.row.allow = .reserved → LeavesEscapes t n)) := by
  have hcontent : (b.get name).content? = some (.text t) := by rw [ht]; rfl
  have hexpand (m : Modifier) : Expression.expand ⟨o, [⟨name, m⟩]⟩ b =
      .ok (o.row.first.toList ++ o.row.item name (m.cut t)) := by
    rw [Expression.expand_eq_ok (by simp [hcontent]), Expression.expansion,
      Expression.pieces_singleton o (content_of_content? hcontent)]
    simp [Operator.Row.assemble]
  refine ⟨_, _, hexpand _, hexpand _, ?_⟩
  rw [List.prefix_append_right_inj, Operator.item_prefix_iff]
  exact Operator.encode_take_prefix_iff t n

/-- a cut inside of `%25` that does not show -/
theorem Expression.expand_truncated_percent :
    let b : Bindings := ⟨[(['x'], .text ['%', '2', '5', '2', '/'])]⟩
    b.get ['x'] = .text ['%', '2', '5', '2', '/'] ∧
    Expression.expand ⟨.reserved, [⟨['x'], .truncated 2⟩]⟩ b = .ok ['%', '2', '5', '2'] ∧
    Expression.expand ⟨.reserved, [⟨['x'], .whole⟩]⟩ b = .ok ['%', '2', '5', '2', '/'] ∧
    ['%', '2', '5', '2'] <+: ['%', '2', '5', '2', '/'] := by
  intro b
  have hget : b.get ['x'] = .text ['%', '2', '5', '2', '/'] := rfl
  obtain ⟨short, full, hshort, hfull, hiff⟩ := expand_truncated_iff (o := .reserved) 2 hget
  have hshort' : Expression.expand ⟨.reserved, [⟨['x'], .truncated 2⟩]⟩ b =
    .ok ['%', '2', '5', '2'] := rfl
  have hfull' : Expression.expand ⟨.reserved, [⟨['x'], .whole⟩]⟩ b =
    .ok ['%', '2', '5', '2', '/'] := rfl
  obtain rfl := Except.ok.inj (hshort.symm.trans hshort')
  obtain rfl := Except.ok.inj (hfull.symm.trans hfull')
  exact ⟨hget, hshort', hfull', hiff.2 fun _ => by decide⟩

/-- One character of `%41` is encoded to `%25`, but the whole of it passes through. -/
theorem Expression.expand_truncated_triplet :
    let b : Bindings := ⟨[(['x'], .text ['%', '4', '1'])]⟩
    1 ≤ maxLength ∧
    Expression.expand ⟨.reserved, [⟨['x'], .truncated 1⟩]⟩ b = .ok ['%', '2', '5'] ∧
    Expression.expand ⟨.reserved, [⟨['x'], .whole⟩]⟩ b = .ok ['%', '4', '1'] ∧
    ¬['%', '2', '5'] <+: ['%', '4', '1'] :=
  ⟨by decide, rfl, rfl, by decide⟩

end UriTemplate
