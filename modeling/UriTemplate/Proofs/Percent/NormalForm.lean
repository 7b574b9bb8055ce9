import UriTemplate.Proofs.Percent.Encode

/-!
# Encoding where triplets pass through gives a normal form

Under `Allow.reserved` the triplets of a text stay and all else that may not stand in a URI is
escaped. What is written then needs no encoding any more.

* `InTriplet`                a position lies in a triplet, wherever in it;
* `Normal`                   every character outside of triplets is allowed;
* `encode_reserved_eq_self_iff`   the texts that are their own encoding are the normal ones;
* `encode_reserved_normal`   every encoding is normal, and each triplet and each other character of
                             the text can be found in it, between the encodings of what stands in
                             front and of what stands behind.
-/

namespace UriTemplate.Percent

/-! ### positions in triplets -/

/-- a triplet that begins here, or one or two characters before, holds the character at a position -/
def InTriplet (t : Text) (i : Nat) : Prop := ∃ j, j ≤ i ∧ i < j + 3 ∧ isTripletAt t j = true

section
variable {c hi lo : Char} {t : Text} {i j : Nat}

theorem exists_drop_of_isTripletAt (h : isTripletAt t i = true) :
    ∃ hi lo, t.drop i = '%' :: hi :: lo :: t.drop (i + 3) ∧
      (isHexDigit hi && isHexDigit lo) = true := by
  unfold isTripletAt at h
  rw [← List.drop_drop]
  cases ht : t.drop i with
  | nil =>
    rw [ht] at h
    cases h
  | cons c u =>
    rw [ht] at h
    obtain ⟨hi, lo, v, rfl, rfl, hd⟩ := exists_of_startsTriplet h
    exact ⟨hi, lo, rfl, hd⟩

/-- no triplet begins inside of another one -/
theorem not_isTripletAt_inside (h : isTripletAt t j = true) (hji : j < i) (hij : i < j + 3) :
    isTripletAt t i = false := by
  obtain ⟨hi, lo, hdrop, hd⟩ := exists_drop_of_isTripletAt h
  obtain ⟨hhi, hlo⟩ := Bool.and_eq_true_iff.1 hd
  have hcases : i = j + 1 ∨ i = j + 2 := by omega
  unfold isTripletAt
  rw [← Bool.not_eq_true]
  rcases hcases with rfl | rfl
  · rw [← List.drop_drop, hdrop]
    exact not_startsTriplet_of_isHexDigit hhi _
  · rw [← List.drop_drop, hdrop]
    exact not_startsTriplet_of_isHexDigit hlo _

theorem inTriplet_triplet (h : (isHexDigit hi && isHexDigit lo) = true) :
    InTriplet ('%' :: hi :: lo :: t) (i + 3) ↔ InTriplet t i := by
  constructor
  · rintro ⟨j, hj, hij, ht⟩
    have hinside := not_isTripletAt_inside (t := '%' :: hi :: lo :: t) (j := 0) (i := j) h
    match j with
    | 0 => omega
    | 1 | 2 =>
      rw [hinside (by omega) (by omega)] at ht
      cases ht
    | j + 3 => exact ⟨j, by omega, by omega, ht⟩
  · rintro ⟨j, hj, hij, ht⟩
    exact ⟨j + 3, by omega, by omega, ht⟩

theorem inTriplet_plain (h : ¬startsTriplet (c :: t) = true) :
    InTriplet (c :: t) (i + 1) ↔ InTriplet t i := by
  constructor
  · rintro ⟨j, hj, hij, ht⟩
    match j with
    | 0 => exact absurd ht h
    | j + 1 => exact ⟨j, by omega, by omega, ht⟩
  · rintro ⟨j, hj, hij, ht⟩
    exact ⟨j + 1, by omega, by omega, ht⟩

/-- What consists of a class has its characters from the class, apart from those in triplets. -/
theorem consists_iff {p : Char → Bool} :
    Consists p t ↔ ∀ i c, t[i]? = some c → InTriplet t i ∨ p c = true := by
  induction t using symbol_induction with
  | nil => exact ⟨fun _ i c hc => (by cases hc), fun _ => consists_nil p⟩
  | triplet hi lo t hd ih =>
    rw [consists_triplet hd, ih]
    constructor
    · intro h i c hc
      match i with
      | 0 | 1 | 2 => exact .inl ⟨0, by omega, by omega, hd⟩
      | i + 3 => exact (h i c hc).imp_left (inTriplet_triplet hd).2
    · intro h i c hc
      exact (h (i + 3) c hc).imp_left (inTriplet_triplet hd).1
  | plain c t hct ih =>
    rw [consists_plain hct, ih]
    constructor
    · rintro ⟨hp, h⟩ i d hd
      match i with
      | 0 =>
        cases hd
        exact .inr hp
      | i + 1 => exact (h i d hd).imp_left (inTriplet_plain hct).2
    · intro h
      refine ⟨(h 0 c rfl).resolve_left ?_, fun i d hd =>
        (h (i + 1) d hd).imp_left (inTriplet_plain hct).1⟩
      rintro ⟨j, hj, -, ht⟩
      obtain rfl := Nat.le_zero.1 hj
      exact hct ht

/-! ### cuts between symbols -/

/-- a cut that no triplet lies across is a seam -/
theorem seamless_take_drop (h : ∀ j, j < i → i < j + 3 → isTripletAt t j = false) :
    Seamless (t.take i) (t.drop i) := by
  induction t using symbol_induction generalizing i with
  | nil =>
    rw [List.take_nil]
    exact seamless_nil _
  | triplet hi lo t hd ih =>
    match i with
    | 0 => exact seamless_nil _
    | 1 | 2 =>
      exact absurd hd (Bool.eq_false_iff.1 (h 0 (by omega) (by omega)))
    | i + 3 =>
      have hseam := ih (i := i) fun j hj hij => h (j + 3) (by omega) (by omega)
      exact (seamless_triplet hd).2 hseam
  | plain c t hc ih =>
    match i with
    | 0 => exact seamless_nil _
    | i + 1 =>
      have hseam := ih (i := i) fun j hj hij => h (j + 1) (by omega) (by omega)
      have hwhole : ¬startsTriplet (c :: (t.take i ++ t.drop i)) = true := by
        rwa [List.take_append_drop]
      exact (seamless_plain (mt (startsTriplet_append · _) hwhole)).2 ⟨hwhole, hseam⟩

theorem encode_reserved_append {u v : Text} (h : Seamless u v) :
    encode .reserved (u ++ v) = encode .reserved u ++ encode .reserved v := by
  show (symbols (u ++ v)).flatMap encodeSymbol = _
  rw [h, List.flatMap_append]
  rfl

theorem encode_reserved_cut (h : ∀ j, j < i → i < j + 3 → isTripletAt t j = false) :
    encode .reserved t = encode .reserved (t.take i) ++ encode .reserved (t.drop i) := by
  rw [← encode_reserved_append (seamless_take_drop h), List.take_append_drop]

end

/-! ### the normal form -/

/-- every character is unreserved, reserved or in a triplet -/
def Normal (t : Text) : Prop :=
  ∀ i c, t[i]? = some c → InTriplet t i ∨ (isUnreserved c || isReserved c) = true

theorem normal_iff {t : Text} : Normal t ↔ Consists Allow.reserved.keeps t := consists_iff.symm

theorem encode_reserved_of_consists {t : Text} (h : Consists Allow.reserved.keeps t) :
    encode .reserved t = t := by
  induction t using symbol_induction with
  | nil => rfl
  | triplet hi lo t hd ih =>
    rw [encode_reserved_triplet hd, ih ((consists_triplet hd t).1 h)]
  | plain c t hc ih =>
    obtain ⟨hkeeps, ht⟩ := (consists_plain hc).1 h
    rw [encode_reserved_plain hc, encodeChar, if_pos hkeeps, ih ht, List.singleton_append]

theorem encode_reserved_eq_self_iff {t : Text} : encode .reserved t = t ↔ Normal t := by
  rw [normal_iff]
  constructor
  · intro h
    rw [← h]
    exact consists_encode .reserved t
  · exact encode_reserved_of_consists

/-- What is written is normal, so that encoding it again changes nothing. It has every triplet of the
text as it is, every other character that is unreserved or reserved as well, and for each of the
others the escapes of its bytes, each at its place among what is written for the rest. -/
theorem encode_reserved_normal (t : Text) :
    Normal (encode .reserved t) ∧
    encode .reserved (encode .reserved t) = encode .reserved t ∧
    (∀ i, isTripletAt t i = true → encode .reserved t =
      encode .reserved (t.take i) ++ (t.drop i).take 3 ++ encode .reserved (t.drop (i + 3))) ∧
    ∀ i c, t[i]? = some c → ¬InTriplet t i → encode .reserved t =
      encode .reserved (t.take i) ++
        (if isUnreserved c || isReserved c then [c] else (Utf8.encodeChar c).flatMap escape) ++
          encode .reserved (t.drop (i + 1)) := by
  have hnormal : Normal (encode .reserved t) := normal_iff.2 (consists_encode .reserved t)
  refine ⟨hnormal, encode_reserved_eq_self_iff.2 hnormal, fun i hi => ?triplet,
    fun i c hc hi => ?plain⟩
  case triplet =>
    obtain ⟨a, b, hdrop, hd⟩ := exists_drop_of_isTripletAt hi
    have hcut : ∀ j, j < i → i < j + 3 → isTripletAt t j = false := fun j hj hij =>
      Bool.eq_false_iff.2 fun ht =>
        absurd hi (Bool.eq_false_iff.1 (not_isTripletAt_inside ht hj hij))
    rw [encode_reserved_cut hcut, hdrop, encode_reserved_triplet hd, List.append_assoc]
    rfl
  case plain =>
    have hcut : ∀ j, j < i → i < j + 3 → isTripletAt t j = false := fun j hj hij =>
      Bool.eq_false_iff.2 fun ht => hi ⟨j, Nat.le_of_lt hj, hij, ht⟩
    obtain ⟨hlt, hget⟩ := List.getElem?_eq_some_iff.1 hc
    have hdrop : t.drop i = c :: t.drop (i + 1) := by
      rw [List.drop_eq_getElem_cons hlt, hget]
    have hplain : ¬startsTriplet (c :: t.drop (i + 1)) = true := by
      rw [← hdrop]
      exact fun ht => hi ⟨i, Nat.le_refl i, by omega, ht⟩
    rw [encode_reserved_cut hcut, hdrop, encode_reserved_plain hplain, List.append_assoc]
    rfl

-- a bare `%` in front of a triplet, and an escape cut off by the end of the text
example : encode .reserved "%%41é%4".toList = "%25%41%C3%A9%254".toList := by decide

end UriTemplate.Percent
