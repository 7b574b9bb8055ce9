import UriTemplate.Proofs.Lists
import UriTemplate.Proofs.Percent.Decode

/-!
# The case of hexadecimal digits

The digits of a triplet may be written in either case. `upperDigits` writes all of them in upper
case, so texts that differ in nothing else are those with one image under it.

* `symbols_upperDigits`        it works symbol by symbol, and finds the triplets where they were;
* `decode?_upperDigits`        what a text is decoded to does not depend on the case;
* `splitOn_upperDigits`        it may be cut at a separator before or after;
* `upperDigits_eq_iff`         it neither makes nor unmakes a text without `%`.
-/

namespace UriTemplate.Percent

/-! ### hexadecimal digits -/

theorem hexDigit_toUpper {c : Char} (h : isHexDigit c = true) :
    isHexDigit c.toUpper = true ∧ hexValue c.toUpper = hexValue c := by
  have hall : ∀ n < 128, isHexDigit (Char.ofNat n) = true →
      isHexDigit (Char.ofNat n).toUpper = true ∧
        hexValue (Char.ofNat n).toUpper = hexValue (Char.ofNat n) := by decide
  have hc : c.toNat < 128 := by
    simp only [isHexDigit, Bool.or_eq_true, Bool.and_eq_true, decide_eq_true_eq] at h
    omega
  have hk := hall c.toNat hc
  rw [Char.ofNat_toNat] at hk
  exact hk h

namespace Symbol

/-- the symbol with the digits of a triplet in upper case -/
def upper : Symbol → Symbol
  | triplet hi lo => triplet hi.toUpper lo.toUpper
  | plain c => plain c

theorem bytes_triplet_toUpper {hi lo : Char} (h : (isHexDigit hi && isHexDigit lo) = true) :
    (triplet hi.toUpper lo.toUpper).bytes = (triplet hi lo).bytes := by
  obtain ⟨hhi, hlo⟩ := Bool.and_eq_true_iff.1 h
  simp only [bytes, (hexDigit_toUpper hhi).2, (hexDigit_toUpper hlo).2]

theorem bytes_upper {t : Text} {s : Symbol} (h : s ∈ symbols t) : s.upper.bytes = s.bytes := by
  cases s with
  | triplet hi lo =>
    exact bytes_triplet_toUpper (Bool.and_eq_true_iff.2 (isHexDigit_of_triplet_mem h))
  | plain c => rfl

end Symbol

/-- the text with the digits of its triplets in upper case -/
def upperDigits (t : Text) : Text := (symbols t).flatMap fun s => s.upper.text

/-! ### symbol by symbol -/

section
variable {c hi lo : Char} {t : Text}

theorem upperDigits_triplet (h : (isHexDigit hi && isHexDigit lo) = true) (t : Text) :
    upperDigits ('%' :: hi :: lo :: t) = '%' :: hi.toUpper :: lo.toUpper :: upperDigits t := by
  unfold upperDigits
  rw [symbols_triplet h, List.flatMap_cons]
  rfl

theorem upperDigits_plain (h : ¬startsTriplet (c :: t) = true) :
    upperDigits (c :: t) = c :: upperDigits t := by
  unfold upperDigits
  rw [symbols_of_not_startsTriplet h, List.flatMap_cons]
  rfl

theorem isHexDigit_toUpper (h : (isHexDigit hi && isHexDigit lo) = true) :
    (isHexDigit hi.toUpper && isHexDigit lo.toUpper) = true := by
  obtain ⟨hhi, hlo⟩ := Bool.and_eq_true_iff.1 h
  exact Bool.and_eq_true_iff.2 ⟨(hexDigit_toUpper hhi).1, (hexDigit_toUpper hlo).1⟩

theorem exists_upperDigits_cons (c : Char) (t : Text) : ∃ u, upperDigits (c :: t) = c :: u := by
  by_cases h : startsTriplet (c :: t) = true
  · obtain ⟨hi, lo, u, rfl, rfl, hd⟩ := exists_of_startsTriplet h
    exact ⟨_, upperDigits_triplet hd u⟩
  · exact ⟨_, upperDigits_plain h⟩

/-- A `%` in front of the text begins a triplet exactly if it does in front of its upper case. -/
theorem startsTriplet_cons_upperDigits (c : Char) (t : Text) :
    startsTriplet (c :: upperDigits t) = startsTriplet (c :: t) := by
  by_cases hc : c = '%'
  · subst hc
    match t with
    | [] => rfl
    | [x] =>
      have hx : ¬startsTriplet [x] = true := by
        intro h
        obtain ⟨_, _, _, _, ht, _⟩ := exists_of_startsTriplet h
        cases ht
      rw [upperDigits_plain hx]
      rfl
    | x :: y :: t =>
      by_cases hx : x = '%'
      · subst hx
        obtain ⟨u, hu⟩ := exists_upperDigits_cons '%' (y :: t)
        rw [hu]
        cases u <;> rfl
      · obtain ⟨u, hu⟩ := exists_upperDigits_cons y t
        rw [upperDigits_plain (not_startsTriplet_of_ne hx _), hu]
        rfl
  · rw [Bool.eq_false_iff.2 (not_startsTriplet_of_ne hc _),
      Bool.eq_false_iff.2 (not_startsTriplet_of_ne hc _)]

theorem not_startsTriplet_upperDigits (h : ¬startsTriplet (c :: t) = true) :
    ¬startsTriplet (c :: upperDigits t) = true := by
  rw [startsTriplet_cons_upperDigits]
  exact h

theorem symbols_upperDigits (t : Text) :
    symbols (upperDigits t) = (symbols t).map Symbol.upper := by
  induction t using symbol_induction with
  | nil => rfl
  | triplet hi lo t hd ih =>
    rw [upperDigits_triplet hd, symbols_triplet (isHexDigit_toUpper hd), symbols_triplet hd, ih]
    rfl
  | plain c t hc ih =>
    have hu := not_startsTriplet_upperDigits hc
    rw [upperDigits_plain hc, symbols_of_not_startsTriplet hu, symbols_of_not_startsTriplet hc, ih]
    rfl

theorem length_upperDigits (t : Text) : (upperDigits t).length = t.length := by
  induction t using symbol_induction with
  | nil => rfl
  | triplet hi lo t hd ih =>
    rw [upperDigits_triplet hd]
    simp only [List.length_cons, ih]
  | plain c t hc ih =>
    rw [upperDigits_plain hc]
    simp only [List.length_cons, ih]

theorem upperDigits_eq_nil : upperDigits t = [] ↔ t = [] := by
  rw [← List.length_eq_zero_iff, length_upperDigits, List.length_eq_zero_iff]

theorem head?_upperDigits (t : Text) : (upperDigits t).head? = t.head? := by
  cases t with
  | nil => rfl
  | cons c t =>
    obtain ⟨u, hu⟩ := exists_upperDigits_cons c t
    rw [hu]
    rfl

/-! ### what the text stands for -/

theorem decodedBytes_upperDigits (t : Text) : decodedBytes (upperDigits t) = decodedBytes t := by
  unfold decodedBytes
  rw [symbols_upperDigits, List.flatMap_map]
  exact List.flatMap_congr fun s hs => Symbol.bytes_upper hs

theorem decode?_upperDigits (t : Text) : decode? (upperDigits t) = decode? t :=
  decode?_eq_of_decodedBytes (decodedBytes_upperDigits t)

/-! ### texts that are put together -/

theorem upperDigits_append {a : Text} (h : Escaped a) (b : Text) :
    upperDigits (a ++ b) = upperDigits a ++ upperDigits b := by
  unfold upperDigits
  rw [symbols_append h, List.flatMap_append]

theorem upperDigits_append_cons (h : standsAlone c = true) (a b : Text) :
    upperDigits (a ++ c :: b) = upperDigits a ++ c :: upperDigits b := by
  unfold upperDigits
  rw [symbols_append_cons h, List.flatMap_append, List.flatMap_cons]
  rfl

theorem upperDigits_intercalate (h : standsAlone c = true) (ts : List Text) :
    upperDigits ([c].intercalate ts) = [c].intercalate (ts.map upperDigits) := by
  induction ts with
  | nil => rfl
  | cons t ts ih =>
    cases ts with
    | nil => simp
    | cons u us =>
      rw [List.intercalate_cons_cons, List.append_assoc, List.singleton_append,
        upperDigits_append_cons h, ih]
      simp only [List.map_cons, List.intercalate_cons_cons, List.append_assoc,
        List.singleton_append]

theorem mem_upperDigits (h : isHexDigit c = false) : c ∈ upperDigits t ↔ c ∈ t := by
  have hne {d : Char} (hd : isHexDigit d = true) : c ≠ d := by
    rintro rfl
    rw [h] at hd
    cases hd
  induction t using symbol_induction with
  | nil => rfl
  | triplet hi lo t hd ih =>
    obtain ⟨hhi, hlo⟩ := Bool.and_eq_true_iff.1 hd
    rw [upperDigits_triplet hd]
    simp only [List.mem_cons, ih, hne hhi, hne hlo, hne (hexDigit_toUpper hhi).1,
      hne (hexDigit_toUpper hlo).1]
  | plain d t hd ih =>
    rw [upperDigits_plain hd]
    simp only [List.mem_cons, ih]

theorem splitOn_upperDigits (h : standsAlone c = true) (t : Text) :
    (upperDigits t).splitOn c = (t.splitOn c).map upperDigits := by
  have hmem : ∀ s ∈ (t.splitOn c).map upperDigits, c ∉ s := by
    intro s hs
    obtain ⟨u, hu, rfl⟩ := List.mem_map.1 hs
    rw [mem_upperDigits (not_isHexDigit_of_standsAlone h)]
    exact not_mem_of_mem_splitOn hu
  have hne : (t.splitOn c).map upperDigits ≠ [] := by
    rw [Ne, List.map_eq_nil_iff]
    exact List.splitOn_ne_nil c t
  rw [← List.splitOn_intercalate c hmem hne, ← upperDigits_intercalate h, List.intercalate_splitOn]

theorem upperDigits_of_percent_not_mem (h : '%' ∉ t) : upperDigits t = t := by
  unfold upperDigits
  rw [symbols_of_percent_not_mem h, List.flatMap_map]
  exact List.flatMap_singleton' t

theorem upperDigits_eq_iff {name : Text} (h : '%' ∉ name) : upperDigits t = name ↔ t = name := by
  constructor
  · rintro rfl
    rw [mem_upperDigits (by decide)] at h
    exact (upperDigits_of_percent_not_mem h).symm
  · rintro rfl
    exact upperDigits_of_percent_not_mem h

end

end UriTemplate.Percent
