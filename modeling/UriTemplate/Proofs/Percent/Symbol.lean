import UriTemplate.Percent.Symbol
import UriTemplate.Proofs.Text.Utf8

/-!
# Symbols of texts that are put together

Reading symbols does not distribute over `++`: a `%` at the end of one text may take hexadecimal
digits from the front of the next. There are two ways to be safe.

* `symbols_append`       the first text is `Escaped`, every `%` in it begins a triplet;
* `symbols_append_cons`  the texts are parted by a character that is in no triplet (`standsAlone`).

Where a reader stops between two symbols the seam is known to hold no triplet (`Seamless`). All of
this carries over to the bytes that a text stands for, and the second way to separated lists. Most proofs go
along `symbol_induction`, whose cases are a triplet and a character in front of which none begins.
-/

namespace UriTemplate.Percent

/-! ### the first symbol -/

theorem symbols_triplet {hi lo : Char} (h : (isHexDigit hi && isHexDigit lo) = true) (t : Text) :
    symbols ('%' :: hi :: lo :: t) = .triplet hi lo :: symbols t := by
  rw [symbols, if_pos h]

theorem symbols_percent (t : Text) (h : ¬startsTriplet ('%' :: t) = true) :
    symbols ('%' :: t) = .plain '%' :: symbols t := by
  match t, h with
  | [], _ => rfl
  | [_], _ => rfl
  | hi :: lo :: t, h =>
    have hd : ¬(isHexDigit hi && isHexDigit lo) = true := h
    rw [symbols, if_neg hd]

theorem symbols_eq_nil {t : Text} : symbols t = [] ↔ t = [] := by
  constructor
  · intro h
    have ht := symbols_text t
    rw [h] at ht
    exact ht.symm
  · rintro rfl
    rfl

theorem symbols_cons_of_ne {c : Char} (h : c ≠ '%') (t : Text) :
    symbols (c :: t) = .plain c :: symbols t := by
  rw [symbols]
  exact fun _ _ _ hc _ => h hc

section
variable {c : Char} {t : Text}

theorem exists_of_startsTriplet (h : startsTriplet (c :: t) = true) :
    ∃ hi lo u, c = '%' ∧ t = hi :: lo :: u ∧ (isHexDigit hi && isHexDigit lo) = true := by
  unfold startsTriplet at h
  split at h
  · next hi lo u heq =>
    cases heq
    exact ⟨hi, lo, u, rfl, rfl, h⟩
  · cases h

theorem not_startsTriplet_of_ne (h : c ≠ '%') (t : Text) : ¬startsTriplet (c :: t) = true := by
  intro ht
  obtain ⟨_, _, _, hc, _⟩ := exists_of_startsTriplet ht
  exact h hc

theorem not_startsTriplet_of_isHexDigit (h : isHexDigit c = true) (t : Text) :
    ¬startsTriplet (c :: t) = true := by
  refine not_startsTriplet_of_ne ?_ t
  rintro rfl
  cases h

theorem symbols_of_not_startsTriplet (h : ¬startsTriplet (c :: t) = true) :
    symbols (c :: t) = .plain c :: symbols t := by
  by_cases hc : c = '%'
  · subst hc
    exact symbols_percent t h
  · exact symbols_cons_of_ne hc t

/-- Induction over the symbols of a text. -/
theorem symbol_induction {P : Text → Prop} (nil : P [])
    (triplet : ∀ hi lo t, (isHexDigit hi && isHexDigit lo) = true → P t → P ('%' :: hi :: lo :: t))
    (plain : ∀ c t, ¬startsTriplet (c :: t) = true → P t → P (c :: t)) (t : Text) : P t := by
  fun_induction symbols t with
  | case1 => exact nil
  | case2 hi lo t hd ih => exact triplet hi lo t hd ih
  | case3 hi lo t hd ih => exact plain '%' (hi :: lo :: t) hd ih
  | case4 c t hc ih =>
    refine plain c t (fun h => ?_) ih
    obtain ⟨hi, lo, u, rfl, rfl, _⟩ := exists_of_startsTriplet h
    exact hc hi lo u rfl rfl

end

/-- the digits of a triplet are digits -/
theorem isHexDigit_of_triplet_mem {hi lo : Char} {t : Text} (h : .triplet hi lo ∈ symbols t) :
    isHexDigit hi = true ∧ isHexDigit lo = true := by
  induction t using symbol_induction with
  | nil => cases h
  | triplet hi' lo' t hd ih =>
    rw [symbols_triplet hd] at h
    rcases List.mem_cons.1 h with h | h
    · cases h
      exact Bool.and_eq_true_iff.1 hd
    · exact ih h
  | plain c t hc ih =>
    rw [symbols_of_not_startsTriplet hc] at h
    rcases List.mem_cons.1 h with h | h
    · cases h
    · exact ih h

/-! ### escaped texts -/

/-- every `%` of the text begins a triplet -/
def Escaped (t : Text) : Prop := .plain '%' ∉ symbols t

instance (t : Text) : Decidable (Escaped t) := inferInstanceAs (Decidable (_ ∉ _))

theorem escaped_triplet {hi lo : Char} (h : (isHexDigit hi && isHexDigit lo) = true) (t : Text) :
    Escaped ('%' :: hi :: lo :: t) ↔ Escaped t := by
  unfold Escaped
  rw [symbols_triplet h]
  simp only [List.mem_cons, reduceCtorEq, false_or]

theorem escaped_plain {c : Char} {t : Text} (h : ¬startsTriplet (c :: t) = true) :
    Escaped (c :: t) ↔ c ≠ '%' ∧ Escaped t := by
  unfold Escaped
  rw [symbols_of_not_startsTriplet h, List.mem_cons, not_or, Symbol.plain.injEq, eq_comm]

theorem symbols_append {a : Text} (h : Escaped a) (b : Text) :
    symbols (a ++ b) = symbols a ++ symbols b := by
  induction a using symbol_induction with
  | nil => rfl
  | triplet hi lo t hd ih =>
    have ht := ih ((escaped_triplet hd t).1 h)
    show symbols ('%' :: hi :: lo :: (t ++ b)) = _
    rw [symbols_triplet hd, symbols_triplet hd, ht, List.cons_append]
  | plain c t hc ih =>
    obtain ⟨hne, ht⟩ := (escaped_plain hc).1 h
    rw [List.cons_append, symbols_cons_of_ne hne, symbols_cons_of_ne hne, ih ht, List.cons_append]

theorem escaped_append {a : Text} (h : Escaped a) (b : Text) : Escaped (a ++ b) ↔ Escaped b := by
  unfold Escaped at *
  rw [symbols_append h]
  simp only [List.mem_append, h, false_or]

/-- a text without `%` has no symbols but its characters -/
theorem symbols_of_percent_not_mem {t : Text} (h : '%' ∉ t) : symbols t = t.map .plain := by
  induction t with
  | nil => rfl
  | cons c t ih =>
    have hc : c ≠ '%' := fun hc => h (hc ▸ List.mem_cons_self)
    rw [symbols_cons_of_ne hc, ih fun ht => h (List.mem_cons_of_mem _ ht), List.map_cons]

theorem escaped_of_isTripletAt {t : Text} (h : ∀ i, t[i]? = some '%' → isTripletAt t i = true) :
    Escaped t := by
  induction t using symbol_induction with
  | nil => exact List.not_mem_nil
  | triplet hi lo t hd ih => exact (escaped_triplet hd t).2 (ih fun i hi' => h (i + 3) hi')
  | plain c t hc ih =>
    refine (escaped_plain hc).2 ⟨?_, ih fun i hi' => h (i + 1) hi'⟩
    rintro rfl
    exact hc (h 0 rfl)

/-- a text without triplets has no symbols but its characters -/
theorem symbols_of_not_isTripletAt {t : Text} (h : ∀ i, isTripletAt t i = false) :
    symbols t = t.map .plain := by
  fun_induction symbols t with
  | case1 => rfl
  | case2 hi lo t hd ih =>
    have h0 : (isHexDigit hi && isHexDigit lo) = false := h 0
    rw [hd] at h0
    cases h0
  | case3 hi lo t hd ih =>
    rw [ih fun i => h (i + 1)]
    rfl
  | case4 c t hc ih =>
    rw [ih fun i => h (i + 1)]
    rfl

/-! ### seams -/

/-- no triplet begins in the first text and ends in the second -/
def Seamless (u v : Text) : Prop := symbols (u ++ v) = symbols u ++ symbols v

section
variable {c hi lo : Char} {u v : Text}

theorem Escaped.seamless (h : Escaped u) (v : Text) : Seamless u v := symbols_append h v

theorem seamless_nil (v : Text) : Seamless [] v := rfl

theorem startsTriplet_append (h : startsTriplet (c :: u) = true) (v : Text) :
    startsTriplet (c :: (u ++ v)) = true := by
  obtain ⟨hi, lo, w, rfl, rfl, hd⟩ := exists_of_startsTriplet h
  exact hd

theorem seamless_triplet (h : (isHexDigit hi && isHexDigit lo) = true) :
    Seamless ('%' :: hi :: lo :: u) v ↔ Seamless u v := by
  unfold Seamless
  show symbols ('%' :: hi :: lo :: (u ++ v)) = _ ↔ _
  rw [symbols_triplet h, symbols_triplet h, List.cons_append, List.cons_inj_right]

theorem seamless_plain (h : ¬startsTriplet (c :: u) = true) :
    Seamless (c :: u) v ↔ ¬startsTriplet (c :: (u ++ v)) = true ∧ Seamless u v := by
  unfold Seamless
  rw [symbols_of_not_startsTriplet h, List.cons_append, List.cons_append]
  by_cases hv : startsTriplet (c :: (u ++ v)) = true
  · refine iff_of_false (fun heq => ?_) fun h' => h'.1 hv
    obtain ⟨hi, lo, w, rfl, hw, hd⟩ := exists_of_startsTriplet hv
    rw [hw, symbols_triplet hd] at heq
    cases heq
  · rw [symbols_of_not_startsTriplet hv, List.cons_inj_right]
    exact ⟨fun heq => ⟨hv, heq⟩, fun h' => h'.2⟩

/-- A triplet that begins in the first text does not end in the second unless a digit comes first. -/
theorem seamless_cons (h : isHexDigit c = false) (u v : Text) : Seamless u (c :: v) := by
  induction u using symbol_induction with
  | nil => exact seamless_nil _
  | triplet hi lo u hd ih => exact (seamless_triplet hd).2 ih
  | plain d u hd ih =>
    refine (seamless_plain hd).2 ⟨fun hstart => ?_, ih⟩
    obtain ⟨hi, lo, w, rfl, hw, hdigits⟩ := exists_of_startsTriplet hstart
    -- a `%` with fewer than two characters behind it finds `c` where a digit should be
    match u, hw with
    | [], hw =>
      cases hw
      rw [h] at hdigits
      cases hdigits
    | [_], hw =>
      cases hw
      rw [h, Bool.and_false] at hdigits
      cases hdigits
    | _ :: _ :: _, hw =>
      cases hw
      exact hd hdigits

end

/-! ### separated texts -/

/-- a character that is in no triplet -/
def standsAlone (c : Char) : Bool := c ≠ '%' && !isHexDigit c

theorem ne_percent_of_standsAlone {c : Char} (h : standsAlone c = true) : c ≠ '%' := by
  simp only [standsAlone, Bool.and_eq_true, decide_eq_true_eq] at h
  exact h.1

theorem not_isHexDigit_of_standsAlone {c : Char} (h : standsAlone c = true) :
    isHexDigit c = false := by
  simp only [standsAlone, Bool.and_eq_true, Bool.not_eq_true'] at h
  exact h.2

theorem standsAlone_of_not_isAscii {c : Char} (h : isAscii c = false) : standsAlone c = true := by
  simp only [isAscii, decide_eq_false_iff_not, Nat.not_lt] at h
  have hne : c ≠ '%' := by
    rintro rfl
    exact absurd h (by decide)
  have hhex : isHexDigit c = false := by
    rw [← Bool.not_eq_true]
    intro hd
    simp only [isHexDigit, Bool.or_eq_true, Bool.and_eq_true, decide_eq_true_eq] at hd
    omega
  rw [standsAlone, hhex, decide_eq_true hne]
  rfl

theorem symbols_append_cons {c : Char} (h : standsAlone c = true) (a b : Text) :
    symbols (a ++ c :: b) = symbols a ++ .plain c :: symbols b := by
  have hseam : Seamless a (c :: b) := seamless_cons (not_isHexDigit_of_standsAlone h) a b
  rw [hseam, symbols_cons_of_ne (ne_percent_of_standsAlone h)]

/-- what holds of items and of two texts with the separator between them holds of a list -/
theorem intercalate_induction {P : Text → Prop} {c : Char} (hnil : P [])
    (hcons : ∀ a b, P a → P b → P (a ++ c :: b)) {ts : List Text} (hts : ∀ t ∈ ts, P t) :
    P ([c].intercalate ts) := by
  induction ts with
  | nil => exact hnil
  | cons t ts ih =>
    have ht := hts t List.mem_cons_self
    have hts' := ih fun u hu => hts u (List.mem_cons_of_mem _ hu)
    cases ts with
    | nil => simpa using ht
    | cons u us =>
      rw [List.intercalate_cons_cons, List.append_assoc]
      exact hcons t _ ht hts'

/-! ### classes of symbols -/

/-- the text consists of triplets and of characters of a class -/
def Consists (p : Char → Bool) (t : Text) : Prop := ∀ c, .plain c ∈ symbols t → p c = true

theorem consists_nil (p : Char → Bool) : Consists p [] := fun _ h => absurd h List.not_mem_nil

theorem Consists.escaped {p : Char → Bool} {t : Text} (h : Consists p t) (hp : p '%' = false) :
    Escaped t := by
  intro hm
  have h1 := h '%' hm
  rw [hp] at h1
  cases h1

theorem Consists.mono {p q : Char → Bool} {t : Text} (h : Consists p t)
    (hpq : ∀ c, p c = true → q c = true) : Consists q t :=
  fun c hc => hpq c (h c hc)

theorem consists_append {p : Char → Bool} {a : Text} (h : Escaped a) (b : Text) :
    Consists p (a ++ b) ↔ Consists p a ∧ Consists p b := by
  unfold Consists
  rw [symbols_append h]
  simp only [List.mem_append, or_imp, forall_and]

theorem consists_plain {p : Char → Bool} {c : Char} {t : Text}
    (h : ¬startsTriplet (c :: t) = true) : Consists p (c :: t) ↔ p c = true ∧ Consists p t := by
  unfold Consists
  rw [symbols_of_not_startsTriplet h]
  simp only [List.mem_cons, Symbol.plain.injEq, or_imp, forall_and, forall_eq]

theorem consists_cons {p : Char → Bool} {c : Char} (h : c ≠ '%') (t : Text) :
    Consists p (c :: t) ↔ p c = true ∧ Consists p t :=
  consists_plain (not_startsTriplet_of_ne h t)

theorem consists_triplet {p : Char → Bool} {hi lo : Char}
    (h : (isHexDigit hi && isHexDigit lo) = true) (t : Text) :
    Consists p ('%' :: hi :: lo :: t) ↔ Consists p t := by
  unfold Consists
  rw [symbols_triplet h]
  simp only [List.mem_cons, reduceCtorEq, false_or]

theorem consists_append_cons {p : Char → Bool} {c : Char} (h : standsAlone c = true) (a b : Text) :
    Consists p (a ++ c :: b) ↔ Consists p a ∧ p c = true ∧ Consists p b := by
  unfold Consists
  rw [symbols_append_cons h]
  simp only [List.mem_append, List.mem_cons, Symbol.plain.injEq, or_imp, forall_and, forall_eq]

theorem consists_intercalate {p : Char → Bool} {c : Char} (h : standsAlone c = true)
    (hc : p c = true) {ts : List Text} (hts : ∀ t ∈ ts, Consists p t) :
    Consists p ([c].intercalate ts) :=
  intercalate_induction (consists_nil p)
    (fun a b ha hb => (consists_append_cons h a b).2 ⟨ha, hc, hb⟩) hts

theorem Consists.of_mem_intercalate {p : Char → Bool} {c : Char} (h : standsAlone c = true)
    {ts : List Text} (hts : Consists p ([c].intercalate ts)) : ∀ t ∈ ts, Consists p t := by
  induction ts with
  | nil => exact fun t ht => (List.not_mem_nil ht).elim
  | cons t ts ih =>
    cases ts with
    | nil => simpa using hts
    | cons u us =>
      rw [List.intercalate_cons_cons, List.append_assoc] at hts
      obtain ⟨ht, -, hus⟩ := (consists_append_cons h _ _).1 hts
      exact List.forall_mem_cons.2 ⟨ht, ih hus⟩

theorem consists_of_forall {p : Char → Bool} {t : Text} (h : ∀ c ∈ t, p c = true)
    (hp : p '%' = false) : Consists p t := by
  have hne : '%' ∉ t := by
    intro hm
    rw [h _ hm] at hp
    cases hp
  intro c hc
  rw [symbols_of_percent_not_mem hne] at hc
  obtain ⟨d, hd, hdc⟩ := List.mem_map.1 hc
  cases hdc
  exact h c hd

/-- a character of the text is of the class, or a triplet holds it -/
theorem Consists.mem {p : Char → Bool} {t : Text} (h : Consists p t) {c : Char} (hc : c ∈ t) :
    p c = true ∨ c = '%' ∨ isHexDigit c = true := by
  rw [← symbols_text t] at hc
  obtain ⟨s, hs, hcs⟩ := List.mem_flatMap.1 hc
  cases s with
  | triplet hi lo =>
    obtain ⟨hhi, hlo⟩ := isHexDigit_of_triplet_mem hs
    simp only [Symbol.text, List.mem_cons, List.not_mem_nil, or_false] at hcs
    rcases hcs with rfl | rfl | rfl
    · exact .inr (.inl rfl)
    · exact .inr (.inr hhi)
    · exact .inr (.inr hlo)
  | plain d =>
    obtain rfl := List.mem_singleton.1 hcs
    exact .inl (h c hs)

theorem Consists.not_mem {p : Char → Bool} {t : Text} (h : Consists p t) {c : Char}
    (hc : standsAlone c = true) (hp : p c = false) : c ∉ t := by
  intro hm
  rcases h.mem hm with h1 | h1 | h1
  · rw [hp] at h1
    cases h1
  · exact ne_percent_of_standsAlone hc h1
  · rw [not_isHexDigit_of_standsAlone hc] at h1
    cases h1

/-! ### the bytes that a text stands for -/

theorem decodedBytes_nil : decodedBytes [] = [] := rfl

theorem Seamless.decodedBytes_append {u v : Text} (h : Seamless u v) :
    decodedBytes (u ++ v) = decodedBytes u ++ decodedBytes v := by
  unfold decodedBytes
  rw [h, List.flatMap_append]

theorem decodedBytes_append {a : Text} (h : Escaped a) (b : Text) :
    decodedBytes (a ++ b) = decodedBytes a ++ decodedBytes b :=
  (h.seamless b).decodedBytes_append

theorem decodedBytes_append_cons {c : Char} (h : standsAlone c = true) (a b : Text) :
    decodedBytes (a ++ c :: b) = decodedBytes a ++ (Utf8.encodeChar c ++ decodedBytes b) := by
  unfold decodedBytes
  rw [symbols_append_cons h, List.flatMap_append, List.flatMap_cons]
  rfl

theorem decodedBytes_triplet {hi lo : Char} (h : (isHexDigit hi && isHexDigit lo) = true)
    (t : Text) : decodedBytes ('%' :: hi :: lo :: t) =
      (Symbol.triplet hi lo).bytes ++ decodedBytes t := by
  unfold decodedBytes
  rw [symbols_triplet h, List.flatMap_cons]

theorem decodedBytes_plain {c : Char} {t : Text} (h : ¬startsTriplet (c :: t) = true) :
    decodedBytes (c :: t) = Utf8.encodeChar c ++ decodedBytes t := by
  unfold decodedBytes
  rw [symbols_of_not_startsTriplet h, List.flatMap_cons]
  rfl

theorem decodedBytes_cons {c : Char} (h : c ≠ '%') (t : Text) :
    decodedBytes (c :: t) = Utf8.encodeChar c ++ decodedBytes t :=
  decodedBytes_plain (not_startsTriplet_of_ne h t)

theorem decodedBytes_intercalate {c : Char} (h : standsAlone c = true) (ts : List Text) :
    decodedBytes ([c].intercalate ts) = (Utf8.encodeChar c).intercalate (ts.map decodedBytes) := by
  induction ts with
  | nil => rfl
  | cons t ts ih =>
    cases ts with
    | nil => simp
    | cons u us =>
      rw [List.intercalate_cons_cons, List.append_assoc, List.singleton_append,
        decodedBytes_append_cons h, ih]
      simp only [List.map_cons, List.intercalate_cons_cons, List.append_assoc]

/-- without triplets a text stands for its own encoding -/
theorem decodedBytes_of_symbols {t : Text} (h : symbols t = t.map .plain) :
    decodedBytes t = Utf8.encode t := by
  unfold decodedBytes Utf8.encode
  rw [h, List.flatMap_map]
  rfl

theorem decodedBytes_eq_nil {t : Text} (h : decodedBytes t = []) : t = [] := by
  cases hs : symbols t with
  | nil => exact symbols_eq_nil.1 hs
  | cons s ss =>
    unfold decodedBytes at h
    rw [hs, List.flatMap_cons] at h
    have hb := (List.append_eq_nil_iff.1 h).1
    cases s with
    | triplet hi lo => cases hb
    | plain c => exact absurd hb (Utf8.encodeChar_ne_nil c)

end UriTemplate.Percent
