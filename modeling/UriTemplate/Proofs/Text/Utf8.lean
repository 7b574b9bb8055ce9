import UriTemplate.Text.Utf8

/-!
# UTF-8: reading is the inverse of writing

`decode?` is defined by search: it tries one byte, then two, up to four. Here is what it computes.

* `decode?_eq_some_iff`      a list of bytes is read as the text that it is the encoding of;
* `valid_iff`                the lists that are the encoding of a text, told by the ranges of their
                             bytes (`Valid`);
* `exists_of_encode_append`  UTF-8 is self-synchronising: an encoding may be cut in front of every
                             byte that continues no character, and both halves are encodings again.
-/

namespace UriTemplate.Utf8

/-! ### the bytes of one character -/

/-- a byte that does not begin a character -/
def isContinuation (b : UInt8) : Bool := 128 ≤ b.toNat && b.toNat < 192

theorem toNat_lt (c : Char) : c.val.toNat < 1114112 := by
  have h := c.valid
  simp only [UInt32.isValidChar, Nat.isValidChar] at h
  omega

theorem payload_encodeChar (c : Char) : payload (encodeChar c) = c.toNat := by
  have hc := toNat_lt c
  show payload (String.utf8EncodeChar c) = c.val.toNat
  simp only [String.utf8EncodeChar]
  split
  · simp only [payload, UInt8.toNat_ofNat']
    omega
  · split
    · simp only [payload, UInt8.toNat_ofNat']
      omega
    · split <;> (simp only [payload, UInt8.toNat_ofNat']; omega)

theorem charOf?_encodeChar (c : Char) : charOf? (encodeChar c) = some c := by
  have h : Char.ofNat (payload (encodeChar c)) = c := by
    rw [payload_encodeChar, Char.ofNat_toNat]
  simp only [charOf?, h, if_true]

theorem charOf?_eq_some_iff {bs : List UInt8} {c : Char} :
    charOf? bs = some c ↔ encodeChar c = bs := by
  constructor
  · intro h
    simp only [charOf?] at h
    split at h
    · next hc => rw [← Option.some.inj h, hc]
    · cases h
  · intro h
    rw [← h, charOf?_encodeChar]

theorem isContinuation_iff {b : UInt8} :
    isContinuation b = true ↔ 0x80 ≤ b.toNat ∧ b.toNat < 0xC0 := by
  simp only [isContinuation, Bool.and_eq_true, decide_eq_true_eq]

/-- The bytes of one character: the first tells how many there are, the others continue it. No
character has more bytes than it needs, none is a surrogate and none is beyond the last. -/
inductive IsCharacter : List UInt8 → Prop
  | one {a : UInt8} (ha : a.toNat < 0x80) : IsCharacter [a]
  | two {a b : UInt8} (ha : 0xC2 ≤ a.toNat ∧ a.toNat < 0xE0) (hb : isContinuation b = true) :
      IsCharacter [a, b]
  | three {a b c : UInt8} (ha : 0xE0 ≤ a.toNat ∧ a.toNat < 0xF0) (hb : isContinuation b = true)
      (hc : isContinuation c = true) (hshort : a.toNat = 0xE0 → 0xA0 ≤ b.toNat)
      (hsurrogate : a.toNat = 0xED → b.toNat < 0xA0) : IsCharacter [a, b, c]
  | four {a b c d : UInt8} (ha : 0xF0 ≤ a.toNat ∧ a.toNat < 0xF5) (hb : isContinuation b = true)
      (hc : isContinuation c = true) (hd : isContinuation d = true)
      (hshort : a.toNat = 0xF0 → 0x90 ≤ b.toNat) (hlast : a.toNat = 0xF4 → b.toNat < 0x90) :
      IsCharacter [a, b, c, d]

theorem isCharacter_encodeChar (c : Char) : IsCharacter (encodeChar c) := by
  have hc : c.val.toNat < 0xD800 ∨ 0xDFFF < c.val.toNat ∧ c.val.toNat < 0x110000 := c.valid
  show IsCharacter (String.utf8EncodeChar c)
  simp only [String.utf8EncodeChar]
  generalize c.val.toNat = v at hc
  have continues (n : Nat) : isContinuation (UInt8.ofNat (n % 64 + 128)) = true := by
    rw [isContinuation_iff, UInt8.toNat_ofNat']
    omega
  split
  · refine .one ?_
    rw [UInt8.toNat_ofNat']
    omega
  · split
    · refine .two ?_ (continues _)
      rw [UInt8.toNat_ofNat']
      omega
    · split
      · refine .three ?_ (continues _) (continues _) ?_ ?_ <;>
        · simp only [UInt8.toNat_ofNat']
          omega
      · refine .four ?_ (continues _) (continues _) (continues _) ?_ ?_ <;>
        · simp only [UInt8.toNat_ofNat']
          omega

theorem exists_char {v : Nat} (h : v.isValidChar) : ∃ c : Char, c.val.toNat = v :=
  ⟨Char.ofNatAux v h, rfl⟩

theorem IsCharacter.exists_encodeChar {u : List UInt8} (h : IsCharacter u) :
    ∃ c, encodeChar c = u := by
  have byte {n : Nat} {a : UInt8} (hn : n % 256 = a.toNat) : UInt8.ofNat n = a :=
    UInt8.toNat_inj.1 (UInt8.toNat_ofNat'.trans hn)
  have hvalid : (payload u).isValidChar := by
    cases h <;> simp only [Nat.isValidChar, payload, isContinuation_iff] at * <;> omega
  obtain ⟨c, hc⟩ := exists_char hvalid
  refine ⟨c, ?_⟩
  show String.utf8EncodeChar c = u
  simp only [String.utf8EncodeChar]
  generalize c.val.toNat = v at hc
  clear hvalid
  cases h with
  | @one a ha =>
    simp only [payload] at hc
    rw [if_pos (by omega), byte (a := a) (by omega)]
  | @two a b ha hb =>
    simp only [payload, isContinuation_iff] at hc hb
    rw [if_neg (by omega), if_pos (by omega), byte (a := a) (by omega), byte (a := b) (by omega)]
  | @three a b c ha hb hc' =>
    simp only [payload, isContinuation_iff] at hc hb hc'
    rw [if_neg (by omega), if_neg (by omega), if_pos (by omega), byte (a := a) (by omega),
      byte (a := b) (by omega), byte (a := c) (by omega)]
  | @four a b c d ha hb hc' hd =>
    simp only [payload, isContinuation_iff] at hc hb hc' hd
    rw [if_neg (by omega), if_neg (by omega), if_neg (by omega), byte (a := a) (by omega),
      byte (a := b) (by omega), byte (a := c) (by omega), byte (a := d) (by omega)]

/-- a byte that begins a character, then at most three that continue it -/
theorem encodeChar_eq_cons (c : Char) : ∃ lead tail, encodeChar c = lead :: tail ∧
    isContinuation lead = false ∧ (∀ b ∈ tail, isContinuation b = true) ∧ tail.length ≤ 3 := by
  have first {a : UInt8} (ha : a.toNat < 0x80 ∨ 0xC0 ≤ a.toNat) : isContinuation a = false := by
    rw [← Bool.not_eq_true, isContinuation_iff]
    omega
  have h := isCharacter_encodeChar c
  generalize encodeChar c = u at h
  cases h with
  | one ha => exact ⟨_, _, rfl, first (.inl ha), by simp, by simp⟩
  | two ha hb => exact ⟨_, _, rfl, first (by omega), by simp [hb], by simp⟩
  | three ha hb hc => exact ⟨_, _, rfl, first (by omega), by simp [hb, hc], by simp⟩
  | four ha hb hc hd => exact ⟨_, _, rfl, first (by omega), by simp [hb, hc, hd], by simp⟩

theorem encodeChar_ne_nil (c : Char) : encodeChar c ≠ [] := by
  obtain ⟨lead, tail, h, _⟩ := encodeChar_eq_cons c
  rw [h]
  exact List.cons_ne_nil _ _

/-- no encoding of a character begins another one -/
theorem eq_of_encodeChar_append {c d : Char} {x y : List UInt8}
    (h : encodeChar c ++ x = encodeChar d ++ y) : c = d := by
  have hc := ByteArray.utf8DecodeChar?_utf8EncodeChar_append (b := x.toByteArray) (c := c)
  have hd := ByteArray.utf8DecodeChar?_utf8EncodeChar_append (b := y.toByteArray) (c := d)
  rw [← List.toByteArray_append] at hc hd
  have h : String.utf8EncodeChar c ++ x = String.utf8EncodeChar d ++ y := h
  rw [h, hd] at hc
  exact (Option.some.inj hc).symm

/-- the byte of an ASCII character is in the encoding of no other character -/
theorem eq_of_mem_encodeChar {c d : Char} {b : UInt8} (hd : encodeChar d = [b])
    (h : b ∈ encodeChar c) : c = d := by
  obtain ⟨lead, tail, hc, -, htail, -⟩ := encodeChar_eq_cons c
  rw [hc] at h
  rcases List.mem_cons.1 h with rfl | h
  · have happ : encodeChar c ++ [] = encodeChar d ++ tail := by
      rw [List.append_nil, hc, hd, List.singleton_append]
    exact eq_of_encodeChar_append happ
  · obtain ⟨lead', tail', hd', hlead', -, -⟩ := encodeChar_eq_cons d
    obtain rfl : b = lead' := by
      rw [hd] at hd'
      exact (List.cons.inj hd').1
    rw [htail b h] at hlead'
    cases hlead'

/-- fewer bytes than the whole encoding are no encoding -/
theorem charOf?_eq_none_of_append {c : Char} {x y : List UInt8} (h : encodeChar c = x ++ y)
    (hy : y ≠ []) : charOf? x = none := by
  cases hx : charOf? x with
  | none => rfl
  | some d =>
    have hd : encodeChar d = x := charOf?_eq_some_iff.1 hx
    have happ : encodeChar d ++ y = encodeChar c ++ [] := by rw [hd, ← h, List.append_nil]
    have hcd : d = c := eq_of_encodeChar_append happ
    rw [hcd, h] at hd
    exact absurd (List.self_eq_append_right.1 hd.symm) hy

/-! ### whole texts -/

theorem encode_nil : encode [] = [] := rfl

theorem encode_cons (c : Char) (t : Text) : encode (c :: t) = encodeChar c ++ encode t := rfl

theorem encode_append (s t : Text) : encode (s ++ t) = encode s ++ encode t :=
  List.flatMap_append

theorem decode?_encodeChar_append (c : Char) (bs : List UInt8) :
    decode? (encodeChar c ++ bs) = (decode? bs).map (c :: ·) := by
  obtain ⟨lead, tail, h, _, _, hlen⟩ := encodeChar_eq_cons c
  have hc := charOf?_encodeChar c
  have none (x y : List UInt8) (hxy : lead :: tail = x ++ y) (hy : y ≠ []) : charOf? x = none :=
    charOf?_eq_none_of_append (h.trans hxy) hy
  rw [h] at hc ⊢
  -- one case for each length that an encoding may have
  match tail, hlen with
  | [], _ =>
    show decode? (lead :: bs) = _
    rw [decode?.eq_def]
    simp only [hc]
  | [b], _ =>
    have h1 := none [lead] [b] rfl (by simp)
    show decode? (lead :: b :: bs) = _
    rw [decode?.eq_def]
    simp only [hc, h1]
  | [b, b'], _ =>
    have h1 := none [lead] [b, b'] rfl (by simp)
    have h2 := none [lead, b] [b'] rfl (by simp)
    show decode? (lead :: b :: b' :: bs) = _
    rw [decode?.eq_def]
    simp only [hc, h1, h2]
  | [b, b', b''], _ =>
    have h1 := none [lead] [b, b', b''] rfl (by simp)
    have h2 := none [lead, b] [b', b''] rfl (by simp)
    have h3 := none [lead, b, b'] [b''] rfl (by simp)
    show decode? (lead :: b :: b' :: b'' :: bs) = _
    rw [decode?.eq_def]
    simp only [hc, h1, h2, h3]

theorem decode?_encode (t : Text) : decode? (encode t) = some t := by
  induction t with
  | nil => rfl
  | cons c t ih => rw [encode_cons, decode?_encodeChar_append, ih]; rfl

theorem encode_of_decode? {bs : List UInt8} {t : Text} (h : decode? bs = some t) :
    encode t = bs := by
  fun_induction decode? bs generalizing t with
  | case1 => cases h; rfl
  | case2 a s x hx ih =>
    obtain ⟨u, hu, rfl⟩ := Option.map_eq_some_iff.1 h
    rw [encode_cons, charOf?_eq_some_iff.1 hx, ih hu]; rfl
  | case3 => cases h
  | case4 a _ b s x hx ih =>
    obtain ⟨u, hu, rfl⟩ := Option.map_eq_some_iff.1 h
    rw [encode_cons, charOf?_eq_some_iff.1 hx, ih hu]; rfl
  | case5 => cases h
  | case6 a _ b _ c s x hx ih =>
    obtain ⟨u, hu, rfl⟩ := Option.map_eq_some_iff.1 h
    rw [encode_cons, charOf?_eq_some_iff.1 hx, ih hu]; rfl
  | case7 => cases h
  | case8 a _ b _ c _ d s x hx ih =>
    obtain ⟨u, hu, rfl⟩ := Option.map_eq_some_iff.1 h
    rw [encode_cons, charOf?_eq_some_iff.1 hx, ih hu]; rfl
  | case9 => cases h

theorem decode?_eq_some_iff {bs : List UInt8} {t : Text} : decode? bs = some t ↔ encode t = bs :=
  ⟨encode_of_decode?, fun h => by rw [← h, decode?_encode]⟩

/-- bytes that are UTF-8: those of one character behind the other -/
inductive Valid : List UInt8 → Prop
  | nil : Valid []
  | append {u bs : List UInt8} (hu : IsCharacter u) (h : Valid bs) : Valid (u ++ bs)

theorem valid_iff {bs : List UInt8} : Valid bs ↔ ∃ t, encode t = bs := by
  constructor
  · intro h
    induction h with
    | nil => exact ⟨[], encode_nil⟩
    | append hu _ ih =>
      obtain ⟨c, rfl⟩ := hu.exists_encodeChar
      obtain ⟨t, rfl⟩ := ih
      exact ⟨c :: t, encode_cons c t⟩
  · rintro ⟨t, rfl⟩
    induction t with
    | nil => exact .nil
    | cons c t ih =>
      rw [encode_cons]
      exact .append (isCharacter_encodeChar c) ih

/-- bytes that begin no later than where a character begins, or are none at all -/
def StartsCharacter (bs : List UInt8) : Prop := ∀ b ∈ bs.head?, isContinuation b = false

theorem startsCharacter_encodeChar_append (c : Char) (bs : List UInt8) :
    StartsCharacter (encodeChar c ++ bs) := by
  obtain ⟨lead, tail, h, hlead, _⟩ := encodeChar_eq_cons c
  intro b hb
  rw [h, List.cons_append, List.head?_cons, Option.mem_some_iff] at hb
  rw [← hb, hlead]

theorem exists_of_encode_append {t : Text} {x y : List UInt8} (h : encode t = x ++ y)
    (hy : StartsCharacter y) : ∃ s u, t = s ++ u ∧ encode s = x ∧ encode u = y := by
  induction t generalizing x with
  | nil =>
    obtain ⟨rfl, rfl⟩ := List.append_eq_nil_iff.1 h.symm
    exact ⟨[], [], rfl, rfl, rfl⟩
  | cons c t ih =>
    rw [encode_cons] at h
    rcases List.append_eq_append_iff.1 h with ⟨z, hx, ht⟩ | ⟨z, hc, hyz⟩
    · -- the cut lies behind the first character
      obtain ⟨s, u, rfl, hs, hu⟩ := ih ht
      exact ⟨c :: s, u, rfl, by rw [encode_cons, hs, hx], hu⟩
    · obtain ⟨lead, tail, hlead, _, htail, _⟩ := encodeChar_eq_cons c
      rw [hlead] at hc
      cases x with
      | nil => exact ⟨[], c :: t, rfl, rfl, by rw [encode_cons, h]; rfl⟩
      | cons a x =>
        cases z with
        | nil =>
          refine ⟨[c], t, rfl, ?_, by rw [hyz]; rfl⟩
          rw [encode_cons, encode_nil, List.append_nil, hlead, hc, List.append_nil]
        | cons b z =>
          -- a cut inside of the character leaves a continuation at the front of the second half
          have hb : isContinuation b = true := by
            apply htail
            rw [(List.cons.inj hc).2]
            simp
          have hb' := hy b (by rw [hyz]; rfl)
          rw [hb] at hb'
          cases hb'

/-- Bytes that are cut where a character begins are read on each side by themselves. -/
theorem decode?_append {x y : List UInt8} (hy : StartsCharacter y) :
    decode? (x ++ y) = do return (← decode? x) ++ (← decode? y) := by
  ext t
  simp only [Option.bind_eq_bind, Option.pure_def, Option.bind_eq_some_iff, Option.some.injEq,
    decode?_eq_some_iff]
  constructor
  · intro h
    obtain ⟨s, u, rfl, hs, hu⟩ := exists_of_encode_append h hy
    exact ⟨s, hs, u, hu, rfl⟩
  · rintro ⟨s, rfl, u, rfl, rfl⟩
    exact encode_append s u

/-- Behind a text the bytes are read as they are by themselves. -/
theorem decode?_encode_append (t : Text) (bs : List UInt8) :
    decode? (encode t ++ bs) = (decode? bs).map (t ++ ·) := by
  induction t with
  | nil =>
    rw [encode_nil, List.nil_append]
    cases decode? bs <;> rfl
  | cons c t ih =>
    rw [encode_cons, List.append_assoc, decode?_encodeChar_append, ih, Option.map_map]
    rfl

/-- the bytes of a character inside of an encoding are that character -/
theorem exists_of_encode_append_encodeChar {t : Text} {x y : List UInt8} {c : Char}
    (h : encode t = x ++ (encodeChar c ++ y)) :
    ∃ s u, t = s ++ c :: u ∧ encode s = x ∧ encode u = y := by
  obtain ⟨s, u, rfl, hs, hu⟩ := exists_of_encode_append h (startsCharacter_encodeChar_append c y)
  cases u with
  | nil =>
    rw [encode_nil] at hu
    exact absurd (List.append_eq_nil_iff.1 hu.symm).1 (encodeChar_ne_nil c)
  | cons d u =>
    rw [encode_cons] at hu
    obtain rfl := eq_of_encodeChar_append hu
    exact ⟨s, u, rfl, hs, List.append_cancel_left hu⟩

end UriTemplate.Utf8
