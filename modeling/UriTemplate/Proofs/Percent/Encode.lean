import UriTemplate.Proofs.Percent.Decode

/-!
# What encoding writes

* `consists_encode`                 triplets and allowed characters only, so that text put behind it
                                    cannot complete an escape;
* `decode?_encode_unreserved`       decoding gives the text back;
* `decodedBytes_encode_reserved`    where triplets pass through, the text and its encoding stand for
                                    the same bytes;
* `decode?_encode_either`           so they are decoded alike, to the same text or not at all.
-/

namespace UriTemplate.Percent

/-! ### allowed characters -/

theorem not_keeps_percent (allow : Allow) : allow.keeps '%' = false := by
  cases allow <;> decide

/-! ### escapes -/

theorem symbols_escape_append (b : UInt8) (t : Text) : symbols (escape b ++ t) =
    .triplet (hexDigit (b.toNat / 16)) (hexDigit (b.toNat % 16)) :: symbols t := by
  have hb := b.toNat_lt
  apply symbols_triplet
  rw [isHexDigit_hexDigit _ (by omega), isHexDigit_hexDigit _ (by omega)]
  rfl

theorem bytes_escape (b : UInt8) :
    (Symbol.triplet (hexDigit (b.toNat / 16)) (hexDigit (b.toNat % 16))).bytes = [b] := by
  have hb := b.toNat_lt
  simp only [Symbol.bytes]
  rw [hexValue_hexDigit _ (by omega), hexValue_hexDigit _ (by omega), Nat.div_add_mod,
    UInt8.ofNat_toNat]

theorem consists_escapes (p : Char → Bool) (bs : List UInt8) : Consists p (bs.flatMap escape) := by
  induction bs with
  | nil => exact consists_nil p
  | cons b bs ih =>
    intro c hc
    rw [List.flatMap_cons, symbols_escape_append] at hc
    rcases List.mem_cons.1 hc with hc | hc
    · cases hc
    · exact ih c hc

theorem decodedBytes_escapes (bs : List UInt8) : decodedBytes (bs.flatMap escape) = bs := by
  induction bs with
  | nil => rfl
  | cons b bs ih =>
    unfold decodedBytes at ih ⊢
    rw [List.flatMap_cons, symbols_escape_append, List.flatMap_cons, bytes_escape, ih]
    rfl

/-! ### one character or symbol -/

theorem consists_encodeChar (allow : Allow) (c : Char) :
    Consists allow.keeps (encodeChar allow c) := by
  unfold encodeChar
  split
  · next h => exact consists_of_forall (by simpa using h) (not_keeps_percent allow)
  · exact consists_escapes _ _

theorem decodedBytes_encodeChar (allow : Allow) (c : Char) :
    decodedBytes (encodeChar allow c) = Utf8.encodeChar c := by
  unfold encodeChar
  split
  · next h =>
    have hne : c ≠ '%' := by
      rintro rfl
      rw [not_keeps_percent] at h
      cases h
    rw [decodedBytes_cons hne, decodedBytes_nil, List.append_nil]
  · exact decodedBytes_escapes _

theorem consists_encodeSymbol {t : Text} {s : Symbol} (h : s ∈ symbols t) :
    Consists Allow.reserved.keeps (encodeSymbol s) := by
  cases s with
  | triplet hi lo =>
    have hd := Bool.and_eq_true_iff.2 (isHexDigit_of_triplet_mem h)
    intro c hc
    simp only [encodeSymbol, symbols_triplet hd, symbols_nil, List.mem_cons, reduceCtorEq,
      List.not_mem_nil, or_false] at hc
  | plain c => exact consists_encodeChar _ c

theorem decodedBytes_encodeSymbol {t : Text} {s : Symbol} (h : s ∈ symbols t) :
    decodedBytes (encodeSymbol s) = s.bytes := by
  cases s with
  | triplet hi lo =>
    have hd := Bool.and_eq_true_iff.2 (isHexDigit_of_triplet_mem h)
    simp only [decodedBytes, encodeSymbol, symbols_triplet hd, symbols_nil, List.flatMap_cons,
      List.flatMap_nil, List.append_nil]
  | plain c => exact decodedBytes_encodeChar _ c

/-! ### whole texts -/

section
variable {ι : Type} {f : ι → Text}

theorem consists_flatMap {p : Char → Bool} (hp : p '%' = false) {l : List ι}
    (h : ∀ x ∈ l, Consists p (f x)) : Consists p (l.flatMap f) := by
  induction l with
  | nil => exact consists_nil p
  | cons x l ih =>
    have hx := h x List.mem_cons_self
    have hl := ih fun y hy => h y (List.mem_cons_of_mem _ hy)
    rw [List.flatMap_cons]
    exact (consists_append (hx.escaped hp) _).2 ⟨hx, hl⟩

theorem decodedBytes_flatMap {g : ι → List UInt8} {l : List ι} (he : ∀ x ∈ l, Escaped (f x))
    (h : ∀ x ∈ l, decodedBytes (f x) = g x) : decodedBytes (l.flatMap f) = l.flatMap g := by
  induction l with
  | nil => rfl
  | cons x l ih =>
    rw [List.flatMap_cons, decodedBytes_append (he x List.mem_cons_self),
      h x List.mem_cons_self, List.flatMap_cons,
      ih (fun y hy => he y (List.mem_cons_of_mem _ hy)) fun y hy => h y (List.mem_cons_of_mem _ hy)]

end

theorem encode_reserved_triplet {hi lo : Char} (h : (isHexDigit hi && isHexDigit lo) = true)
    (t : Text) : encode .reserved ('%' :: hi :: lo :: t) =
      '%' :: hi :: lo :: encode .reserved t := by
  show (symbols ('%' :: hi :: lo :: t)).flatMap encodeSymbol = _
  rw [symbols_triplet h, List.flatMap_cons]
  rfl

theorem encode_reserved_plain {c : Char} {t : Text} (h : ¬startsTriplet (c :: t) = true) :
    encode .reserved (c :: t) = encodeChar .reserved c ++ encode .reserved t := by
  show (symbols (c :: t)).flatMap encodeSymbol = _
  rw [symbols_of_not_startsTriplet h, List.flatMap_cons]
  rfl

theorem consists_encode (allow : Allow) (t : Text) : Consists allow.keeps (encode allow t) := by
  cases allow with
  | unreserved => exact consists_flatMap (not_keeps_percent _) fun c _ => consists_encodeChar _ c
  | reserved => exact consists_flatMap (not_keeps_percent _) fun s hs => consists_encodeSymbol hs

/-- a character that is in no escape stands in the text, and needs none there -/
theorem mem_encode_unreserved {c : Char} (hc : standsAlone c = true) {t : Text}
    (h : c ∈ encode .unreserved t) : c ∈ t ∧ isUnreserved c = true := by
  obtain ⟨d, hd, hcd⟩ := List.mem_flatMap.1 h
  unfold encodeChar at hcd
  split at hcd
  · next hkeeps =>
    obtain rfl := List.mem_singleton.1 hcd
    exact ⟨hd, hkeeps⟩
  · exact absurd hcd ((consists_escapes (fun _ => false) _).not_mem hc rfl)

theorem decodedBytes_encode_unreserved (t : Text) :
    decodedBytes (encode .unreserved t) = Utf8.encode t :=
  decodedBytes_flatMap (fun c _ => (consists_encodeChar _ c).escaped (not_keeps_percent _))
    fun c _ => decodedBytes_encodeChar _ c

theorem decodedBytes_encode_reserved (t : Text) :
    decodedBytes (encode .reserved t) = decodedBytes t :=
  decodedBytes_flatMap (fun _ hs => (consists_encodeSymbol hs).escaped (not_keeps_percent _))
    fun _ hs => decodedBytes_encodeSymbol hs

theorem decode?_encode_unreserved (t : Text) : decode? (encode .unreserved t) = some t :=
  decode?_eq_some_iff.2 (decodedBytes_encode_unreserved t).symm

/-- Decoding undoes the one encoding, and does not notice the other: runs of escapes that were apart
in the text may have become one, but what they stand for has not changed. -/
theorem decode?_encode_either (t : Text) :
    decode? (encode .unreserved t) = some t ∧ decode? (encode .reserved t) = decode? t :=
  ⟨decode?_encode_unreserved t, decode?_eq_of_decodedBytes (decodedBytes_encode_reserved t)⟩

-- an escape that a character outside ASCII was parted from is next to other escapes afterwards
example : encode .reserved ['%', 'C', '3', 'é'] = "%C3%C3%A9".toList ∧
    decode? "%C3%C3%A9".toList = none := by decide

end UriTemplate.Percent
