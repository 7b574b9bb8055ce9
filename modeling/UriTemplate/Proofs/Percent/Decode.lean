import Mathlib.Data.List.SplitBy
import UriTemplate.Percent.Coding
import UriTemplate.Proofs.Lists
import UriTemplate.Proofs.Percent.Symbol

/-!
# Decoding by runs and decoding by symbols

`decode?` cuts a text into runs of ASCII characters and of others, and each ASCII run at every `%`;
`decodedBytes` walks from symbol to symbol and puts the bytes of all symbols in one list.

* `runBytes_eq`           the pieces of a run and its symbols stand for the same bytes;
* `decode?_eq`            a text is decoded to the text that its bytes encode, so cutting at the
                          characters outside ASCII loses nothing;
* `decode?_agrees`        so it is decoded exactly if its bytes are UTF-8;
* `decodes_intercalate`   a list can be decoded exactly if its items can, so cutting a span into
                          segments neither spoils an escape nor mends one.
-/

namespace UriTemplate.Percent

/-! ### the pieces of a run -/

section
variable {t : Text} {ps : List Text}

theorem decodedBytes_of_percent_not_mem (h : '%' ∉ t) : decodedBytes t = Utf8.encode t :=
  decodedBytes_of_symbols (symbols_of_percent_not_mem h)

theorem decodedBytes_percent_cons (h : '%' ∉ t) : decodedBytes ('%' :: t) = pieceBytes t := by
  have hpercent : Utf8.encodeChar '%' = [0x25] := by decide
  unfold pieceBytes
  split
  · next hi lo t =>
    split
    · next hd =>
      have ht : '%' ∉ t := fun hm => h (List.mem_cons_of_mem _ (List.mem_cons_of_mem _ hm))
      rw [decodedBytes_triplet hd, decodedBytes_of_percent_not_mem ht]
      rfl
    · next hd =>
      have hstart : ¬startsTriplet ('%' :: hi :: lo :: t) = true := hd
      rw [decodedBytes_plain hstart, decodedBytes_of_percent_not_mem h, hpercent]
      rfl
  · next hshort =>
    have hstart : ¬startsTriplet ('%' :: t) = true := by
      intro hstart
      obtain ⟨hi, lo, u, -, rfl, -⟩ := exists_of_startsTriplet hstart
      exact hshort hi lo u rfl
    rw [decodedBytes_plain hstart, decodedBytes_of_percent_not_mem h, hpercent]
    rfl

/-- No triplet goes across a `%`. -/
theorem seamless_pieces (u : Text) (ps : List Text) : Seamless u (ps.flatMap ('%' :: ·)) := by
  cases ps with
  | nil =>
    show symbols (u ++ []) = symbols u ++ symbols []
    rw [List.append_nil, symbols_nil, List.append_nil]
  | cons p ps => exact seamless_cons (by decide) u _

theorem decodedBytes_pieces (h : ∀ p ∈ ps, '%' ∉ p) :
    decodedBytes (ps.flatMap ('%' :: ·)) = ps.flatMap pieceBytes := by
  induction ps with
  | nil => rfl
  | cons p ps ih =>
    obtain ⟨hp, hps⟩ := List.forall_mem_cons.1 h
    rw [List.flatMap_cons, (seamless_pieces _ ps).decodedBytes_append, decodedBytes_percent_cons hp,
      ih hps, List.flatMap_cons]

/-- Cutting at every `%` and walking from symbol to symbol come to the same bytes. -/
theorem runBytes_eq (t : Text) : runBytes t = decodedBytes t := by
  unfold runBytes
  split
  · next h => exact absurd h (List.splitOn_ne_nil _ _)
  · next front ps h =>
    have ht : [ '%' ].intercalate (t.splitOn '%') = t := List.intercalate_splitOn '%'
    rw [h, intercalate_cons_eq_flatMap] at ht
    have hpieces : ∀ p ∈ front :: ps, '%' ∉ p := fun p hp => not_mem_of_mem_splitOn (h ▸ hp)
    obtain ⟨hfront, hps⟩ := List.forall_mem_cons.1 hpieces
    rw [← ht, (seamless_pieces front ps).decodedBytes_append, decodedBytes_pieces hps,
      decodedBytes_of_percent_not_mem hfront]

end

/-! ### runs -/

section
variable {r t : Text} {rs : List Text}

/-- the characters of a run are all of one kind -/
theorem run_cases (h : r.IsChain fun c d => sameRun c d = true) :
    (∀ c ∈ r, isAscii c = true) ∨ ∀ c ∈ r, isAscii c = false := by
  induction r with
  | nil => exact .inl nofun
  | cons c r ih =>
    cases r with
    | nil =>
      simp only [List.forall_mem_singleton]
      cases isAscii c <;> simp
    | cons d r =>
      rw [List.isChain_cons_cons] at h
      have hsame : isAscii c = isAscii d := beq_iff_eq.1 h.1
      rcases ih h.2 with hr | hr
      · exact .inl (List.forall_mem_cons.2 ⟨hsame.trans (hr d List.mem_cons_self), hr⟩)
      · exact .inr (List.forall_mem_cons.2 ⟨hsame.trans (hr d List.mem_cons_self), hr⟩)

/-- an ASCII run is read by itself if what follows it begins with another character -/
theorem decode?_ascii_run_append (ht : ∀ c ∈ t.head?, isAscii c = false) (r : Text) :
    Utf8.decode? (decodedBytes (r ++ t)) =
      do return (← Utf8.decode? (runBytes r)) ++ (← Utf8.decode? (decodedBytes t)) := by
  rw [runBytes_eq]
  cases t with
  | nil =>
    rw [List.append_nil, decodedBytes_nil]
    cases Utf8.decode? (decodedBytes r) with
    | none => rfl
    | some u => exact congrArg some (List.append_nil u).symm
  | cons c t =>
    have hc : isAscii c = false := ht c rfl
    have halone : standsAlone c = true := standsAlone_of_not_isAscii hc
    rw [decodedBytes_append_cons halone, decodedBytes_cons (ne_percent_of_standsAlone halone)]
    exact Utf8.decode?_append (Utf8.startsCharacter_encodeChar_append c _)

/-- characters outside ASCII stand for themselves -/
theorem decode?_other_run_append (hr : ∀ c ∈ r, isAscii c = false) (t : Text) :
    Utf8.decode? (decodedBytes (r ++ t)) = (Utf8.decode? (decodedBytes t)).map (r ++ ·) := by
  have hpercent : '%' ∉ r := fun hm => absurd (hr _ hm) (by decide)
  have hsymbols := symbols_of_percent_not_mem hpercent
  have hescaped : Escaped r := by
    rw [Escaped, hsymbols]
    intro hm
    obtain ⟨c, hc, heq⟩ := List.mem_map.1 hm
    cases heq
    exact hpercent hc
  rw [decodedBytes_append hescaped, decodedBytes_of_percent_not_mem hpercent]
  exact Utf8.decode?_encode_append r _

/-- What follows a run begins with a character of the other kind. -/
theorem head_of_parted
    (h : (r :: rs).IsChain fun r s => ∃ hr hs, sameRun (r.getLast hr) (s.head hs) = false)
    (hr : ∀ c ∈ r, isAscii c = true) : ∀ c ∈ rs.flatten.head?, isAscii c = false := by
  cases rs with
  | nil => exact nofun
  | cons s rs =>
    obtain ⟨⟨hne, hs, hdiffer⟩, -⟩ := List.isChain_cons_cons.1 h
    intro c hc
    obtain ⟨d, s, rfl⟩ := List.exists_cons_of_ne_nil hs
    cases hc
    rw [sameRun, hr _ (List.getLast_mem hne)] at hdiffer
    simpa using hdiffer

/-- Runs that part the kinds of characters are read one by one. -/
theorem mapM_decodeRun? (hne : [] ∉ rs) (hruns : ∀ r ∈ rs, r.IsChain fun c d => sameRun c d = true)
    (hparted : rs.IsChain fun r s => ∃ hr hs, sameRun (r.getLast hr) (s.head hs) = false) :
    (rs.mapM decodeRun?).map List.flatten = Utf8.decode? (decodedBytes rs.flatten) := by
  induction rs with
  | nil => rfl
  | cons r rs ih =>
    obtain ⟨hr, hrs⟩ := List.forall_mem_cons.1 hruns
    rw [List.mem_cons, not_or] at hne
    have hbehind := ih hne.2 hrs hparted.tail
    have hcons : ((r :: rs).mapM decodeRun?).map List.flatten =
        do return (← decodeRun? r) ++ (← Utf8.decode? (decodedBytes rs.flatten)) := by
      rw [← hbehind, List.mapM_cons]
      cases decodeRun? r with
      | none => rfl
      | some u => cases rs.mapM decodeRun? <;> rfl
    rw [hcons, List.flatten_cons]
    rcases run_cases hr with hascii | hother
    · rw [decode?_ascii_run_append (head_of_parted hparted hascii), decodeRun?,
        if_pos (List.all_eq_true.2 hascii)]
    · have hall : ¬r.all isAscii = true := by
        intro hall
        obtain ⟨c, hc⟩ := List.exists_mem_of_ne_nil r (Ne.symm hne.1)
        have hc' := hother c hc
        rw [List.all_eq_true.1 hall c hc] at hc'
        cases hc'
      rw [decode?_other_run_append hother, decodeRun?, if_neg hall]
      cases Utf8.decode? (decodedBytes rs.flatten) <;> rfl

theorem decode?_eq (t : Text) : decode? t = Utf8.decode? (decodedBytes t) := by
  have h := mapM_decodeRun? (List.nil_notMem_splitBy sameRun t)
    (fun r hr => List.isChain_of_mem_splitBy hr) (List.isChain_getLast_head_splitBy sameRun t)
  rw [List.flatten_splitBy] at h
  rw [← h, decode?]
  cases (t.splitBy sameRun).mapM decodeRun? <;> rfl

end

theorem decode?_eq_some_iff {t s : Text} :
    decode? t = some s ↔ Utf8.encode s = decodedBytes t := by
  rw [decode?_eq, Utf8.decode?_eq_some_iff]

theorem decode?_eq_of_decodedBytes {s t : Text} (h : decodedBytes s = decodedBytes t) :
    decode? s = decode? t := by
  ext u
  rw [decode?_eq_some_iff, decode?_eq_some_iff, h]

/-! ### texts that can be decoded -/

/-- the bytes of the text are UTF-8 -/
def Decodes (t : Text) : Prop := (decode? t).isSome = true

theorem decodes_iff {t : Text} : Decodes t ↔ ∃ s, Utf8.encode s = decodedBytes t := by
  unfold Decodes
  rw [Option.isSome_iff_exists]
  simp only [decode?_eq_some_iff]

/-- Decoding by runs and decoding by symbols agree: a text is decoded exactly if the bytes that it
stands for are UTF-8, and then it is decoded to the text with these bytes. -/
theorem decode?_agrees (t : Text) :
    ((decode? t).isSome = true ↔ Utf8.Valid (decodedBytes t)) ∧
      ∀ s, decode? t = some s → Utf8.encode s = decodedBytes t :=
  ⟨decodes_iff.trans Utf8.valid_iff.symm, fun _ => decode?_eq_some_iff.1⟩

theorem Decodes.exists {t : Text} (h : Decodes t) : ∃ s, decode? t = some s :=
  Option.isSome_iff_exists.1 h

theorem decodes_nil : Decodes [] := rfl

/-- without triplets there is nothing to go wrong -/
theorem decode?_of_symbols {t : Text} (h : symbols t = t.map .plain) : decode? t = some t :=
  decode?_eq_some_iff.2 (decodedBytes_of_symbols h).symm

/-- the bytes of an ASCII character begin a character wherever they stand -/
theorem decodes_append_cons {c : Char} (hc : standsAlone c = true) (a b : Text) :
    Decodes (a ++ c :: b) ↔ Decodes a ∧ Decodes b := by
  simp only [decodes_iff, decodedBytes_append_cons hc]
  constructor
  · rintro ⟨s, hs⟩
    obtain ⟨s₁, u, rfl, hs₁, hu⟩ := Utf8.exists_of_encode_append_encodeChar hs
    exact ⟨⟨s₁, hs₁⟩, ⟨u, hu⟩⟩
  · rintro ⟨⟨s, hs⟩, ⟨u, hu⟩⟩
    exact ⟨s ++ c :: u, by rw [Utf8.encode_append, Utf8.encode_cons, hs, hu]⟩

theorem decodes_intercalate {c : Char} (hc : standsAlone c = true) (ts : List Text) :
    Decodes ([c].intercalate ts) ↔ ∀ t ∈ ts, Decodes t := by
  induction ts with
  | nil => exact ⟨fun _ t ht => (List.not_mem_nil ht).elim, fun _ => decodes_nil⟩
  | cons t ts ih =>
    cases ts with
    | nil => simp
    | cons u us =>
      rw [List.intercalate_cons_cons, List.append_assoc, List.singleton_append,
        decodes_append_cons hc, ih]
      exact List.forall_mem_cons.symm

theorem Decodes.splitOn {c : Char} (hc : standsAlone c = true) {t : Text} (h : Decodes t) :
    ∀ s ∈ t.splitOn c, Decodes s := by
  rw [← decodes_intercalate hc, List.intercalate_splitOn]
  exact h

/-! ### decoded percent signs -/

/-- Decimal digits have no second case. -/
theorem hexDigit_hexValue {c : Char} (h : isHexDigit c = true) (hlt : hexValue c < 10) :
    hexDigit (hexValue c) = c := by
  simp only [isHexDigit, Bool.or_eq_true, Bool.and_eq_true, decide_eq_true_eq] at h
  have hvalue : hexValue c = c.toNat - 48 := by
    unfold hexValue at hlt ⊢
    dsimp only at hlt ⊢
    split
    · rfl
    · split at hlt
      · contradiction
      · split at hlt <;> omega
  have hnat : 48 + (c.toNat - 48) = c.toNat := by omega
  rw [hexDigit, if_pos hlt, hvalue, hnat, Char.ofNat_toNat]

/-- so a byte that needs no other digits has one escape -/
theorem digits_of_bytes {hi lo : Char} {b : UInt8} (h : (isHexDigit hi && isHexDigit lo) = true)
    (hb : (Symbol.triplet hi lo).bytes = [b]) (hhi : b.toNat / 16 < 10) (hlo : b.toNat % 16 < 10) :
    hi = hexDigit (b.toNat / 16) ∧ lo = hexDigit (b.toNat % 16) := by
  obtain ⟨hdigit, hdigit'⟩ := Bool.and_eq_true_iff.1 h
  have hi16 := hexValue_lt hdigit
  have lo16 := hexValue_lt hdigit'
  have hvalue : b.toNat = 16 * hexValue hi + hexValue lo := by
    rw [← (List.cons.inj hb).1, UInt8.toNat_ofNat']
    omega
  have hquotient : b.toNat / 16 = hexValue hi := by omega
  have hrest : b.toNat % 16 = hexValue lo := by omega
  rw [hquotient] at hhi ⊢
  rw [hrest] at hlo ⊢
  exact ⟨(hexDigit_hexValue hdigit hhi).symm, (hexDigit_hexValue hdigit' hlo).symm⟩

theorem text_infix_of_mem_symbols {t : Text} {x : Symbol} (h : x ∈ symbols t) :
    x.text <:+: t := by
  obtain ⟨ss, ss', hss⟩ := List.append_of_mem h
  have ht := symbols_text t
  rw [hss, List.flatMap_append, List.flatMap_cons] at ht
  exact ⟨ss.flatMap Symbol.text, ss'.flatMap Symbol.text, by rw [List.append_assoc]; exact ht⟩

/-- Only `%25` is decoded to a percent sign. -/
theorem percent_not_mem_of_decode? {s t : Text} (h : decode? s = some t) (hs : Escaped s)
    (h25 : ¬['%', '2', '5'] <:+: s) : '%' ∉ t := by
  intro hm
  have hpercent : Utf8.encodeChar '%' = [0x25] := by decide
  have hbyte : (0x25 : UInt8) ∈ decodedBytes s := by
    rw [← decode?_eq_some_iff.1 h]
    exact List.mem_flatMap.2 ⟨'%', hm, by rw [hpercent]; exact List.mem_cons_self⟩
  obtain ⟨x, hx, hb⟩ := List.mem_flatMap.1 hbyte
  cases x with
  | plain c =>
    obtain rfl := Utf8.eq_of_mem_encodeChar hpercent hb
    exact hs hx
  | triplet hi lo =>
    have hd := Bool.and_eq_true_iff.2 (isHexDigit_of_triplet_mem hx)
    have hbytes : (Symbol.triplet hi lo).bytes = [0x25] :=
      congrArg (fun b => [b]) (List.mem_singleton.1 hb).symm
    obtain ⟨rfl, rfl⟩ := digits_of_bytes hd hbytes (by decide) (by decide)
    exact h25 (text_infix_of_mem_symbols hx)

end UriTemplate.Percent
