import UriTemplate.Proofs.Percent.Decode

/-!
# Where a text may be cut

A reader that takes whole symbols stops at seams that no triplet goes across.

* `Reaches`                           the positions of these seams, from one position on;
* `CompletesPercent`                  the pairs of a text and a longer one that begins with it which
                                      stand for the same bytes: the seam is inside a triplet;
* `completesPercent_of_decodedBytes`  there are no others.
-/

namespace UriTemplate.Percent

/-! ### from symbol to symbol -/

/-- the second position is reached from the first by reading whole symbols -/
inductive Reaches (t : Text) : Nat → Nat → Prop
  | refl (i : Nat) : Reaches t i i
  | step {i j k : Nat} {s : Symbol} (h : symbolAt? t i = some (s, j)) (hr : Reaches t j k) :
      Reaches t i k

section
variable {c hi lo : Char} {t r u v : Text} {s : Symbol} {i j k : Nat}

theorem readSymbol?_triplet (h : (isHexDigit hi && isHexDigit lo) = true) (t : Text) :
    readSymbol? ('%' :: hi :: lo :: t) = some (.triplet hi lo, t) := by
  rw [readSymbol?, if_pos h]

theorem readSymbol?_plain (h : ¬startsTriplet (c :: t) = true) :
    readSymbol? (c :: t) = some (.plain c, t) := by
  unfold readSymbol?
  split
  · contradiction
  · next hi lo u heq =>
    cases heq
    exact if_neg h
  · next heq =>
    cases heq
    rfl

theorem readSymbol?_cases (h : readSymbol? t = some (s, r)) :
    (∃ hi lo, (isHexDigit hi && isHexDigit lo) = true ∧ s = .triplet hi lo ∧
      t = '%' :: hi :: lo :: r) ∨
    ∃ c, ¬startsTriplet (c :: r) = true ∧ s = .plain c ∧ t = c :: r := by
  induction t using symbol_induction with
  | nil => cases h
  | triplet hi lo t hd _ =>
    rw [readSymbol?_triplet hd] at h
    cases h
    exact .inl ⟨hi, lo, hd, rfl, rfl⟩
  | plain c t hc _ =>
    rw [readSymbol?_plain hc] at h
    cases h
    exact .inr ⟨c, hc, rfl, rfl⟩

theorem symbolAt?_eq_some_iff : symbolAt? t i = some (s, j) ↔
    ∃ r, readSymbol? (t.drop i) = some (s, r) ∧ i + s.width = j := by
  unfold symbolAt?
  rw [Option.map_eq_some_iff]
  constructor
  · rintro ⟨⟨s', r⟩, hread, heq⟩
    cases heq
    exact ⟨r, hread, rfl⟩
  · rintro ⟨r, hread, rfl⟩
    exact ⟨(s, r), hread, rfl⟩

theorem drop_of_drop_eq_append (h : t.drop i = u ++ v) : t.drop (i + u.length) = v := by
  rw [← List.drop_drop, h, List.drop_left]

/-- What is read lies in front of a seam. -/
theorem Reaches.exists_seamless (h : Reaches t i k) :
    ∃ u v, t.drop i = u ++ v ∧ Seamless u v ∧ i + u.length = k := by
  induction h with
  | refl i => exact ⟨[], t.drop i, rfl, seamless_nil _, rfl⟩
  | @step i j k s h _ ih =>
    obtain ⟨u, v, hdrop, hseam, rfl⟩ := ih
    obtain ⟨r, hread, rfl⟩ := symbolAt?_eq_some_iff.1 h
    have htext := text_of_readSymbol hread
    have hr : r = u ++ v := by rw [← hdrop, Symbol.width, drop_of_drop_eq_append htext]
    subst hr
    obtain ⟨hi, lo, hd, rfl, ht⟩ | ⟨c, hc, rfl, ht⟩ := readSymbol?_cases hread
    · refine ⟨'%' :: hi :: lo :: u, v, ht, (seamless_triplet hd).2 hseam, ?_⟩
      simp only [List.length_cons, Symbol.width, Symbol.text, List.length_nil]
      omega
    · have hcu : ¬startsTriplet (c :: u) = true := mt (startsTriplet_append · v) hc
      refine ⟨c :: u, v, ht, (seamless_plain hcu).2 ⟨hc, hseam⟩, ?_⟩
      simp only [List.length_cons, Symbol.width, Symbol.text, List.length_nil]
      omega

theorem reaches_of_seamless (hdrop : t.drop i = u ++ v) (hseam : Seamless u v) :
    Reaches t i (i + u.length) := by
  induction u using symbol_induction generalizing i with
  | nil => exact .refl i
  | triplet hi lo u hd ih =>
    have hread : readSymbol? (t.drop i) = some (.triplet hi lo, u ++ v) := by
      rw [hdrop]
      exact readSymbol?_triplet hd (u ++ v)
    have hrest : t.drop (i + 3) = u ++ v := drop_of_drop_eq_append (u := ['%', hi, lo]) hdrop
    have hlen : i + ('%' :: hi :: lo :: u).length = i + 3 + u.length := by
      simp only [List.length_cons]
      omega
    rw [hlen]
    exact .step (symbolAt?_eq_some_iff.2 ⟨u ++ v, hread, rfl⟩)
      (ih hrest ((seamless_triplet hd).1 hseam))
  | plain c u hc ih =>
    obtain ⟨hcv, hu⟩ := (seamless_plain hc).1 hseam
    have hread : readSymbol? (t.drop i) = some (.plain c, u ++ v) := by
      rw [hdrop]
      exact readSymbol?_plain hcv
    have hrest : t.drop (i + 1) = u ++ v := drop_of_drop_eq_append (u := [c]) hdrop
    have hlen : i + (c :: u).length = i + 1 + u.length := by
      simp only [List.length_cons]
      omega
    rw [hlen]
    exact .step (symbolAt?_eq_some_iff.2 ⟨u ++ v, hread, rfl⟩) (ih hrest hu)

end

/-! ### texts for the same bytes -/

section
variable {c : Char} {b : UInt8} {t u : Text}

/-- the texts for the byte of an ASCII character -/
theorem text_cases_of_decodedBytes (hb : Utf8.encodeChar c = [b]) (h : decodedBytes t = [b]) :
    t = [c] ∨ ∃ hi lo, (isHexDigit hi && isHexDigit lo) = true ∧
      (Symbol.triplet hi lo).bytes = [b] ∧ t = ['%', hi, lo] := by
  induction t using symbol_induction with
  | nil => cases h
  | triplet hi lo t hd _ =>
    rw [decodedBytes_triplet hd] at h
    obtain ⟨hbyte, ht⟩ := List.cons.inj h
    rw [decodedBytes_eq_nil ht]
    exact .inr ⟨hi, lo, hd, congrArg (fun b => [b]) hbyte, rfl⟩
  | plain d t hd _ =>
    rw [decodedBytes_plain hd] at h
    obtain ⟨a, as, hencode⟩ := List.exists_cons_of_ne_nil (Utf8.encodeChar_ne_nil d)
    rw [hencode, List.cons_append] at h
    obtain ⟨rfl, hnil⟩ := List.cons.inj h
    obtain ⟨-, ht⟩ := List.append_eq_nil_iff.1 hnil
    have hmem : a ∈ Utf8.encodeChar d := by
      rw [hencode]
      exact List.mem_cons_self
    rw [decodedBytes_eq_nil ht, Utf8.eq_of_mem_encodeChar hb hmem]
    exact .inl rfl

/-- The first text ends in a bare `%`, alone or in front of a `2`. The second goes on where it ends
and makes it the escape `%25`, behind which the `2` comes once more, in either spelling. -/
inductive CompletesPercent : Text → Text → Prop
  | sign (t : Text) : CompletesPercent (t ++ ['%']) (t ++ ['%', '2', '5'])
  | digit (t : Text) : CompletesPercent (t ++ ['%', '2']) (t ++ ['%', '2', '5', '2'])
  | escapedDigit (t : Text) :
      CompletesPercent (t ++ ['%', '2']) (t ++ ['%', '2', '5', '%', '3', '2'])

theorem CompletesPercent.append (h : CompletesPercent t u) (s : Text) :
    CompletesPercent (s ++ t) (s ++ u) := by
  cases h with
  | sign t =>
    rw [← List.append_assoc, ← List.append_assoc]
    exact .sign _
  | digit t =>
    rw [← List.append_assoc, ← List.append_assoc]
    exact .digit _
  | escapedDigit t =>
    rw [← List.append_assoc, ← List.append_assoc]
    exact .escapedDigit _

theorem CompletesPercent.prefix_ne (h : CompletesPercent t u) : t <+: u ∧ t ≠ u := by
  cases h with
  | sign t => exact ⟨⟨['2', '5'], by simp⟩, by simp⟩
  | digit t => exact ⟨⟨['5', '2'], by simp⟩, by simp⟩
  | escapedDigit t => exact ⟨⟨['5', '%', '3', '2'], by simp⟩, by simp⟩

/-- Only so do a text and a longer one that begins with it stand for the same bytes. -/
theorem completesPercent_of_decodedBytes {r : Text} (hr : r ≠ [])
    (h : decodedBytes (t ++ r) = decodedBytes t) : CompletesPercent t (t ++ r) := by
  induction t using symbol_induction with
  | nil => exact absurd (decodedBytes_eq_nil h) hr
  | triplet hi lo t hd ih =>
    have hcons : '%' :: hi :: lo :: t ++ r = '%' :: hi :: lo :: (t ++ r) := rfl
    rw [hcons, decodedBytes_triplet hd, decodedBytes_triplet hd] at h
    exact (ih (List.append_cancel_left h)).append ['%', hi, lo]
  | plain c t hc ih =>
    by_cases hcr : startsTriplet (c :: (t ++ r)) = true
    · have hpercent : Utf8.encodeChar '%' = [0x25] := by decide
      obtain ⟨hi, lo, w, rfl, hw, hd⟩ := exists_of_startsTriplet hcr
      rw [List.cons_append, hw, decodedBytes_triplet hd, decodedBytes_plain hc, hpercent] at h
      obtain ⟨hbyte, hbytes⟩ := List.cons.inj h
      have htriplet : (Symbol.triplet hi lo).bytes = [0x25] := congrArg (fun b => [b]) hbyte
      obtain ⟨rfl, rfl⟩ := digits_of_bytes hd htriplet (by decide) (by decide)
      -- how much of the escape the first text has
      match t, hw with
      | [], hw =>
        obtain rfl : r = _ := hw
        obtain rfl := decodedBytes_eq_nil hbytes
        exact .sign []
      | [x], hw =>
        obtain ⟨rfl, rfl⟩ := List.cons.inj hw
        obtain rfl | ⟨hi, lo, hd', hbyte', rfl⟩ := text_cases_of_decodedBytes
          (c := '2') (b := 0x32) (by decide) hbytes
        · exact .digit []
        · obtain ⟨rfl, rfl⟩ := digits_of_bytes hd' hbyte' (by decide) (by decide)
          exact .escapedDigit []
      | x :: y :: t, hw =>
        cases hw
        exact absurd hd hc
    · rw [List.cons_append, decodedBytes_plain hcr, decodedBytes_plain hc] at h
      exact (ih (List.append_cancel_left h)).append [c]

end
end UriTemplate.Percent
