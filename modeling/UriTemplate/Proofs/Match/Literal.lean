import UriTemplate.Match.Search
import UriTemplate.Proofs.Match.Consume
import UriTemplate.Proofs.Percent.Seam
import UriTemplate.Proofs.Template.Braces

/-!
# Where literal text matches

Literal text matches where it stands verbatim, and only where it does not are symbols read that spell
its bytes. The two ways can differ, because a text may end inside an escape of the URI.

* `Spells`                  whole symbols stand for the bytes of the literal;
* `matchLiteral?_spells`    where a literal ends, by the one way or the other;
* `recover?_literal_text`   a template of literal text matches the URIs that stand for its bytes,
                            apart from those that go on inside an escape (`CompletesPercent`).
-/

namespace UriTemplate
open Percent

/-! ### literals -/

/-- From the first position to the second whole symbols are read, and they stand for the bytes of the
literal. -/
def Spells (literal uri : Text) (i k : Nat) : Prop :=
  Reaches uri i k ∧ decodedBytes ((uri.take k).drop i) = decodedBytes literal

section
variable {literal uri : Text} {i k : Nat}

theorem spells_iff : Spells literal uri i k ↔
    ∃ n, spelledLength? (decodedBytes literal) (uri.drop i) = some n ∧ i + n = k := by
  constructor
  · rintro ⟨hreaches, hbytes⟩
    obtain ⟨u, v, hdrop, hseam, rfl⟩ := hreaches.exists_seamless
    rw [slice_of_drop_eq_append hdrop] at hbytes
    exact ⟨u.length, spelledLength?_eq_some_iff.2 ⟨u, v, hdrop, hseam, hbytes, rfl⟩, rfl⟩
  · rintro ⟨n, hn, rfl⟩
    obtain ⟨u, v, hdrop, hseam, hbytes, rfl⟩ := spelledLength?_eq_some_iff.1 hn
    refine ⟨reaches_of_seamless hdrop hseam, ?_⟩
    rw [slice_of_drop_eq_append hdrop, hbytes]

theorem Spells.eq {k' : Nat} (h : Spells literal uri i k) (h' : Spells literal uri i k') : k = k' := by
  obtain ⟨n, hn, rfl⟩ := spells_iff.1 h
  obtain ⟨n', hn', rfl⟩ := spells_iff.1 h'
  rw [Option.some.inj (hn.symm.trans hn')]

end

/-- A literal ends behind its own text where that stands, and else behind the symbols that spell it.
There is at most one place where they end, and it is behind the literal's own text if every `%` of
the literal begins a triplet. -/
theorem matchLiteral?_spells (literal uri : Text) (i : Nat) :
    (literal <+: uri.drop i → matchLiteral? literal uri i = some (i + literal.length)) ∧
    (¬literal <+: uri.drop i →
      (∀ k, matchLiteral? literal uri i = some k ↔ Spells literal uri i k) ∧
      (matchLiteral? literal uri i = none ↔ ∀ k, ¬Spells literal uri i k)) ∧
    (∀ k k', Spells literal uri i k → Spells literal uri i k' → k = k') ∧
    ((∀ j, literal[j]? = some '%' → isTripletAt literal j = true) → literal <+: uri.drop i →
      spelledLength? (decodedBytes literal) (uri.drop i) = some literal.length ∧
      Spells literal uri i (i + literal.length)) := by
  refine ⟨fun h => ?_, fun h => ?_, fun k k' => Spells.eq, fun hliteral h => ?_⟩
  · rw [matchLiteral?, literalLength?_of_verbatim h]
    rfl
  · have hsome : ∀ k, matchLiteral? literal uri i = some k ↔ Spells literal uri i k := by
      intro k
      rw [matchLiteral?, literalLength?_of_not_verbatim h, Option.map_eq_some_iff, spells_iff]
    refine ⟨hsome, ?_⟩
    rw [Option.eq_none_iff_forall_ne_some]
    exact forall_congr' fun k => not_congr (hsome k)
  · obtain ⟨v, hv⟩ := h
    have hspelled := spelledLength?_append ((escaped_of_isTripletAt hliteral).seamless v)
    rw [hv] at hspelled
    exact ⟨hspelled, spells_iff.2 ⟨_, hspelled, rfl⟩⟩

/-! ### templates of literal text -/

section
variable {t uri : Text}

theorem literalLength?_eq_length_iff : literalLength? t uri = some uri.length ↔
    decodedBytes uri = decodedBytes t ∧ (t <+: uri → t = uri) := by
  by_cases hprefix : t <+: uri
  · rw [literalLength?_of_verbatim hprefix]
    constructor
    · intro h
      obtain rfl := hprefix.eq_of_length (Option.some.inj h)
      exact ⟨rfl, fun _ => rfl⟩
    · rintro ⟨-, heq⟩
      rw [heq hprefix]
  · rw [literalLength?_of_not_verbatim hprefix, spelledLength?_eq_some_iff]
    constructor
    · rintro ⟨u, v, rfl, -, hbytes, hlen⟩
      obtain rfl : v = [] := by
        rw [List.length_append] at hlen
        exact List.eq_nil_of_length_eq_zero (by omega)
      rw [List.append_nil]
      exact ⟨hbytes, fun h => absurd h (by simpa using hprefix)⟩
    · rintro ⟨hbytes, -⟩
      refine ⟨uri, [], (List.append_nil uri).symm, ?_, hbytes, rfl⟩
      rw [Seamless, List.append_nil, symbols_nil, List.append_nil]

theorem recover?_literal {params : Params} : recover? [.literal t] uri = some params ↔
    params = .empty ∧ literalLength? t uri = some uri.length := by
  have hdef : recover? [.literal t] uri =
      ((Cursor.start uri).literal? t).bind fun d => if d.atEnd then some .empty else none := by
    unfold recover? search
    cases (Cursor.start uri).literal? t <;> rfl
  rw [hdef, Option.bind_eq_some_iff]
  constructor
  · rintro ⟨d, hd, hparams⟩
    split at hparams
    · next hend =>
      cases hparams
      refine ⟨rfl, ?_⟩
      obtain ⟨u, hover, -⟩ := literal?_eq_some hd
      obtain ⟨n, hn, rfl⟩ := Option.map_eq_some_iff.1 hd
      have hrest : uri = u ++ _ := hover.rest
      have hpos : 0 + n = 0 + u.length := hover.pos
      rw [Cursor.atEnd_iff.1 hend, List.append_nil] at hrest
      have hlen : n = uri.length := by
        rw [hrest]
        omega
      exact hn.trans (congrArg some hlen)
    · cases hparams
  · rintro ⟨rfl, hlen⟩
    refine ⟨(Cursor.start uri).advance uri.length, Option.map_eq_some_iff.2 ⟨_, hlen, rfl⟩, ?_⟩
    rw [if_pos (Cursor.atEnd_iff.2 (List.drop_length (l := uri)))]

end

/-- A template of literal text matches the URIs that stand for the same bytes, and binds nothing.
It does not match those that begin with the text and go on inside an escape. -/
theorem recover?_literal_text {t : Text} (ht : '{' ∉ t) (uri : Text) :
    ∃ tpl, parse t = .ok tpl ∧ ∀ m, tpl.recover? uri = some m ↔
      m = ⟨t, .empty⟩ ∧ decodedBytes uri = decodedBytes t ∧ ¬CompletesPercent t uri := by
  have hparts : orEmptyLiteral (literalParts t) = [.literal t] := by
    cases t <;> rfl
  have hlonger (hbytes : decodedBytes uri = decodedBytes t) :
      ¬CompletesPercent t uri ↔ (t <+: uri → t = uri) := by
    constructor
    · rintro h ⟨r, rfl⟩
      by_contra hne
      refine h (completesPercent_of_decodedBytes (fun hr => hne ?_) hbytes)
      rw [hr, List.append_nil]
    · intro h hcompletes
      exact hcompletes.prefix_ne.2 (h hcompletes.prefix_ne.1)
  refine ⟨_, parse_eq_ok_iff.2 ⟨literalParts t, .literal ht, rfl⟩, fun m => ?_⟩
  rw [hparts, Template.recover?, Option.map_eq_some_iff]
  constructor
  · rintro ⟨params, hparams, rfl⟩
    obtain ⟨rfl, hlen⟩ := recover?_literal.1 hparams
    obtain ⟨hbytes, heq⟩ := literalLength?_eq_length_iff.1 hlen
    exact ⟨rfl, hbytes, (hlonger hbytes).2 heq⟩
  · rintro ⟨rfl, hbytes, hnot⟩
    have hlen := literalLength?_eq_length_iff.2 ⟨hbytes, (hlonger hbytes).1 hnot⟩
    exact ⟨.empty, recover?_literal.2 ⟨rfl, hlen⟩, rfl⟩

/-- a bare `%` in front of a `2`, which the URI escapes as it escapes the letter -/
theorem recover?_literal_text_escaped : '{' ∉ ['a', '%', '2'] ∧
    decodedBytes ['%', '6', '1', '%', '2', '5', '2'] = decodedBytes ['a', '%', '2'] ∧
    ∃ tpl, parse ['a', '%', '2'] = .ok tpl ∧
      tpl.recover? ['%', '6', '1', '%', '2', '5', '2'] = some ⟨['a', '%', '2'], .empty⟩ := by
  have hbytes : decodedBytes ['%', '6', '1', '%', '2', '5', '2'] =
      decodedBytes ['a', '%', '2'] := by decide
  have hnot : ¬CompletesPercent ['a', '%', '2'] ['%', '6', '1', '%', '2', '5', '2'] :=
    fun h => absurd h.prefix_ne.1 (by decide)
  obtain ⟨tpl, htpl, hmatch⟩ := recover?_literal_text (t := ['a', '%', '2']) (by decide)
    ['%', '6', '1', '%', '2', '5', '2']
  exact ⟨by decide, hbytes, tpl, htpl, (hmatch _).2 ⟨rfl, hbytes, hnot⟩⟩

/-- `%` and `%25` stand for the same byte, but the literal ends behind the sign of the escape. -/
theorem recover?_literal_text_bare_percent : '{' ∉ ['%'] ∧
    parse ['%'] = .ok ⟨['%'], [.literal ['%']]⟩ ∧
    decodedBytes ['%', '2', '5'] = decodedBytes ['%'] ∧
    Template.recover? ⟨['%'], [.literal ['%']]⟩ ['%', '2', '5'] = none :=
  ⟨by decide, rfl, by decide, by decide⟩

end UriTemplate
