import UriTemplate.Proofs.Expansion.Content
import UriTemplate.Proofs.Percent.Encode

/-!
# What an expression writes

Behind its first character an expression writes encoded texts, names and keys, with commas, equals
signs and the operator's separator between them (`pieces_induction`). So

* `Expression.bareKeys`        the keys that are written as they are, which decide of which characters
                               its pieces consist (`consists_piece_of_bareKeys`);
* `Expression.consists_span`   it consists of triplets and of the operator's matchable characters;
* `Expression.decodes_span`    the escapes in it are UTF-8, unless a text brought its own.
-/

namespace UriTemplate
open Percent

/-! ### what expressions write -/

/-- the keys of a map -/
def Content.keys : Content → List Text
  | pairs es => es.map Prod.fst
  | _ => []

/-- what an expression writes behind its first character -/
def Expression.span (e : Expression) (b : Bindings) : Text :=
  [e.operator.row.sep].intercalate (e.pieces b)

/-- Names and keys that an operator with names may write as they are: made of unreserved characters.
Keys are written only for an exploded variable. -/
structure Expression.PlainNames (e : Expression) (b : Bindings) : Prop where
  names : e.operator.row.named = true → ∀ x ∈ e.vars, x.name.all isUnreserved = true
  keys : e.operator.row.named = true → ∀ x ∈ e.vars, x.isExploded = true →
    ∀ k ∈ (b.content x.name).keys, k.all isUnreserved = true

theorem Expression.plainNames_of_unnamed {e : Expression} (he : e.operator.row.named = false)
    (b : Bindings) : e.PlainNames b := by
  constructor
  · intro hnamed
    rw [he] at hnamed
    cases hnamed
  · intro hnamed
    rw [he] at hnamed
    cases hnamed

/-- the keys of exploded maps, which an operator with names writes as they are -/
def Expression.bareKeys (e : Expression) (b : Bindings) : List Text :=
  if e.operator.row.named then
    (e.vars.filter Variable.isExploded).flatMap fun x => (b.content x.name).keys
  else []

theorem Expression.mem_bareKeys_iff {e : Expression} {b : Bindings} {k : Text} :
    k ∈ e.bareKeys b ↔ e.operator.row.named = true ∧
      ∃ x ∈ e.vars, x.isExploded = true ∧ k ∈ (b.content x.name).keys := by
  unfold Expression.bareKeys
  split
  next h => simp [h, and_assoc]
  next h => simp [h]

theorem Expression.PlainNames.bareKeys {e : Expression} {b : Bindings} (h : e.PlainNames b) :
    ∀ k ∈ e.bareKeys b, k.all isUnreserved = true := by
  intro k hk
  obtain ⟨hnamed, x, hx, hexploded, hk⟩ := mem_bareKeys_iff.1 hk
  exact h.keys hnamed x hx hexploded k hk

section
variable {P : Text → Prop} {o : Operator} {x : Variable} {k : Content}

/-- What stands under a name follows an equals sign; some operators leave it out if nothing does. -/
theorem Operator.assign_cases (o : Operator) (name t : Text) :
    o.row.assign name t = name ++ '=' :: t ∨ t = [] ∧ o.row.assign name t = name := by
  unfold Operator.Row.assign
  split
  · next ht =>
    obtain rfl : t = [] := List.isEmpty_iff.1 ht
    have hempty : o.row.ifEmpty = [] ∨ o.row.ifEmpty = ['='] := by cases o <;> decide
    rcases hempty with h | h
    · rw [h]
      exact .inr ⟨rfl, List.append_nil name⟩
    · rw [h]
      exact .inl rfl
  · exact .inl rfl

/-- A piece is a single value, a list of values, or a pair of an exploded map. -/
theorem Variable.mem_pieces {r : Operator.Row} {p : Text} (hp : p ∈ x.pieces r k) :
    (∃ t ∈ x.texts k, p = r.item x.name t) ∨
    (∃ ts, (∀ t ∈ ts, t ∈ x.texts k) ∧ p = r.joined x.name ts) ∨
    (x.isExploded = true ∧ ∃ key ∈ k.keys, ∃ t, key ∈ x.texts k ∧ t ∈ x.texts k ∧
      p = r.pair key t) := by
  cases k with
  | undefined => cases hp
  | text t =>
    obtain rfl := List.mem_singleton.1 hp
    exact .inl ⟨_, List.mem_cons_self, rfl⟩
  | items ts =>
    cases hx : x.modifier with
    | truncated n => simp only [Variable.pieces, hx, List.not_mem_nil] at hp
    | exploded =>
      simp only [Variable.pieces, hx, List.mem_map] at hp
      obtain ⟨t, ht, rfl⟩ := hp
      exact .inl ⟨t, by simpa only [Variable.texts, hx] using ht, rfl⟩
    | whole =>
      simp only [Variable.pieces, hx, List.mem_singleton] at hp
      exact .inr (.inl ⟨ts, fun t ht => by simpa only [Variable.texts, hx] using ht, hp⟩)
  | pairs es =>
    cases hx : x.modifier with
    | truncated n => simp only [Variable.pieces, hx, List.not_mem_nil] at hp
    | exploded =>
      simp only [Variable.pieces, hx, List.mem_map] at hp
      obtain ⟨e, he, rfl⟩ := hp
      have htexts : ∀ t ∈ [e.1, e.2], t ∈ x.texts (.pairs es) := fun t ht => by
        simpa only [Variable.texts, hx] using List.mem_flatMap.2 ⟨e, he, ht⟩
      refine .inr (.inr ⟨?_, e.1, List.mem_map_of_mem he, e.2, htexts e.1 List.mem_cons_self,
        htexts e.2 (List.mem_cons_of_mem _ List.mem_cons_self), rfl⟩)
      rw [Variable.isExploded, hx]
      rfl
    | whole =>
      simp only [Variable.pieces, hx, List.mem_singleton] at hp
      exact .inr (.inl ⟨_, fun t ht => by simpa only [Variable.texts, hx] using ht, hp⟩)

/-- A property of encoded texts, of names and of keys that two texts share with what is written of
them, a comma or an equals sign between, is one of every piece. -/
theorem Variable.pieces_induction (hnil : P []) (hcomma : ∀ a b, P a → P b → P (a ++ ',' :: b))
    (heq : ∀ a b, P a → P b → P (a ++ '=' :: b)) (htext : ∀ t ∈ x.texts k, P (o.row.encode t))
    (hname : o.row.named = true → P x.name)
    (hkey : o.row.named = true → x.isExploded = true → ∀ key ∈ k.keys, P key) :
    ∀ p ∈ x.pieces o.row k, P p := by
  have hassign : ∀ name t, P name → P t → P (o.row.assign name t) := by
    intro name t hname ht
    rcases Operator.assign_cases o name t with h | ⟨-, h⟩
    · rw [h]
      exact heq name t hname ht
    · rw [h]
      exact hname
  intro p hp
  rcases Variable.mem_pieces hp with ⟨t, ht, rfl⟩ | ⟨ts, hts, rfl⟩ | ⟨hx, key, hk, t, hkt, ht, rfl⟩
  · unfold Operator.Row.item
    split
    · next h => exact hassign _ _ (hname h) (htext t ht)
    · exact htext t ht
  · have hlist : P ([','].intercalate (ts.map o.row.encode)) :=
      intercalate_induction hnil hcomma
        (List.forall_mem_map.2 fun t ht => htext t (hts t ht))
    unfold Operator.Row.joined
    dsimp only
    split
    · next h => exact hassign _ _ (hname h) hlist
    · exact hlist
  · unfold Operator.Row.pair
    split
    · next h => exact hassign _ _ (hkey h hx key hk) (htext t ht)
    · exact heq _ _ (htext key hkt) (htext t ht)

end

section
variable {e : Expression} {b : Bindings} {P : Text → Prop}

theorem Expression.pieces_induction (hnil : P []) (hcomma : ∀ a b, P a → P b → P (a ++ ',' :: b))
    (heq : ∀ a b, P a → P b → P (a ++ '=' :: b))
    (htext : ∀ x ∈ e.vars, ∀ t ∈ x.texts (b.content x.name), P (e.operator.row.encode t))
    (hnames : e.operator.row.named = true → ∀ x ∈ e.vars, P x.name)
    (hkeys : ∀ k ∈ e.bareKeys b, P k) : ∀ p ∈ e.pieces b, P p := by
  intro p hp
  obtain ⟨x, hx, hp⟩ := List.mem_flatMap.1 hp
  refine Variable.pieces_induction hnil hcomma heq (htext x hx) ?_ ?_ p hp
  · exact fun h => hnames h x hx
  · exact fun h hx' k hk => hkeys k (mem_bareKeys_iff.2 ⟨h, x, hx, hx', hk⟩)

/-! #### its characters -/

/-- the characters of encoded texts and of lists of them -/
def Operator.Row.writes (r : Row) (c : Char) : Bool := r.allow.keeps c || c = ',' || c = '='

theorem Operator.writes_of_isUnreserved {o : Operator} {c : Char} (h : isUnreserved c = true) :
    o.row.writes c = true := by
  have hkeeps : o.row.allow.keeps c = true := by
    cases o.row.allow with
    | unreserved => exact h
    | reserved => exact Bool.or_eq_true_iff.2 (.inl h)
  unfold Operator.Row.writes
  rw [hkeeps]
  rfl

/-- with names, what is written never looks like a separator -/
theorem Operator.not_writes_sep {o : Operator} (h : o.row.named = true) :
    o.row.writes o.row.sep = false := by
  revert h
  cases o <;> decide

theorem Operator.matchable_of_writes {o : Operator} {c : Char} (h : o.row.writes c = true) :
    o.row.matchable c = true := by
  unfold Operator.Row.writes at h
  unfold Operator.Row.matchable
  cases ha : o.row.allow with
  | unreserved =>
    rw [ha] at h
    have hc : (isUnreserved c || decide (c = ',') || decide (c = '=')) = true := h
    dsimp only
    rw [hc]
    rfl
  | reserved =>
    rw [ha] at h
    dsimp only
    simp only [Bool.or_eq_true, decide_eq_true_eq] at h
    rcases h with (h | rfl) | rfl
    · exact h
    · decide
    · decide

theorem Operator.consists_encode (o : Operator) (t : Text) :
    Consists o.row.writes (o.row.encode t) :=
  (Percent.consists_encode _ t).mono fun c hc => by
    unfold Operator.Row.writes
    rw [hc]
    rfl

theorem Operator.matchable_sep (o : Operator) : o.row.matchable o.row.sep = true := by
  cases o <;> decide

theorem Operator.escaped_first (o : Operator) : Escaped o.row.first.toList := by
  cases o <;> decide

theorem Operator.standsAlone_sep (o : Operator) : standsAlone o.row.sep = true := by
  cases o <;> decide

theorem consists_of_unreserved {q : Char → Bool} (hq : ∀ c, isUnreserved c = true → q c = true)
    {t : Text} (h : t.all isUnreserved = true) : Consists q t := by
  have ht : Consists isUnreserved t := consists_of_forall (List.all_eq_true.1 h) (by decide)
  exact ht.mono hq

/-- With plain names, what is written as it is decides of which characters the pieces consist. -/
theorem Expression.consists_piece_of_bareKeys {q : Char → Bool}
    (hq : ∀ c, e.operator.row.writes c = true → q c = true)
    (hnames : e.operator.row.named = true → ∀ x ∈ e.vars, x.name.all isUnreserved = true)
    (hkeys : ∀ k ∈ e.bareKeys b, Consists q k) : ∀ p ∈ e.pieces b, Consists q p := by
  have hwrites : e.operator.row.writes ',' = true ∧ e.operator.row.writes '=' = true := by
    cases e.operator <;> decide
  apply Expression.pieces_induction (consists_nil _) _ _ _ _ hkeys
  · exact fun a b ha hb => (consists_append_cons (by decide) a b).2 ⟨ha, hq _ hwrites.1, hb⟩
  · exact fun a b ha hb => (consists_append_cons (by decide) a b).2 ⟨ha, hq _ hwrites.2, hb⟩
  · exact fun x _ t _ => (Operator.consists_encode _ t).mono hq
  · exact fun h x hx =>
      consists_of_unreserved (fun c hc => hq c (Operator.writes_of_isUnreserved hc)) (hnames h x hx)

theorem Expression.consists_piece (h : e.PlainNames b) :
    ∀ p ∈ e.pieces b, Consists e.operator.row.writes p :=
  consists_piece_of_bareKeys (fun _ => id) h.names fun k hk =>
    consists_of_unreserved (fun _ => Operator.writes_of_isUnreserved) (h.bareKeys k hk)

theorem Expression.consists_span (h : e.PlainNames b) :
    Consists e.operator.row.matchable (e.span b) :=
  consists_intercalate (Operator.standsAlone_sep _) (Operator.matchable_sep _) fun p hp =>
    (consists_piece h p hp).mono fun _ => Operator.matchable_of_writes

/-! #### its escapes -/

/-- the escapes of a text are still UTF-8 once the operator has encoded it -/
def Operator.Row.Readable (r : Row) (t : Text) : Prop := Decodes (r.encode t)

theorem Operator.readable_of_unreserved {o : Operator} (h : o.row.allow = .unreserved) (t : Text) :
    o.row.Readable t := by
  unfold Operator.Row.Readable Operator.Row.encode Decodes
  rw [h, decode?_encode_unreserved]
  rfl

theorem Operator.readable_of_not_isTripletAt (o : Operator) {t : Text}
    (h : ∀ i, isTripletAt t i = false) : o.row.Readable t := by
  cases ha : o.row.allow with
  | unreserved => exact readable_of_unreserved ha t
  | reserved =>
    have hbytes : Utf8.encode t = decodedBytes (encode .reserved t) := by
      rw [decodedBytes_encode_reserved, decodedBytes_of_symbols (symbols_of_not_isTripletAt h)]
    unfold Operator.Row.Readable Operator.Row.encode Decodes
    rw [ha, decode?_eq_some_iff.2 hbytes]
    rfl

theorem decodes_of_unreserved {t : Text} (h : t.all isUnreserved = true) : Decodes t := by
  have hne : '%' ∉ t := by
    intro hm
    have hp := List.all_eq_true.1 h _ hm
    revert hp
    decide
  unfold Decodes
  rw [decode?_of_symbols (symbols_of_percent_not_mem hne)]
  rfl

theorem Expression.decodes_piece (h : e.PlainNames b)
    (ht : ∀ x ∈ e.vars, ∀ t ∈ x.texts (b.content x.name), e.operator.row.Readable t) :
    ∀ p ∈ e.pieces b, Decodes p := by
  apply Expression.pieces_induction decodes_nil _ _ ht
  · exact fun hnamed x hx => decodes_of_unreserved (h.names hnamed x hx)
  · exact fun k hk => decodes_of_unreserved (h.bareKeys k hk)
  · exact fun a b ha hb => (decodes_append_cons (by decide) a b).2 ⟨ha, hb⟩
  · exact fun a b ha hb => (decodes_append_cons (by decide) a b).2 ⟨ha, hb⟩

theorem Expression.decodes_span (h : e.PlainNames b)
    (ht : ∀ x ∈ e.vars, ∀ t ∈ x.texts (b.content x.name), e.operator.row.Readable t) :
    Decodes (e.span b) :=
  (decodes_intercalate (Operator.standsAlone_sep _) _).2 (decodes_piece h ht)

/-! #### its text -/

theorem Expression.expansion_of_pieces (h : e.pieces b ≠ []) :
    e.expansion b = e.operator.row.first.toList ++ e.span b := by
  unfold Expression.expansion Operator.Row.assemble
  rw [if_neg (by simpa using h)]
  rfl

theorem Expression.expansion_of_no_pieces (h : e.pieces b = []) : e.expansion b = [] := by
  unfold Expression.expansion
  rw [h]
  rfl

theorem Expression.pieces_singleton (o : Operator) {x : Variable} {t : Text}
    (ht : b.content x.name = .text t) :
    Expression.pieces ⟨o, [x]⟩ b = [o.row.item x.name (x.modifier.cut t)] := by
  unfold Expression.pieces
  rw [List.flatMap_singleton, ht]
  rfl

end

end UriTemplate
