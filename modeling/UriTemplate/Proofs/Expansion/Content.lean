import UriTemplate.Expansion
import UriTemplate.Proofs.Lists

/-!
# Expanding values that are made of texts

Values are dynamic, and expansion fails on those that have no text. On values that are made of
texts (`Content`) it is a plain function:

* `Variable.pieces`, `Expression.expansion`, `expansion`   that function, from variables to parts;
* `expand_eq_ok`                                            what `expand` gives is its value.
-/

namespace UriTemplate

/-! ### values made of texts -/

/-- the texts of a value that is made of nothing else -/
inductive Content where
  | undefined
  | text (t : Text)
  | items (ts : List Text)
  | pairs (es : List (Text × Text))
deriving DecidableEq, Repr

namespace Value

def text? : Value → Option Text
  | text t => some t
  | _ => none

def textPair? (e : Value × Value) : Option (Text × Text) := do
  return (← e.1.text?, ← e.2.text?)

/-- the texts of a value; anything else in it, at any depth, leaves it without content -/
def content? (v : Value) : Option Content :=
  match v.shape with
  | .undefined => some .undefined
  | .scalar v => v.text?.map .text
  | .items vs => (vs.mapM text?).map .items
  | .pairs es => (es.mapM textPair?).map .pairs

theorem toText_of_text? {v : Value} {t : Text} (h : v.text? = some t) : v.toText = .ok t := by
  cases v with
  | text u =>
    cases h
    rfl
  | _ => cases h

theorem pairText_of_textPair? {e : Value × Value} {p : Text × Text}
    (h : textPair? e = some p) : pairText e = .ok p := by
  simp only [textPair?, Option.bind_eq_bind, Option.bind_eq_some_iff, Option.pure_def,
    Option.some.injEq] at h
  obtain ⟨k, hk, t, ht, rfl⟩ := h
  simp only [pairText, toText_of_text? hk, toText_of_text? ht]
  rfl

/-- a list without items is undefined -/
theorem items_ne_nil {v : Value} {vs : List Value} (h : v.shape = .items vs) : vs ≠ [] := by
  have hitems : ∀ ws, shapeOfItems ws = .items vs → vs ≠ [] := by
    intro ws hws
    cases ws with
    | nil => cases hws
    | cons w ws =>
      cases hws
      exact List.cons_ne_nil _ _
  cases v with
  | list ws => exact hitems ws h
  | tuple ws => exact hitems ws h
  | byteList bs => exact hitems _ h
  | map es => cases es <;> cases h
  | _ => cases h

theorem content?_items_ne_nil {v : Value} {ts : List Text} (h : v.content? = some (.items ts)) :
    ts ≠ [] := by
  unfold content? at h
  cases hs : v.shape with
  | items vs =>
    rw [hs] at h
    obtain ⟨us, hus, heq⟩ := Option.map_eq_some_iff.1 h
    cases heq
    rw [← List.length_pos_iff, ← (mapM_eq_some_iff.1 hus).length_eq, List.length_pos_iff]
    exact items_ne_nil hs
  | scalar w =>
    rw [hs] at h
    obtain ⟨_, -, heq⟩ := Option.map_eq_some_iff.1 h
    cases heq
  | pairs es =>
    rw [hs] at h
    obtain ⟨_, -, heq⟩ := Option.map_eq_some_iff.1 h
    cases heq
  | undefined =>
    rw [hs] at h
    cases h

end Value

/-! ### expansion without failure -/

/-- the texts that an expansion encodes for a variable -/
def Variable.texts (x : Variable) : Content → List Text
  | .undefined => []
  | .text t => [x.modifier.cut t]
  | .items ts =>
    match x.modifier with
    | .truncated _ => []
    | _ => ts
  | .pairs es =>
    match x.modifier with
    | .truncated _ => []
    | _ => es.flatMap fun p => [p.1, p.2]

/-- the pieces of a variable whose value is made of texts -/
def Variable.pieces (r : Operator.Row) (x : Variable) : Content → List Text
  | .undefined => []
  | .text t => [r.item x.name (x.modifier.cut t)]
  | .items ts =>
    match x.modifier with
    | .truncated _ => []
    | .exploded => ts.map (r.item x.name)
    | .whole => [r.joined x.name ts]
  | .pairs es =>
    match x.modifier with
    | .truncated _ => []
    | .exploded => es.map fun p => r.pair p.1 p.2
    | .whole => [r.joined x.name (es.flatMap fun p => [p.1, p.2])]

/-- the content that a name is bound to; a value that is not made of texts counts as undefined -/
def Bindings.content (b : Bindings) (name : Text) : Content := (b.get name).content?.getD .undefined

def Expression.pieces (e : Expression) (b : Bindings) : List Text :=
  e.vars.flatMap fun x => x.pieces e.operator.row (b.content x.name)

def Expression.expansion (e : Expression) (b : Bindings) : Text :=
  e.operator.row.assemble (e.pieces b)

def Part.expansion (b : Bindings) : Part → Text
  | literal t => t
  | expression e => e.expansion b

def expansion (ps : List Part) (b : Bindings) : Text := ps.flatMap (Part.expansion b)

theorem render_eq_ok {v : Value} {k : Content} (h : v.content? = some k) (r : Operator.Row)
    (x : Variable) : x.render r v = .ok (x.pieces r k) := by
  unfold Value.content? at h
  unfold Variable.render
  cases hs : v.shape with
  | undefined =>
    rw [hs] at h
    cases h
    rfl
  | scalar w =>
    rw [hs] at h
    obtain ⟨t, ht, rfl⟩ := Option.map_eq_some_iff.1 h
    simp only [Value.toText_of_text? ht]
    rfl
  | items vs =>
    rw [hs] at h
    obtain ⟨ts, hts, rfl⟩ := Option.map_eq_some_iff.1 h
    have hm := mapM_eq_ok_of_mapM (fun _ _ => Value.toText_of_text?) hts
    cases hx : x.modifier <;> simp only [Variable.pieces, hx, hm] <;> rfl
  | pairs es =>
    rw [hs] at h
    obtain ⟨ts, hts, rfl⟩ := Option.map_eq_some_iff.1 h
    have hm := mapM_eq_ok_of_mapM (fun _ _ => Value.pairText_of_textPair?) hts
    cases hx : x.modifier <;> simp only [Variable.pieces, hx, hm] <;> rfl

/-! ### names that are bound to a text or to nothing -/

section
variable {b : Bindings} {name t : Text}

theorem content_of_content? {k : Content} (h : (b.get name).content? = some k) :
    b.content name = k := by
  unfold Bindings.content
  rw [h, Option.getD_some]

theorem content_of_null (h : b.get name = .null) : b.content name = .undefined := by
  unfold Bindings.content
  rw [h]
  rfl

theorem content_of_text? (h : (b.get name).text? = some t) : b.content name = .text t := by
  unfold Bindings.content
  cases hv : b.get name with
  | text u =>
    rw [hv] at h
    cases h
    rfl
  | _ =>
    rw [hv] at h
    cases h

theorem content_of_undefined (h : (b.get name).content? = some .undefined) :
    b.content name = .undefined ∧ (b.get name).text? = none := by
  refine ⟨by unfold Bindings.content; rw [h]; rfl, ?_⟩
  cases hv : b.get name with
  | text u =>
    rw [hv] at h
    cases h
  | _ => rfl

theorem isSome_content? (h : (b.get name).text?.isSome = true ∨
    (b.get name).content? = some .undefined) : (b.get name).content?.isSome = true := by
  rcases h with h | h
  · cases hv : b.get name with
    | text u => rfl
    | _ =>
      rw [hv] at h
      cases h
  · rw [h]
    rfl

end

/-! ### expressions and parts -/

section
variable {b : Bindings} {e : Expression} {ps : List Part}

theorem Bindings.content?_get {name : Text} (h : (b.get name).content?.isSome = true) :
    (b.get name).content? = some (b.content name) := by
  obtain ⟨k, hk⟩ := Option.isSome_iff_exists.1 h
  unfold Bindings.content
  rw [hk, Option.getD_some]

theorem Expression.expand_eq_ok
    (h : ∀ x ∈ e.vars, (b.get x.name).content?.isSome = true) :
    e.expand b = .ok (e.expansion b) := by
  have hm : (e.vars.mapM fun x => x.render e.operator.row (b.get x.name))
      = .ok (e.vars.map fun x => x.pieces e.operator.row (b.content x.name)) :=
    mapM_eq_ok_map fun x hx => render_eq_ok (Bindings.content?_get (h x hx)) _ x
  unfold Expression.expand
  rw [hm]
  rfl

theorem vars_cons_literal (t : Text) (ps : List Part) : vars (.literal t :: ps) = vars ps := rfl

theorem vars_cons_expression (e : Expression) (ps : List Part) :
    vars (.expression e :: ps) = e.vars ++ vars ps := rfl

theorem mem_vars_iff {x : Variable} : x ∈ vars ps ↔ ∃ e, .expression e ∈ ps ∧ x ∈ e.vars := by
  induction ps with
  | nil => simp [vars, expressions]
  | cons p ps ih =>
    cases p with
    | literal t => simp [vars_cons_literal, ih]
    | expression e =>
      simp only [vars_cons_expression, List.mem_append, ih, List.mem_cons, Part.expression.injEq,
        or_and_right, exists_or, exists_eq_left]

/-- all variables of a name are truncated -/
def Truncated (ps : List Part) (name : Text) : Prop :=
  ∀ x ∈ vars ps, x.name = name → ∃ n, x.modifier = .truncated n

theorem expand_eq_ok (h : ∀ x ∈ vars ps, (b.get x.name).content?.isSome = true) :
    expand ps b = .ok (expansion ps b) := by
  have hm : ps.mapM (Part.expand b) = .ok (ps.map (Part.expansion b)) := by
    apply mapM_eq_ok_map
    intro p hp
    cases p with
    | literal t => rfl
    | expression e =>
      exact Expression.expand_eq_ok fun x hx => h x (mem_vars_iff.2 ⟨e, hp, hx⟩)
  unfold expand
  rw [hm]
  rfl

theorem expansion_cons (p : Part) (ps : List Part) (b : Bindings) :
    expansion (p :: ps) b = p.expansion b ++ expansion ps b := rfl

end

end UriTemplate
