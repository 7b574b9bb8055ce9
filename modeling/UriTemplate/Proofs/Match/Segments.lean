import UriTemplate.Proofs.Expansion.Span
import UriTemplate.Proofs.Match.Split

/-!
# Segments of what an expression writes

An operator with names writes pieces `name=value`, and cutting what it writes at the separator gives
the pieces back (`segments_span`). Their keys are names of the variables in declared order, or keys
of an exploded map, so the walk over the variables hands all of them out.

* `exists_split?_span`   the span that an expression writes can be split among its variables.
-/

namespace UriTemplate
open Percent

/-! ### keys and values -/

section
variable {o : Operator} {name : Text}

theorem key_append (h : '=' ∉ name) (t : Text) : key (name ++ t) = name ++ key t :=
  List.takeWhile_append_of_pos (forall_ne_of_not_mem h)

theorem valueText_append (h : '=' ∉ name) (t : Text) : valueText (name ++ t) = valueText t := by
  unfold valueText
  rw [List.dropWhile_append_of_pos (forall_ne_of_not_mem h)]

theorem key_assign (h : '=' ∉ name) (t : Text) : key (o.row.assign name t) = name := by
  rcases Operator.assign_cases o name t with ha | ⟨-, ha⟩
  · rw [ha, key_append h]
    exact List.append_nil name
  · rw [ha]
    simpa [key] using key_append h []

theorem valueText_assign (h : '=' ∉ name) (t : Text) : valueText (o.row.assign name t) = t := by
  rcases Operator.assign_cases o name t with ha | ⟨rfl, ha⟩
  · rw [ha, valueText_append h]
    rfl
  · rw [ha]
    simpa [valueText] using valueText_append h []

theorem assign_ne_nil (h : name ≠ []) (t : Text) : o.row.assign name t ≠ [] := by
  rcases Operator.assign_cases o name t with ha | ⟨-, ha⟩
  · rw [ha]
    exact List.append_ne_nil_of_left_ne_nil h _
  · rw [ha]
    exact h

end

/-! ### pieces of an operator with names -/

section
variable {o : Operator} {x : Variable} {k : Content} {p : Text}

/-- a piece stands under the name of its variable, or under a key if the variable is exploded -/
theorem exists_eq_assign (ho : o.row.named = true) (hp : p ∈ x.pieces o.row k) :
    ∃ name t, p = o.row.assign name t ∧
      (name = x.name ∨ x.isExploded = true ∧ name ∈ k.keys) := by
  rcases Variable.mem_pieces hp with ⟨t, -, rfl⟩ | ⟨ts, -, rfl⟩ | ⟨hx, key, hkey, t, -, -, rfl⟩
  · refine ⟨x.name, o.row.encode t, ?_, .inl rfl⟩
    rw [Operator.Row.item, if_pos ho]
  · refine ⟨x.name, [','].intercalate (ts.map o.row.encode), ?_, .inl rfl⟩
    rw [Operator.Row.joined, if_pos ho]
  · refine ⟨key, o.row.encode t, ?_, .inr ⟨hx, hkey⟩⟩
    rw [Operator.Row.pair, if_pos ho]

theorem pieces_of_not_exploded (hx : x.isExploded = false) (r : Operator.Row) (k : Content) :
    x.pieces r k = [] ∨ ∃ p, x.pieces r k = [p] := by
  have hne : x.modifier ≠ .exploded := of_decide_eq_false hx
  cases k with
  | undefined => exact .inl rfl
  | text t => exact .inr ⟨_, rfl⟩
  | items ts =>
    cases hm : x.modifier with
    | truncated n => exact .inl (by simp only [Variable.pieces, hm])
    | exploded => exact absurd hm hne
    | whole => exact .inr ⟨r.joined x.name ts, by simp only [Variable.pieces, hm]⟩
  | pairs es =>
    cases hm : x.modifier with
    | truncated n => exact .inl (by simp only [Variable.pieces, hm])
    | exploded => exact absurd hm hne
    | whole =>
      refine .inr ⟨r.joined x.name (es.flatMap fun p => [p.1, p.2]), ?_⟩
      simp only [Variable.pieces, hm]

end

/-! ### expressions whose segments find takers -/

/-- Names, keys and the place of an exploded variable are such that the walk over the variables of
an operator with names can follow what the expression writes. -/
structure Expression.Walkable (e : Expression) (b : Bindings) : Prop extends e.PlainNames b where
  exploded_last : e.operator.row.named = true → ∀ x ∈ e.vars.dropLast, x.isExploded = false
  keys_ne_nil : e.operator.row.named = true → ∀ x ∈ e.vars, x.isExploded = true →
    ∀ k ∈ (b.content x.name).keys, k ≠ []

section
variable {e : Expression} {b : Bindings}

theorem equals_not_mem {t : Text} (h : t.all isUnreserved = true) : '=' ∉ t := by
  intro hm
  have hc := List.all_eq_true.1 h _ hm
  revert hc
  decide

theorem Expression.piece_ne_nil (he : e.operator.row.named = true) (h : e.Walkable b)
    (hnames : ∀ x ∈ e.vars, x.name ≠ []) : ∀ p ∈ e.pieces b, p ≠ [] := by
  intro p hp
  obtain ⟨x, hx, hp⟩ := List.mem_flatMap.1 hp
  obtain ⟨name, t, rfl, rfl | ⟨hexp, hkey⟩⟩ := exists_eq_assign he hp
  · exact assign_ne_nil (hnames x hx) t
  · exact assign_ne_nil (h.keys_ne_nil he x hx hexp name hkey) t

theorem Expression.fits_pieces (he : e.operator.row.named = true) (h : e.Walkable b) :
    Fits e.vars ((e.pieces b).map key) := by
  have hnames := h.names he
  have hlast := h.exploded_last he
  unfold Expression.pieces
  generalize e.vars = xs at hnames hlast
  induction xs with
  | nil => exact .done []
  | cons x xs ih =>
    rw [List.flatMap_cons, List.map_append]
    obtain ⟨hname, hnames⟩ := List.forall_mem_cons.1 hnames
    by_cases hx : x.isExploded = true
    · -- nothing is declared behind an exploded variable
      cases xs with
      | nil => exact .rest hx _
      | cons y ys =>
        have hx' := hlast x (by rw [List.dropLast_cons_cons]; exact List.mem_cons_self)
        rw [hx] at hx'
        cases hx'
    · have hx : x.isExploded = false := by simpa using hx
      have hrest : Fits xs
          ((xs.flatMap fun x => x.pieces e.operator.row (b.content x.name)).map key) := by
        refine ih hnames fun y hy => hlast y ?_
        cases xs with
        | nil => cases hy
        | cons z zs =>
          rw [List.dropLast_cons_cons]
          exact List.mem_cons_of_mem _ hy
      rcases pieces_of_not_exploded hx e.operator.row (b.content x.name) with hp | ⟨p, hp⟩
      · rw [hp]
        exact .skip hx hrest
      · have hmem : p ∈ x.pieces e.operator.row (b.content x.name) := by
          rw [hp]
          exact List.mem_cons_self
        obtain ⟨name, t, rfl, rfl | ⟨hexp, -⟩⟩ := exists_eq_assign he hmem
        · rw [hp, List.map_singleton, key_assign (equals_not_mem hname), List.singleton_append]
          exact .take hx hrest
        · rw [hx] at hexp
          cases hexp

theorem Expression.segments_span (he : e.operator.row.named = true) (h : e.PlainNames b)
    (hne : ∀ p ∈ e.pieces b, p ≠ []) :
    e.operator.row.segments (e.span b) = e.pieces b := by
  have hsep : ∀ p ∈ e.pieces b, e.operator.row.sep ∉ p := fun p hp =>
    (consists_piece h p hp).not_mem (Operator.standsAlone_sep _) (Operator.not_writes_sep he)
  unfold Operator.Row.segments Expression.span
  rw [he, Bool.true_and]
  cases hps : e.pieces b with
  | nil => rfl
  | cons p ps =>
    rw [hps] at hne hsep
    have hspan : [e.operator.row.sep].intercalate (p :: ps) ≠ [] := by
      cases ps with
      | nil => simpa using hne p List.mem_cons_self
      | cons q qs =>
        rw [List.intercalate_cons_cons, List.append_assoc]
        exact List.append_ne_nil_of_left_ne_nil (hne p List.mem_cons_self) _
    rw [if_neg (by simpa using hspan)]
    exact List.splitOn_intercalate _ hsep (List.cons_ne_nil _ _)

theorem Expression.exists_split?_span (h : e.Walkable b) (hnames : ∀ x ∈ e.vars, x.name ≠ [])
    (ht : ∀ x ∈ e.vars, ∀ t ∈ x.texts (b.content x.name), e.operator.row.Readable t) :
    ∃ values, e.split? (e.span b) = some values := by
  cases he : e.operator.row.named with
  | true =>
    rw [split?_of_named he, segments_span he h.toPlainNames (piece_ne_nil he h hnames)]
    obtain ⟨vs, hvs⟩ := exists_assignByName (fits_pieces he h) (decodes_piece h.toPlainNames ht)
    exact ⟨_, congrArg (Option.map Table.ofList) hvs⟩
  | false =>
    rw [split?_of_unnamed he]
    have hsep := Operator.standsAlone_sep e.operator
    have hsegments := (decodes_span h.toPlainNames ht).splitOn hsep
    obtain ⟨vs, hvs⟩ := exists_assignInOrder hsep e.vars hsegments
    exact ⟨_, congrArg (Option.map Table.ofList) hvs⟩

end

end UriTemplate
