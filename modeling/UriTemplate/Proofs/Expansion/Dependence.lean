import UriTemplate.Proofs.Expansion.Content
import UriTemplate.Proofs.Table

/-!
# What an expansion depends on

A call has bindings and overrides, and may have values for names that the template does not have. The
expansion depends on the effective values of the template's names only, and not on how a name comes to
have no effect.

* `Silent`          the values that leave no trace: no variable of the name has a piece
                    (`Silent.render_eq_nil`);
* `expand_congr`    parts have one text under bindings that give their variables the same pieces;
* `ExpansionCall.get_override`             overrides win;
* `ExpansionCall.expand_eq_of_effective`   calls with the same effective values have one outcome.
-/

namespace UriTemplate

/-! ### values without a trace -/

/-- the number of items of a list, or of entries of a map -/
def Value.size? : Value → Option Nat
  | list vs => some vs.length
  | tuple vs => some vs.length
  | byteList bs => some bs.length
  | map es => some es.length
  | _ => none

/-- A value of a name in some parts, or none, that leaves no trace: nothing is written for a null and
for a list or map that is empty, nor for one that has no place in which it is not truncated. -/
inductive Silent (ps : List Part) (name : Text) : Option Value → Prop
  | missing : Silent ps name none
  | null : Silent ps name (some .null)
  | empty {v : Value} (h : v.size? = some 0) : Silent ps name (some v)
  | truncated {v : Value} {n : Nat} (h : v.size? = some n) (hall : Truncated ps name) :
    Silent ps name (some v)

section
variable {ps : List Part} {name : Text} {v : Value} {n : Nat}

/-- Lists and maps are undefined if they are empty, else they have items or pairs. -/
theorem Value.shape_of_size? (h : v.size? = some n) :
    v.shape = .undefined ∧ n = 0 ∨
      n ≠ 0 ∧ ((∃ vs, v.shape = .items vs) ∨ ∃ es, v.shape = .pairs es) := by
  have hitems : ∀ vs : List Value, vs.length = n → shapeOfItems vs = .undefined ∧ n = 0 ∨
      n ≠ 0 ∧ ∃ ws, shapeOfItems vs = .items ws := by
    rintro (_ | ⟨w, ws⟩) rfl
    · exact .inl ⟨rfl, rfl⟩
    · exact .inr ⟨Nat.succ_ne_zero _, _, rfl⟩
  cases v with
  | list vs => exact (hitems vs (Option.some.inj h)).imp_right (.imp_right .inl)
  | tuple vs => exact (hitems vs (Option.some.inj h)).imp_right (.imp_right .inl)
  | byteList bs =>
    have hlength : (bs.map fun b => int b.toNat).length = n := by
      rw [List.length_map]
      exact Option.some.inj h
    exact (hitems _ hlength).imp_right (.imp_right .inl)
  | map es =>
    obtain rfl := Option.some.inj h
    cases es with
    | nil => exact .inl ⟨rfl, rfl⟩
    | cons e es => exact .inr ⟨Nat.succ_ne_zero _, .inr ⟨_, rfl⟩⟩
  | _ => cases h

/-- no variable of the name has a piece -/
theorem Silent.render_eq_nil {o : Option Value} {x : Variable} (h : Silent ps name o)
    (r : Operator.Row) (hx : x ∈ vars ps) (hname : x.name = name) :
    x.render r (o.getD .null) = .ok [] := by
  cases h with
  | missing => rfl
  | null => rfl
  | @empty v h =>
    obtain ⟨hshape, -⟩ | ⟨hne, -⟩ := Value.shape_of_size? h
    · rw [Option.getD_some, Variable.render, hshape]
    · exact absurd rfl hne
  | @truncated v n h hall =>
    obtain ⟨m, hm⟩ := hall x hx hname
    rw [Option.getD_some, Variable.render, hm]
    obtain ⟨hshape, -⟩ | ⟨-, ⟨vs, hshape⟩ | ⟨es, hshape⟩⟩ := Value.shape_of_size? h <;> rw [hshape]

end

/-! ### bindings that give the same pieces -/

section
variable {ps : List Part} {b b' : Bindings}

theorem Expression.expand_congr {e : Expression}
    (h : ∀ x ∈ e.vars, x.render e.operator.row (b.get x.name) =
      x.render e.operator.row (b'.get x.name)) : e.expand b = e.expand b' := by
  unfold Expression.expand
  rw [mapM_congr h]

theorem expand_congr (h : ∀ x ∈ vars ps, ∀ r, x.render r (b.get x.name) =
    x.render r (b'.get x.name)) : expand ps b = expand ps b' := by
  have hparts : ∀ p ∈ ps, Part.expand b p = Part.expand b' p := by
    intro p hp
    cases p with
    | literal t => rfl
    | expression e =>
      exact Expression.expand_congr fun x hx => h x (mem_vars_iff.2 ⟨e, hp, hx⟩) _
  unfold UriTemplate.expand
  rw [mapM_congr hparts]

end

/-! ### calls -/

/-- The arguments of a call. An override is given by its name, once, and not under a name that the call
has an argument for. -/
structure ExpansionCall where
  bindings : Bindings
  overrides : Bindings
  nodup : overrides.keys.Nodup
  free : ∀ name ∈ overrides.keys, name ∉ takenNames

namespace ExpansionCall

def expand (c : ExpansionCall) (t : Template) : Except ExpansionError Text :=
  expandWith t c.bindings c.overrides

/-- the value of a name: the override if there is one, else the binding -/
def effective? (c : ExpansionCall) (name : Text) : Option Value :=
  (c.overrides.find? name).or (c.bindings.find? name)

variable {c d : ExpansionCall} {t : Template}

theorem get_override (c : ExpansionCall) (name : Text) :
    (c.bindings.override c.overrides).get name = (c.effective? name).getD .null := by
  unfold Bindings.get Bindings.override
  rw [Table.find?_foldl_insert, Table.find?_reverse c.nodup]
  rfl

/-- a call fails only where the expansion does -/
theorem expand_eq (c : ExpansionCall) (t : Template) : c.expand t =
    (UriTemplate.expand t.parts (c.bindings.override c.overrides)).mapError .value := by
  have hfree : c.overrides.keys.find? (fun name => name ∈ takenNames) = none :=
    List.find?_eq_none.2 fun name hname => by simpa using c.free name hname
  unfold expand expandWith
  rw [hfree]

/-- Two calls have one outcome, a text or a failure, if each name of the template has the same
effective value in both, or in both a value without a trace. -/
theorem expand_eq_of_effective (h : ∀ name ∈ t.names, c.effective? name = d.effective? name ∨
    Silent t.parts name (c.effective? name) ∧ Silent t.parts name (d.effective? name)) :
    c.expand t = d.expand t := by
  have hpieces : ∀ x ∈ vars t.parts, ∀ r,
      x.render r ((c.bindings.override c.overrides).get x.name) =
        x.render r ((d.bindings.override d.overrides).get x.name) := by
    intro x hx r
    rw [get_override, get_override]
    have hname : x.name ∈ t.names := List.mem_eraseDups.2 (List.mem_map_of_mem hx)
    obtain hsame | ⟨hc, hd⟩ := h x.name hname
    · rw [hsame]
    · rw [hc.render_eq_nil r hx rfl, hd.render_eq_nil r hx rfl]
  rw [expand_eq, expand_eq, expand_congr hpieces]

/-- `/{a}{?l:2,m*,l:3}`: the two calls agree on `a`, one has a list for `l` and the other nothing, and
both have undefined values for `m`. -/
theorem expand_eq_of_effective_traceless :
    let ps : List Part := [.literal ['/'], .expression ⟨.simple, [⟨['a'], .whole⟩]⟩,
      .expression ⟨.query, [⟨['l'], .truncated 2⟩, ⟨['m'], .exploded⟩, ⟨['l'], .truncated 3⟩]⟩]
    let t : Template := ⟨print ps, ps⟩
    let c : ExpansionCall :=
      ⟨⟨[(['a'], .text ['1']), (['l'], .list [.int 7]), (['m'], .text ['x'])]⟩,
        ⟨[(['m'], .null)]⟩, by decide, by decide⟩
    let d : ExpansionCall := ⟨⟨[(['a'], .bool true), (['z'], .null)]⟩,
      ⟨[(['a'], .text ['1']), (['m'], .map [])]⟩, by decide, by decide⟩
    (∀ name ∈ t.names, c.effective? name = d.effective? name ∨
      Silent t.parts name (c.effective? name) ∧ Silent t.parts name (d.effective? name)) ∧
    c.expand t = d.expand t ∧ d.expand t = .ok ['/', '1'] := by
  intro ps t c d
  have hvars : ∀ x ∈ vars t.parts, x.name = ['l'] → x.modifier = .truncated 2 ∨
      x.modifier = .truncated 3 := by decide
  have hl : Truncated t.parts ['l'] := fun x hx hname =>
    (hvars x hx hname).elim (fun h => ⟨2, h⟩) fun h => ⟨3, h⟩
  have h : ∀ name ∈ t.names, c.effective? name = d.effective? name ∨
      Silent t.parts name (c.effective? name) ∧ Silent t.parts name (d.effective? name) := by
    have hnames : t.names = [['a'], ['l'], ['m']] := by decide
    rw [hnames]
    refine List.forall_mem_cons.2 ⟨.inl rfl, List.forall_mem_cons.2 ⟨.inr ⟨?_, .missing⟩,
      List.forall_mem_singleton.2 (.inr ⟨.null, .empty rfl⟩)⟩⟩
    exact .truncated (v := .list [.int 7]) rfl hl
  exact ⟨h, expand_eq_of_effective h, rfl⟩

end ExpansionCall

end UriTemplate
