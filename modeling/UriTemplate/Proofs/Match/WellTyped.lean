import UriTemplate.Proofs.Expansion.Content
import UriTemplate.Proofs.Match.Reading
import UriTemplate.Proofs.Match.Split

/-!
# Recovered values fit their variables

A name may stand in several places of a template, with another modifier in each. What a URI gives to it
comes from one of them, but it may have been taken by one variable and cut by another.

* `Admits`                 the values that variables can give to a name;
* `Assignment.TakenFrom`   what is stored on the way was taken by variables of the right kind, which
                           every step keeps (`Assignment.TakenFrom.takeSegment`);
* `WellTyped`              what the places of a name in a template say about its value;
* `recover?_wellTyped`     all recovered variables are declared and have such values.
-/

namespace UriTemplate
open Percent

/-! ### values of a name -/

/-- A value of a name: a text if a variable of the name is a scalar, no longer than a variable of the
name lets through, and a list if a variable of the name is exploded. -/
inductive Admits (xs : List Variable) (name : Text) : Recovered → Prop
  | text {x y : Variable} {t : Text} (hx : x ∈ xs) (hxname : x.name = name)
      (hscalar : x.isExploded = false) (hy : y ∈ xs) (hyname : y.name = name)
      (hcut : y.modifier.cut t = t) : Admits xs name (.text t)
  | items {x : Variable} {ts : List Text} (hx : x ∈ xs) (hname : x.name = name)
      (hexploded : x.isExploded = true) : Admits xs name (.items ts)

section
variable {xs ys : List Variable} {x : Variable} {name : Text} {v : Recovered} {sep : Char}
  {ss : List Text} {vs : List (Text × Recovered)}

theorem Admits.mono (h : Admits xs name v) (hsub : xs ⊆ ys) : Admits ys name v := by
  cases h with
  | text hx hxname hscalar hy hyname hcut =>
    exact .text (hsub hx) hxname hscalar (hsub hy) hyname hcut
  | items hx hname hexploded => exact .items (hsub hx) hname hexploded

theorem Variable.Recovers.admits (h : x.Recovers sep ss v) (hx : x ∈ xs) : Admits xs x.name v := by
  cases h with
  | text hscalar _ => exact .text hx rfl hscalar hx rfl (x.modifier.cut_cut _)
  | items hexploded => exact .items hx rfl hexploded
  | noItems hexploded => exact .items hx rfl hexploded

/-! ### splitting a span -/

theorem admits_of_assignInOrder (h : assignInOrder sep xs ss = some vs) :
    ∀ p ∈ vs, Admits xs p.1 p.2 := by
  induction xs generalizing ss vs with
  | nil =>
    rw [assignInOrder_nil] at h
    cases h
    exact fun p hp => (List.not_mem_nil hp).elim
  | cons x xs ih =>
    cases ss with
    | nil =>
      rw [assignInOrder_no_segments] at h
      cases h
      exact fun p hp => (List.not_mem_nil hp).elim
    | cons s ss =>
      obtain ⟨v, vs', hv, hvs', rfl⟩ := assignInOrder_cons h
      exact List.forall_mem_cons.2 ⟨hv.admits List.mem_cons_self,
        fun p hp => (ih hvs' p hp).mono (List.subset_cons_self x xs)⟩

namespace Assignment
variable {a a' : Assignment} {s : Text}

/-- a raw text is stored under the name of a scalar variable, and segments under that of an exploded
one -/
structure TakenFrom (xs : List Variable) (a : Assignment) : Prop where
  remaining : a.remaining <:+ xs
  scalars : ∀ name raw, a.scalars.find? name = some raw →
    ∃ x ∈ xs, x.name = name ∧ x.isExploded = false
  lists : ∀ name ss, a.lists.find? name = some ss → ∃ x ∈ xs, x.name = name ∧ x.isExploded = true

theorem takenFrom_start (xs : List Variable) : (start xs).TakenFrom xs :=
  ⟨List.suffix_refl xs, fun _ _ h => (by cases h), fun _ _ h => (by cases h)⟩

theorem TakenFrom.takeSegment (h : a.TakenFrom xs) (ha : a.takeSegment sep s = some a') :
    a'.TakenFrom xs := by
  rcases takeSegment_cases ha with ⟨x, ys, htaker, rfl⟩ | ⟨x, raw, -, -, hraw, rfl⟩
  · have hsuffix := (suffix_of_taker? htaker).trans h.remaining
    have hx : x ∈ xs := hsuffix.mem List.mem_cons_self
    cases hexploded : x.isExploded with
    | true =>
      rw [if_pos rfl]
      exact ⟨hsuffix, h.scalars, fun _ _ => Table.of_find?_insert h.lists ⟨x, hx, rfl, hexploded⟩⟩
    | false =>
      rw [if_neg Bool.false_ne_true]
      exact ⟨(List.suffix_cons x ys).trans hsuffix,
        fun _ _ => Table.of_find?_insert h.scalars ⟨x, hx, rfl, hexploded⟩, h.lists⟩
  · -- the segment goes to a name that has a raw text already
    have hname := h.scalars x.name raw hraw
    exact ⟨List.nil_suffix, fun _ _ => Table.of_find?_insert h.scalars hname, h.lists⟩

/-- the run lemma: so it is at the end of the walk -/
theorem takenFrom_of_foldlM
    (h : ss.foldlM (fun (a : Assignment) s => a.takeSegment sep s) (.start xs) = some a) :
    a.TakenFrom xs :=
  @foldlM_induction _ _ _ _ (fun _ a => a.TakenFrom xs)
    (fun _ _ _ _ ha hstep => ha.takeSegment hstep) [] _ _ (takenFrom_start xs) h

theorem TakenFrom.admits (h : a.TakenFrom xs) (hx : x ∈ xs) (hvs : a.value? x = some vs) :
    ∀ p ∈ vs, Admits xs p.1 p.2 := by
  obtain rfl | ⟨raw, t, hraw, -, rfl⟩ | ⟨ss, ts, hss, rfl⟩ := value?_cases hvs
  · exact fun p hp => (List.not_mem_nil hp).elim
  · -- `x` cuts the text, though another variable of the name may have taken it
    obtain ⟨y, hy, hname, hscalar⟩ := h.scalars x.name raw hraw
    exact List.forall_mem_singleton.2 (.text hy hname hscalar hx rfl (x.modifier.cut_cut t))
  · obtain ⟨y, hy, hname, hexploded⟩ := h.lists x.name ss hss
    exact List.forall_mem_singleton.2 (.items hy hname hexploded)

end Assignment

theorem admits_of_assignByName (h : assignByName sep xs ss = some vs) :
    ∀ p ∈ vs, Admits xs p.1 p.2 := by
  obtain ⟨a, vss, ha, hvss, rfl⟩ := assignByName_eq_some h
  intro p hp
  obtain ⟨vs', hvs', hp⟩ := List.mem_flatten.1 hp
  obtain ⟨x, hx, hvalue⟩ := exists_of_mem_of_mapM hvss hvs'
  exact (Assignment.takenFrom_of_foldlM ha).admits hx hvalue p hp

theorem Expression.admits_of_split? {e : Expression} {span : Text} {values : Params}
    (h : e.split? span = some values) (hv : values.find? name = some v) :
    Admits e.vars name v := by
  obtain ⟨vs, rfl, hvs⟩ := Expression.split?_eq_some h
  exact hvs.elim admits_of_assignByName admits_of_assignInOrder _ (Table.mem_of_find?_ofList hv)

end

/-! ### reading parts -/

section
variable {ps : List Part} {after : Bool} {c : Cursor} {r : List Stretch}

/-- each value of a reading is one that the variables of the parts can give -/
theorem Reads.admits (h : Reads ps after c r) {s : Stretch} (hs : s ∈ r) {name : Text}
    {v : Recovered} (hv : s.values.find? name = some v) : Admits (vars ps) name v := by
  induction h with
  | done => cases hs
  | literal _ _ ih =>
    rcases List.mem_cons.1 hs with rfl | hs
    · cases hv
    · exact ih hs
  | absent _ _ ih =>
    rcases List.mem_cons.1 hs with rfl | hs
    · cases hv
    · exact (ih hs).mono (List.subset_append_right _ _)
  | present _ _ _ hvalues _ ih =>
    rcases List.mem_cons.1 hs with rfl | hs
    · exact (Expression.admits_of_split? hvalues hv).mono (List.subset_append_left _ _)
    · exact (ih hs).mono (List.subset_append_right _ _)

/-- the names of a reading come in the order in which the parts have them -/
theorem Reads.keys_merged_sublist (h : Reads ps after c r) :
    (merged r).keys.Sublist ((vars ps).map Variable.name) := by
  induction h with
  | done => exact List.nil_sublist _
  | literal _ _ ih => exact ih
  | absent _ _ ih =>
    rw [vars_cons_expression, List.map_append]
    exact ih.trans (List.sublist_append_right _ _)
  | present _ _ _ hvalues _ ih =>
    rw [vars_cons_expression, List.map_append]
    exact (Table.keys_orElse_sublist _ _).trans
      ((Expression.keys_split?_sublist hvalues).append ih)

end

/-! ### what matching recovers -/

def Modifier.length? : Modifier → Option Nat
  | truncated n => some n
  | _ => none

/-- the lengths that the variables of a name are truncated to -/
def lengths (ps : List Part) (name : Text) : List Nat :=
  ((vars ps).filter fun x => x.name = name).filterMap fun x => x.modifier.length?

/-- What the variables of the parts say about recovered ones. -/
structure WellTyped (ps : List Part) (params : Params) : Prop where
  declared : ∀ name ∈ params.keys, name ∈ names ps
  items : ∀ name ts, params.find? name = some (.items ts) →
    ∃ x ∈ vars ps, x.name = name ∧ x.modifier = .exploded
  text : ∀ name t, params.find? name = some (.text t) →
    ∃ x ∈ vars ps, x.name = name ∧ x.modifier ≠ .exploded
  /-- a name that is truncated in every place has a text, which the greatest length lets through -/
  truncated : ∀ name v, params.find? name = some v → Truncated ps name →
    ∃ t m, v = .text t ∧ (lengths ps name).max? = some m ∧ t.length ≤ m
  /-- variables with different names keep their order -/
  ordered : ((vars ps).map Variable.name).Nodup → params.keys.Sublist (names ps)

section
variable {ps : List Part} {name : Text} {v : Recovered}

theorem mem_lengths {x : Variable} {n : Nat} (hx : x ∈ vars ps) (hname : x.name = name)
    (hn : x.modifier = .truncated n) : n ∈ lengths ps name := by
  refine List.mem_filterMap.2 ⟨x, List.mem_filter.2 ⟨hx, decide_eq_true hname⟩, ?_⟩
  rw [hn]
  rfl

theorem exists_max?_of_mem {n : Nat} {ns : List Nat} (h : n ∈ ns) :
    ∃ m, ns.max? = some m ∧ n ≤ m := by
  obtain ⟨m, hm⟩ := Option.isSome_iff_exists.1 (List.isSome_max?_of_mem h)
  exact ⟨m, hm, (List.max?_eq_some_iff.1 hm).2 n h⟩

theorem Admits.truncated (h : Admits (vars ps) name v) (hall : Truncated ps name) :
    ∃ t m, v = .text t ∧ (lengths ps name).max? = some m ∧ t.length ≤ m := by
  cases h with
  | @text x y t _ _ _ hy hname hcut =>
    obtain ⟨n, hn⟩ := hall y hy hname
    obtain ⟨m, hm, hnm⟩ := exists_max?_of_mem (mem_lengths hy hname hn)
    have hlength : t.length ≤ n := by
      have htake : t.take n = t := by rwa [hn] at hcut
      rw [← htake]
      exact List.length_take_le n t
    exact ⟨t, m, rfl, hm, Nat.le_trans hlength hnm⟩
  | items hx hname hexploded =>
    obtain ⟨n, hn⟩ := hall _ hx hname
    rw [Variable.isExploded, hn] at hexploded
    cases hexploded

end

/-- Whatever the parts and the URI, the variables that matching recovers are well-typed. -/
theorem recover?_wellTyped {ps : List Part} {uri : Text} {params : Params}
    (h : recover? ps uri = some params) : WellTyped ps params := by
  obtain ⟨r, ⟨hr, -⟩, rfl⟩ := exists_isFirst_of_recover? h
  have hadmits : ∀ name v, (merged r).find? name = some v → Admits (vars ps) name v := by
    intro name v hv
    rw [find?_merged] at hv
    obtain ⟨s, hs, hv⟩ := List.exists_of_findSome?_eq_some hv
    exact hr.admits hs hv
  have hkeys := hr.keys_merged_sublist
  refine ⟨fun name hname => ?declared, fun name ts hts => ?items, fun name t ht => ?text,
    fun name v hv => (hadmits name v hv).truncated, fun hnodup => ?ordered⟩
  case declared => exact List.mem_eraseDups.2 (hkeys.subset hname)
  case items =>
    cases hadmits name _ hts with
    | items hx hname hexploded => exact ⟨_, hx, hname, of_decide_eq_true hexploded⟩
  case text =>
    cases hadmits name _ ht with
    | text hx hname hscalar => exact ⟨_, hx, hname, of_decide_eq_false hscalar⟩
  case ordered =>
    unfold names
    rwa [eraseDups_of_nodup hnodup]

/-- `{?a:1,a:3,l*}`: the text that the first variable took is cut by the second one. -/
theorem recover?_wellTyped_cut_twice :
    let ps : List Part := [.expression ⟨.query,
      [⟨['a'], .truncated 1⟩, ⟨['a'], .truncated 3⟩, ⟨['l'], .exploded⟩]⟩]
    let params : Params := ⟨[(['a'], .text ['w', 'x', 'y']), (['l'], .items [['q', '=', '1']])]⟩
    recover? ps ['?', 'a', '=', 'w', 'x', 'y', 'z', '&', 'q', '=', '1'] = some params ∧
      WellTyped ps params :=
  have h := by decide
  ⟨h, recover?_wellTyped h⟩

end UriTemplate
