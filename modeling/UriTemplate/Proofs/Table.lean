import UriTemplate.Proofs.Lists
import UriTemplate.Table

/-!
# Tables without repeated keys

Tables made by writing one entry after the other hold every key once. On such tables the order of
arrival can be read off the list of entries:

* `ofList_of_nodup`   entries with different keys are the table;
* `ofList_of_forall₂` the keys and values of a table that is written item by item;
* `insert_of_mem`     writing to a key that is there changes its one entry;
* `empty_orElse`      adding a table to nothing gives that table;
* `keys_foldl_sublist` no operation puts the keys of what it adds in another order;
* `find?_foldl_insert` what was written last stays;
* `find?_orElse`      what was there first stays;
* `mapValues`         a function on the values, which writing and looking up commute with.
-/

namespace UriTemplate.Table

section
variable {κ α : Type} {t : Table κ α} {f : Table κ α → κ × α → Table κ α}

theorem nodup_foldl (hf : ∀ t e, t.keys.Nodup → (f t e).keys.Nodup) (h : t.keys.Nodup)
    (es : List (κ × α)) : (es.foldl f t).keys.Nodup := by
  induction es generalizing t with
  | nil => exact h
  | cons e es ih => exact ih (hf t e h)

/-- Entries with keys that are new, each once, are appended. -/
theorem foldl_of_new {es : List (κ × α)}
    (hf : ∀ t e, e.1 ∉ t.keys → f t e = ⟨t.entries ++ [e]⟩)
    (h : (t.keys ++ es.map Prod.fst).Nodup) : es.foldl f t = ⟨t.entries ++ es⟩ := by
  induction es generalizing t with
  | nil => rw [List.append_nil]; rfl
  | cons e es ih =>
    rw [List.map_cons] at h
    have hnew : e.1 ∉ t.keys := fun hm =>
      (List.nodup_append.1 h).2.2 e.1 hm e.1 List.mem_cons_self rfl
    have hkeys : (Table.keys ⟨t.entries ++ [e]⟩ ++ es.map Prod.fst).Nodup := by
      simpa only [keys, List.map_append, List.map_cons, List.map_nil, List.append_assoc,
        List.singleton_append] using h
    rw [List.foldl_cons, hf t e hnew, ih hkeys, List.append_assoc, List.singleton_append]

/-- Where each entry brings its key, if any, the keys are those of the entries, in their order. -/
theorem keys_foldl_sublist (hf : ∀ t e, (f t e).keys.Sublist (t.keys ++ [e.1]))
    (es : List (κ × α)) : (es.foldl f t).keys.Sublist (t.keys ++ es.map Prod.fst) := by
  induction es generalizing t with
  | nil => exact List.sublist_append_left _ _
  | cons e es ih =>
    rw [List.foldl_cons, List.map_cons, List.append_cons]
    exact ih.trans ((hf t e).append_right _)

theorem nodup_keys_append_singleton {k : κ} (h : t.keys.Nodup) (hk : k ∉ t.keys) :
    (t.keys ++ [k]).Nodup := by
  refine List.nodup_append.2 ⟨h, List.pairwise_singleton _ _, ?_⟩
  rintro a ha b hb rfl
  exact hk (List.mem_singleton.1 hb ▸ ha)

end

section
variable {κ α : Type} [DecidableEq κ] {t u : Table κ α} {k l : κ} {v : α} {es : List (κ × α)}

/-! ### keys -/

theorem nodup_insert (h : t.keys.Nodup) : (t.insert k v).keys.Nodup := by
  by_cases hk : k ∈ t.keys
  · rw [keys_insert_of_mem hk]
    exact h
  · rw [keys_insert_of_not_mem hk]
    exact nodup_keys_append_singleton h hk

theorem nodup_insertIfNew (h : t.keys.Nodup) : (t.insertIfNew k v).keys.Nodup := by
  by_cases hk : k ∈ t.keys
  · rw [keys_insertIfNew_of_mem hk]
    exact h
  · rw [keys_insertIfNew_of_not_mem hk]
    exact nodup_keys_append_singleton h hk

theorem keys_insert_sublist (t : Table κ α) (k : κ) (v : α) :
    (t.insert k v).keys.Sublist (t.keys ++ [k]) := by
  by_cases hk : k ∈ t.keys
  · rw [keys_insert_of_mem hk]
    exact List.sublist_append_left _ _
  · rw [keys_insert_of_not_mem hk]

theorem keys_insertIfNew_sublist (t : Table κ α) (k : κ) (v : α) :
    (t.insertIfNew k v).keys.Sublist (t.keys ++ [k]) := by
  by_cases hk : k ∈ t.keys
  · rw [keys_insertIfNew_of_mem hk]
    exact List.sublist_append_left _ _
  · rw [keys_insertIfNew_of_not_mem hk]

theorem keys_ofList_sublist (es : List (κ × α)) : (ofList es).keys.Sublist (es.map Prod.fst) :=
  keys_foldl_sublist (t := empty) (fun t e => keys_insert_sublist t e.1 e.2) es

theorem keys_orElse_sublist (t u : Table κ α) :
    (t.orElse u).keys.Sublist (t.keys ++ u.keys) :=
  keys_foldl_sublist (fun t e => keys_insertIfNew_sublist t e.1 e.2) u.entries

theorem nodup_ofList (es : List (κ × α)) : (ofList es).keys.Nodup :=
  nodup_foldl (fun _ _ h => nodup_insert h) (t := empty) List.nodup_nil es

theorem nodup_orElse (h : t.keys.Nodup) (u : Table κ α) : (t.orElse u).keys.Nodup :=
  nodup_foldl (fun _ _ h => nodup_insertIfNew h) h u.entries

/-! ### entries -/

theorem insert_of_not_mem (h : k ∉ t.keys) : t.insert k v = ⟨t.entries ++ [(k, v)]⟩ := by
  obtain ⟨es⟩ := t
  simp only [insert, keys] at *
  congr 1
  induction es with
  | nil => rfl
  | cons e es ih =>
    simp only [List.map_cons, List.mem_cons, not_or] at h
    have hne : ¬decide (e.1 = k) = true := by simpa using fun he => h.1 he.symm
    rw [insertBy, if_neg hne, ih h.2, List.cons_append]

/-- Without repeated keys there is one entry to change. -/
theorem insert_of_mem (hnodup : t.keys.Nodup) (h : k ∈ t.keys) :
    t.insert k v = ⟨t.entries.map fun e => if e.1 = k then (k, v) else e⟩ := by
  obtain ⟨es⟩ := t
  simp only [insert, keys] at *
  congr 1
  induction es with
  | nil => cases h
  | cons e es ih =>
    obtain ⟨hfresh, hnodup⟩ := List.nodup_cons.1 hnodup
    rw [List.map_cons, insertBy]
    by_cases he : e.1 = k
    · have hrest : es.map (fun e => if e.1 = k then (k, v) else e) = es := by
        refine (List.map_congr_left fun d hd => if_neg fun hdk => ?_).trans (List.map_id es)
        exact hfresh (List.mem_map.2 ⟨d, hd, hdk.trans he.symm⟩)
      rw [if_pos (decide_eq_true he), if_pos he, hrest, he]
    · have hmem : k ∈ es.map Prod.fst := (List.mem_cons.1 h).resolve_left (Ne.symm he)
      rw [if_neg (by simpa using he), if_neg he, ih hnodup hmem]

theorem insertIfNew_of_not_mem (h : k ∉ t.keys) :
    t.insertIfNew k v = ⟨t.entries ++ [(k, v)]⟩ := by
  unfold insertIfNew
  rw [if_neg (mt contains_iff.1 h)]

theorem ofList_of_nodup (h : (es.map Prod.fst).Nodup) : ofList es = ⟨es⟩ :=
  foldl_of_new (fun _ _ hnew => insert_of_not_mem hnew) h

theorem empty_orElse (h : u.keys.Nodup) : empty.orElse u = u :=
  foldl_of_new (fun _ _ hnew => insertIfNew_of_not_mem hnew) h

theorem orElse_of_disjoint (h : (t.keys ++ u.keys).Nodup) :
    t.orElse u = ⟨t.entries ++ u.entries⟩ :=
  foldl_of_new (fun _ _ hnew => insertIfNew_of_not_mem hnew) h

/-! ### values -/

theorem find?_append (es es' : List (κ × α)) :
    Table.find? ⟨es ++ es'⟩ k = (Table.find? ⟨es⟩ k).or (Table.find? ⟨es'⟩ k) := by
  simp only [find?, List.find?_append, Option.map_or]

theorem find?_eq_none (h : k ∉ t.keys) : t.find? k = none := by
  unfold find?
  rw [Option.map_eq_none_iff, List.find?_eq_none]
  intro e he hk
  exact h (List.mem_map.2 ⟨e, he, of_decide_eq_true hk⟩)

theorem find?_of_mem (hnodup : t.keys.Nodup) (h : (k, v) ∈ t.entries) : t.find? k = some v := by
  obtain ⟨es⟩ := t
  simp only [find?, keys] at *
  induction es with
  | nil => cases h
  | cons e es ih =>
    obtain ⟨hfresh, hnodup⟩ := List.nodup_cons.1 hnodup
    rcases List.mem_cons.1 h with rfl | h
    · rw [List.find?_cons_of_pos (by simp), Option.map_some]
    · have hne : e.1 ≠ k := fun he => hfresh (List.mem_map.2 ⟨(k, v), h, he.symm⟩)
      rw [List.find?_cons_of_neg (by simpa using hne), ih hnodup h]

theorem mem_of_find? (h : t.find? k = some v) : (k, v) ∈ t.entries := by
  obtain ⟨⟨l, w⟩, he, rfl⟩ := Option.map_eq_some_iff.1 h
  have hl : l = k := by simpa using List.find?_some he
  subst hl
  exact List.mem_of_find?_eq_some he

/-- A table that is written item by item, each under a name of its own, has these names and values. -/
theorem ofList_of_forall₂ {ι : Type} {name : ι → κ} {R : ι → α → Prop} {l : List ι}
    (h : List.Forall₂ (fun i e => e.1 = name i ∧ R i e.2) l es) (hnodup : (l.map name).Nodup) :
    (ofList es).keys = l.map name ∧ ∀ i ∈ l, ∃ v, (ofList es).find? (name i) = some v ∧ R i v := by
  have hkeys : es.map Prod.fst = l.map name := by
    clear hnodup
    induction h with
    | nil => rfl
    | cons hi _ ih => rw [List.map_cons, List.map_cons, hi.1, ih]
  have hnodup : (es.map Prod.fst).Nodup := by
    rw [hkeys]
    exact hnodup
  rw [ofList_of_nodup hnodup]
  refine ⟨hkeys, fun i hi => ?_⟩
  obtain ⟨⟨k, v⟩, he, hname, hv⟩ := exists_of_mem_forall₂ h hi
  subst hname
  exact ⟨v, find?_of_mem hnodup he, hv⟩

theorem isSome_find?_of_mem (h : k ∈ t.keys) : (t.find? k).isSome = true := by
  obtain ⟨e, he, rfl⟩ := List.mem_map.1 h
  rw [find?, Option.isSome_map, List.find?_isSome]
  exact ⟨e, he, decide_eq_true rfl⟩

/-- what all entries have, and the one that is written too, all have behind it -/
theorem of_find?_insert {P : κ → α → Prop} (h : ∀ l w, t.find? l = some w → P l w) (hv : P k v)
    {w : α} (hw : (t.insert k v).find? l = some w) : P l w := by
  by_cases hl : l = k
  · subst hl
    rw [find?_insert_self] at hw
    cases hw
    exact hv
  · rw [find?_insert_of_ne hl] at hw
    exact h l w hw

/-- of the entries that are written one after the other, the last with a key has its value -/
theorem find?_foldl_insert (t : Table κ α) (es : List (κ × α)) :
    (es.foldl (fun t e => t.insert e.1 e.2) t).find? k =
      (Table.find? ⟨es.reverse⟩ k).or (t.find? k) := by
  induction es generalizing t with
  | nil => rfl
  | cons e es ih =>
    rw [List.foldl_cons, ih, List.reverse_cons, find?_append, Option.or_assoc]
    congr 1
    by_cases hk : e.1 = k
    · subst hk
      have hsome : Table.find? ⟨[e]⟩ e.1 = some e.2 :=
        find?_of_mem (t := ⟨[e]⟩) (List.pairwise_singleton _ _) List.mem_cons_self
      rw [find?_insert_self, hsome, Option.some_or]
    · have hnone : Table.find? ⟨[e]⟩ k = none :=
        find?_eq_none fun hm => hk (List.mem_singleton.1 hm).symm
      rw [find?_insert_of_ne (Ne.symm hk), hnone, Option.none_or]

/-- entries with different keys can be searched from either end -/
theorem find?_reverse (h : (es.map Prod.fst).Nodup) :
    Table.find? ⟨es.reverse⟩ k = Table.find? ⟨es⟩ k := by
  cases hk : Table.find? ⟨es⟩ k with
  | some v =>
    have hnodup : (es.reverse.map Prod.fst).Nodup := by
      rw [List.map_reverse]
      exact (List.reverse_perm _).nodup_iff.2 h
    exact find?_of_mem hnodup (List.mem_reverse.2 (mem_of_find? hk))
  | none =>
    refine find?_eq_none fun hm => ?_
    rw [keys, List.map_reverse, List.mem_reverse] at hm
    rw [← Option.not_isSome_iff_eq_none] at hk
    exact hk (isSome_find?_of_mem hm)

theorem find?_ofList (es : List (κ × α)) : (ofList es).find? k = Table.find? ⟨es.reverse⟩ k :=
  (find?_foldl_insert empty es).trans Option.or_none

theorem mem_of_find?_ofList (h : (ofList es).find? k = some v) : (k, v) ∈ es := by
  rw [find?_ofList] at h
  exact List.mem_reverse.1 (mem_of_find? h)

theorem find?_insertIfNew (t : Table κ α) (e : κ × α) :
    (t.insertIfNew e.1 e.2).find? k = (t.find? k).or (Table.find? ⟨[e]⟩ k) := by
  by_cases hk : e.1 ∈ t.keys
  · have hsame : t.insertIfNew e.1 e.2 = t := by
      unfold insertIfNew
      rw [if_pos (contains_iff.2 hk)]
    rw [hsame]
    by_cases he : e.1 = k
    · obtain ⟨w, hw⟩ := Option.isSome_iff_exists.1 (isSome_find?_of_mem (he ▸ hk))
      rw [hw, Option.some_or]
    · have hnone : Table.find? ⟨[e]⟩ k = none :=
        find?_eq_none fun hm => he (List.mem_singleton.1 hm).symm
      rw [hnone, Option.or_none]
  · rw [insertIfNew_of_not_mem hk, find?_append]

theorem find?_orElse (t u : Table κ α) : (t.orElse u).find? k = (t.find? k).or (u.find? k) := by
  obtain ⟨es⟩ := u
  unfold orElse
  simp only
  induction es generalizing t with
  | nil => exact (Option.or_none).symm
  | cons e es ih =>
    rw [List.foldl_cons, ih, find?_insertIfNew, Option.or_assoc, ← find?_append,
      List.singleton_append]

end

/-! ### a function on the values -/

section
variable {κ α β : Type}

def mapValues (f : α → β) (t : Table κ α) : Table κ β := ⟨t.entries.map fun e => (e.1, f e.2)⟩

variable [DecidableEq κ] (f : α → β) (t : Table κ α) (k : κ)

theorem find?_mapValues : (t.mapValues f).find? k = (t.find? k).map f := by
  unfold find? mapValues
  rw [List.find?_map, Option.map_map, Option.map_map]
  rfl

theorem insert_mapValues (v : α) : (t.mapValues f).insert k (f v) = (t.insert k v).mapValues f := by
  obtain ⟨es⟩ := t
  simp only [insert, mapValues]
  congr 1
  induction es with
  | nil => rfl
  | cons e es ih =>
    rw [List.map_cons, insertBy, insertBy]
    split
    · rfl
    · rw [ih, List.map_cons]

end

end UriTemplate.Table
