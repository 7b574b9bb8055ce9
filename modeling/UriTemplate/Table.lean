/-!
# Tables in order of arrival

A table holds one value a key and remembers the order in which its keys came. Writing to a key that
is there changes its value and moves nothing.

* `insert`, `insertIfNew`, `erase`   the three changes, with what a write does to the keys;
* `find?`                            the value of a key.
-/

namespace UriTemplate

structure Table (κ α : Type) where
  entries : List (κ × α)
deriving DecidableEq, Repr

namespace Table

section
variable {κ α : Type}

def empty : Table κ α := ⟨[]⟩

def keys (t : Table κ α) : List κ := t.entries.map Prod.fst

def isEmpty (t : Table κ α) : Bool := t.entries.isEmpty

/-- sets the value of the first entry with the key, or appends one -/
def insertBy (same : κ → κ → Bool) (k : κ) (v : α) : List (κ × α) → List (κ × α)
  | [] => [(k, v)]
  | e :: es => if same e.1 k then (e.1, v) :: es else e :: insertBy same k v es

end

section
variable {κ α : Type} [DecidableEq κ]

def find? (t : Table κ α) (k : κ) : Option α := (t.entries.find? fun e => e.1 = k).map Prod.snd

def contains (t : Table κ α) (k : κ) : Bool := t.entries.any fun e => e.1 = k

def insert (t : Table κ α) (k : κ) (v : α) : Table κ α :=
  ⟨insertBy (fun a b => a = b) k v t.entries⟩

/-- leaves a key that is there as it is -/
def insertIfNew (t : Table κ α) (k : κ) (v : α) : Table κ α :=
  if t.contains k then t else ⟨t.entries ++ [(k, v)]⟩

def erase (t : Table κ α) (k : κ) : Table κ α := ⟨t.entries.filter fun e => e.1 ≠ k⟩

/-- of several entries with one key, the first fixes the place and the last the value -/
def ofList (es : List (κ × α)) : Table κ α := es.foldl (fun t e => t.insert e.1 e.2) empty

/-- adds the entries of `u` whose keys are not in `t` -/
def orElse (t u : Table κ α) : Table κ α := u.entries.foldl (fun t e => t.insertIfNew e.1 e.2) t

/-! ### what the operations do to the keys -/

variable {t : Table κ α} {k l : κ} {v : α}

theorem contains_iff : t.contains k = true ↔ k ∈ t.keys := by
  simp [contains, keys]

theorem keys_insert_of_mem (h : k ∈ t.keys) : (t.insert k v).keys = t.keys := by
  obtain ⟨es⟩ := t
  simp only [insert, keys] at *
  induction es with
  | nil => simp at h
  | cons e es ih =>
    unfold insertBy
    split
    · rfl
    · next hne =>
      have hne : ¬ e.1 = k := by simpa using hne
      simp only [List.map_cons, List.mem_cons] at h
      rcases h with h | h
      · exact absurd h.symm hne
      · rw [List.map_cons, List.map_cons, ih h]

theorem keys_insert_of_not_mem (h : k ∉ t.keys) : (t.insert k v).keys = t.keys ++ [k] := by
  obtain ⟨es⟩ := t
  simp only [insert, keys] at *
  induction es with
  | nil => rfl
  | cons e es ih =>
    unfold insertBy
    split
    · simp_all
    · simp_all

theorem keys_insertIfNew_of_mem (h : k ∈ t.keys) : (t.insertIfNew k v).keys = t.keys := by
  simp [insertIfNew, contains_iff.2 h]

theorem keys_insertIfNew_of_not_mem (h : k ∉ t.keys) :
    (t.insertIfNew k v).keys = t.keys ++ [k] := by
  simp [insertIfNew, mt contains_iff.1 h, keys]

/-! ### what the operations do to the values -/

theorem find?_insert_self : (t.insert k v).find? k = some v := by
  obtain ⟨es⟩ := t
  simp only [insert, find?]
  induction es with
  | nil => simp [insertBy]
  | cons e es ih =>
    unfold insertBy
    split
    · next h => simp_all
    · next h => simp_all

theorem find?_insert_of_ne (h : l ≠ k) : (t.insert k v).find? l = t.find? l := by
  obtain ⟨es⟩ := t
  simp only [insert, find?]
  induction es with
  | nil => simp [insertBy, h.symm]
  | cons e es ih =>
    unfold insertBy
    split
    · next hk =>
      have hk : e.1 = k := by simpa using hk
      have : ¬ e.1 = l := fun he => h (he.symm.trans hk)
      simp [this]
    · simp only [List.find?_cons]
      split <;> simp_all

end
end Table
end UriTemplate
