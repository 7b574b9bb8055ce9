import Mathlib.Data.List.Forall2

/-!
# Lists: steps that may fail, items between separators

* `exists_mapM`, `exists_foldlM`            maps and folds over `Option` that succeed;
* `mapM_eq_some_iff`, `mapM_eq_none_iff`    the items of a map that succeeds, and of one that fails;
* `foldlM_induction`                        what a fold has kept that succeeded;
* `mapM_cons_eq_some`, `mapM_cons_eq_ok`    what a map has done that did;
* `mapM_eq_ok_iff`, `mapM_eq_error_iff`     all items of a map that succeeds, and the first bad one;
* `forall₂_filterMap`                       what is picked from a list;
* `takeWhile_ne_append`                     what stands in front of the first of a character;
* `slice_of_drop_eq_append`                 what stands between two positions;
* `eraseDups_of_nodup`                      a list of different items has no duplicates to erase;
* `infix_intercalate_of_mem`                the items of a separated list are in it.
-/

namespace UriTemplate

/-! ### maps and folds -/

section
variable {α β : Type} {l : List α}

theorem mapM_cons_eq_some {f : α → Option β} {a : α} {m : List β} :
    (a :: l).mapM f = some m ↔ ∃ b m', f a = some b ∧ l.mapM f = some m' ∧ m = b :: m' := by
  simp only [List.mapM_cons, Option.bind_eq_bind, Option.bind_eq_some_iff, Option.pure_def,
    Option.some.injEq]
  constructor
  · rintro ⟨b, hb, m', hm', rfl⟩
    exact ⟨b, m', hb, hm', rfl⟩
  · rintro ⟨b, m', hb, hm', rfl⟩
    exact ⟨b, hb, m', hm', rfl⟩

theorem mapM_eq_ok_of_mapM {ε : Type} {f : α → Option β} {g : α → Except ε β} {m : List β}
    (hfg : ∀ a b, f a = some b → g a = .ok b) (h : l.mapM f = some m) : l.mapM g = .ok m := by
  induction l generalizing m with
  | nil =>
    cases h
    rfl
  | cons a l ih =>
    obtain ⟨b, m', hb, hm', rfl⟩ := mapM_cons_eq_some.1 h
    rw [List.mapM_cons, hfg a b hb, ih hm']
    rfl

theorem mapM_congr {m : Type → Type} [Monad m] [LawfulMonad m] {f g : α → m β}
    (h : ∀ a ∈ l, f a = g a) : l.mapM f = l.mapM g := by
  induction l with
  | nil => rfl
  | cons a l ih =>
    obtain ⟨ha, hl⟩ := List.forall_mem_cons.1 h
    rw [List.mapM_cons, List.mapM_cons, ha, ih hl]

theorem mapM_eq_some_map {f : α → Option β} {g : α → β}
    (h : ∀ a ∈ l, f a = some (g a)) : l.mapM f = some (l.map g) := by
  induction l with
  | nil => rfl
  | cons a l ih =>
    have hl := ih fun b hb => h b (List.mem_cons_of_mem _ hb)
    exact mapM_cons_eq_some.2 ⟨g a, l.map g, h a List.mem_cons_self, hl, rfl⟩

theorem mapM_eq_ok_map {ε : Type} {f : α → Except ε β} {g : α → β}
    (h : ∀ a ∈ l, f a = .ok (g a)) : l.mapM f = .ok (l.map g) := by
  induction l with
  | nil => rfl
  | cons a l ih =>
    have hl := ih fun b hb => h b (List.mem_cons_of_mem _ hb)
    rw [List.mapM_cons, h a List.mem_cons_self, hl]
    rfl

theorem exists_mapM {f : α → Option β} (h : ∀ a ∈ l, ∃ b, f a = some b) :
    ∃ m, l.mapM f = some m := by
  induction l with
  | nil => exact ⟨[], rfl⟩
  | cons a l ih =>
    obtain ⟨b, hb⟩ := h a List.mem_cons_self
    obtain ⟨m, hm⟩ := ih fun c hc => h c (List.mem_cons_of_mem _ hc)
    exact ⟨b :: m, mapM_cons_eq_some.2 ⟨b, m, hb, hm, rfl⟩⟩

/-- a map succeeds item by item -/
theorem mapM_eq_some_iff {f : α → Option β} {m : List β} :
    l.mapM f = some m ↔ List.Forall₂ (fun a b => f a = some b) l m := by
  induction l generalizing m with
  | nil =>
    rw [List.forall₂_nil_left_iff]
    exact ⟨fun h => by cases h; rfl, fun h => by rw [h]; rfl⟩
  | cons a l ih =>
    rw [mapM_cons_eq_some, List.forall₂_cons_left_iff]
    simp only [ih]

/-- a map fails if it does on some item -/
theorem mapM_eq_none_iff {f : α → Option β} : l.mapM f = none ↔ ∃ a ∈ l, f a = none := by
  induction l with
  | nil => simp
  | cons a l ih =>
    rw [List.mapM_cons, List.exists_mem_cons_iff, ← ih]
    cases f a with
    | none => simp
    | some b => cases l.mapM f <;> simp

theorem exists_of_mem_of_mapM {f : α → Option β} {m : List β} (h : l.mapM f = some m) {b : β}
    (hb : b ∈ m) : ∃ a ∈ l, f a = some b := by
  induction l generalizing m with
  | nil =>
    cases h
    cases hb
  | cons a l ih =>
    obtain ⟨b', m', hb', hm', rfl⟩ := mapM_cons_eq_some.1 h
    rcases List.mem_cons.1 hb with rfl | hb
    · exact ⟨a, List.mem_cons_self, hb'⟩
    · obtain ⟨a', ha', hfa'⟩ := ih hm' hb
      exact ⟨a', List.mem_cons_of_mem _ ha', hfa'⟩

/-- A fold succeeds if each step does, from a state that is right for what is left. -/
theorem exists_foldlM {f : β → α → Option β} {I : List α → β → Prop}
    (hstep : ∀ a l s, I (a :: l) s → ∃ s', f s a = some s' ∧ I l s') {s : β} (h : I l s) :
    ∃ s', l.foldlM f s = some s' ∧ I [] s' := by
  induction l generalizing s with
  | nil => exact ⟨s, rfl, h⟩
  | cons a l ih =>
    obtain ⟨s₁, hs₁, h₁⟩ := hstep a l s h
    obtain ⟨s₂, hs₂, h₂⟩ := ih h₁
    refine ⟨s₂, ?_, h₂⟩
    rw [List.foldlM_cons, hs₁]
    exact hs₂

/-- What each step keeps about the items so far, a fold that succeeds keeps about all of them. -/
theorem foldlM_induction {f : β → α → Option β} {I : List α → β → Prop}
    (hstep : ∀ front a s s', I front s → f s a = some s' → I (front ++ [a]) s') {front : List α}
    {s s' : β} (h : I front s) (hs' : l.foldlM f s = some s') : I (front ++ l) s' := by
  induction l generalizing front s with
  | nil =>
    cases hs'
    rwa [List.append_nil]
  | cons a l ih =>
    rw [List.foldlM_cons] at hs'
    obtain ⟨s₁, hs₁, hs'⟩ := Option.bind_eq_some_iff.1 hs'
    rw [List.append_cons]
    exact ih (hstep front a s s₁ h hs₁) hs'

theorem flatten_map_toList (f : α → Option β) (l : List α) :
    (l.map fun a => (f a).toList).flatten = l.filterMap f := by
  induction l with
  | nil => rfl
  | cons a l ih =>
    rw [List.map_cons, List.flatten_cons, ih]
    cases hf : f a with
    | none => rw [List.filterMap_cons_none hf]; rfl
    | some b => rw [List.filterMap_cons_some hf]; rfl

theorem map_eq_ok_iff {ε : Type} {x : Except ε α} {g : α → β} {b : β} :
    x.map g = .ok b ↔ ∃ a, x = .ok a ∧ g a = b := by
  cases x with
  | error e => exact ⟨fun h => (by cases h), fun ⟨a, h, _⟩ => (by cases h)⟩
  | ok a =>
    constructor
    · intro h
      cases h
      exact ⟨a, rfl, rfl⟩
    · rintro ⟨a', h, rfl⟩
      cases h
      rfl

theorem map_eq_error_iff {ε : Type} {x : Except ε α} {g : α → β} {e : ε} :
    x.map g = .error e ↔ x = .error e := by
  cases x with
  | error e' =>
    constructor <;>
    · intro h
      cases h
      rfl
  | ok a => constructor <;> (intro h; cases h)

theorem mapError_eq_ok_iff {ε ε' : Type} {x : Except ε α} {g : ε → ε'} {a : α} :
    x.mapError g = .ok a ↔ x = .ok a := by
  cases x <;> simp [Except.mapError]

theorem mapError_eq_error_iff {ε ε' : Type} {x : Except ε α} {g : ε → ε'} {e : ε'} :
    x.mapError g = .error e ↔ ∃ d, x = .error d ∧ g d = e := by
  cases x <;> simp [Except.mapError]

theorem bind_eq_ok_iff {ε : Type} {x : Except ε α} {f : α → Except ε β} {b : β} :
    x.bind f = .ok b ↔ ∃ a, x = .ok a ∧ f a = .ok b := by
  cases x <;> simp [Except.bind]

theorem bind_eq_error_iff {ε : Type} {x : Except ε α} {f : α → Except ε β} {e : ε} :
    x.bind f = .error e ↔ x = .error e ∨ ∃ a, x = .ok a ∧ f a = .error e := by
  cases x <;> simp [Except.bind]

theorem mapM_cons_eq_ok {ε : Type} {f : α → Except ε β} {a : α} {m : List β}
    (h : (a :: l).mapM f = .ok m) : ∃ b m', f a = .ok b ∧ l.mapM f = .ok m' ∧ m = b :: m' := by
  rw [List.mapM_cons] at h
  cases hb : f a with
  | error e =>
    rw [hb] at h
    cases h
  | ok b =>
    cases hm : l.mapM f with
    | error e =>
      rw [hb, hm] at h
      cases h
    | ok m' =>
      rw [hb, hm] at h
      cases h
      exact ⟨b, m', rfl, rfl, rfl⟩

/-- a map succeeds item by item -/
theorem mapM_eq_ok_iff {ε : Type} {f : α → Except ε β} {m : List β} :
    l.mapM f = .ok m ↔ List.Forall₂ (fun b a => f a = .ok b) m l := by
  induction l generalizing m with
  | nil =>
    rw [List.forall₂_nil_right_iff]
    exact ⟨fun h => by cases h; rfl, fun h => by rw [h]; rfl⟩
  | cons a l ih =>
    rw [List.forall₂_cons_right_iff]
    constructor
    · intro h
      obtain ⟨b, m', hb, hm', rfl⟩ := mapM_cons_eq_ok h
      exact ⟨b, m', hb, ih.1 hm', rfl⟩
    · rintro ⟨b, m', hb, hm', rfl⟩
      rw [List.mapM_cons, hb, ih.2 hm']
      rfl

theorem exists_of_mem_forall₂ {R : α → β → Prop} {m : List β} (h : List.Forall₂ R l m) {a : α}
    (ha : a ∈ l) : ∃ b ∈ m, R a b := by
  induction h with
  | nil => cases ha
  | @cons a' b l m hab _ ih =>
    rcases List.mem_cons.1 ha with rfl | ha
    · exact ⟨b, List.mem_cons_self, hab⟩
    · obtain ⟨b', hb', hab'⟩ := ih ha
      exact ⟨b', List.mem_cons_of_mem _ hb', hab'⟩

/-- Lists of no items and of one, side by side with what they are made from: those of one item come
from the list that is filtered. -/
theorem forall₂_flatten {R : α → β → Prop} {p : α → Bool} {ms : List (List β)}
    (h : List.Forall₂ (fun a m => p a = false ∧ m = [] ∨ p a = true ∧ ∃ b, m = [b] ∧ R a b) l ms) :
    List.Forall₂ R (l.filter p) ms.flatten := by
  induction h with
  | nil => exact .nil
  | cons ham _ ih =>
    rcases ham with ⟨hp, rfl⟩ | ⟨hp, b, rfl, hab⟩
    · rw [List.filter_cons_of_neg (by simp [hp])]
      exact ih
    · rw [List.filter_cons_of_pos hp]
      exact .cons hab ih

/-- What is picked from a list, side by side with what it is picked from. -/
theorem forall₂_filterMap (g : α → Option β) (l : List α) :
    List.Forall₂ (fun a b => g a = some b) (l.filter fun a => (g a).isSome) (l.filterMap g) := by
  induction l with
  | nil => exact .nil
  | cons a l ih =>
    cases ha : g a with
    | none =>
      rw [List.filterMap_cons_none ha, List.filter_cons_of_neg (by simp [ha])]
      exact ih
    | some b =>
      rw [List.filterMap_cons_some ha, List.filter_cons_of_pos (by simp [ha])]
      exact .cons ha ih

theorem mapM_cons_eq_error {ε : Type} {f : α → Except ε β} {a : α} {e : ε} :
    (a :: l).mapM f = .error e ↔ f a = .error e ∨ (∃ b, f a = .ok b) ∧ l.mapM f = .error e := by
  rw [List.mapM_cons]
  cases hfa : f a with
  | error e' =>
    constructor
    · intro h
      cases h
      exact .inl rfl
    · rintro (h | ⟨⟨b, hb⟩, -⟩)
      · cases h
        rfl
      · cases hb
  | ok b =>
    cases hm : l.mapM f with
    | error e' =>
      constructor
      · intro h
        cases h
        exact .inr ⟨⟨b, rfl⟩, rfl⟩
      · rintro (h | ⟨-, h⟩)
        · cases h
        · cases h
          rfl
    | ok m =>
      constructor
      · intro h
        cases h
      · rintro (h | ⟨-, h⟩) <;> cases h

/-- a map fails at the first item that does -/
theorem mapM_eq_error_iff {ε : Type} {f : α → Except ε β} {e : ε} :
    l.mapM f = .error e ↔ ∃ good bad more, l = good ++ bad :: more ∧
      (∀ a ∈ good, ∃ b, f a = .ok b) ∧ f bad = .error e := by
  induction l with
  | nil =>
    constructor
    · intro h
      cases h
    · rintro ⟨good, bad, more, h, -⟩
      exact absurd h.symm (by simp)
  | cons a l ih =>
    rw [mapM_cons_eq_error, ih]
    constructor
    · rintro (h | ⟨ha, good, bad, more, rfl, hgood, hbad⟩)
      · exact ⟨[], a, l, rfl, by simp, h⟩
      · exact ⟨a :: good, bad, more, rfl, List.forall_mem_cons.2 ⟨ha, hgood⟩, hbad⟩
    · rintro ⟨good, bad, more, h, hgood, hbad⟩
      cases good with
      | nil =>
        cases h
        exact .inl hbad
      | cons a' good =>
        cases h
        obtain ⟨ha, hgood⟩ := List.forall_mem_cons.1 hgood
        exact .inr ⟨ha, good, bad, more, rfl, hgood, hbad⟩

end

/-! ### the first of its kind -/

section
variable {c : Char} {s t : List Char}

theorem forall_ne_of_not_mem (h : c ∉ s) : ∀ d ∈ s, decide (d ≠ c) = true := by
  intro d hd
  apply decide_eq_true
  rintro rfl
  exact h hd

theorem takeWhile_ne_append (h : c ∉ s) (t : List Char) :
    (s ++ c :: t).takeWhile (· ≠ c) = s := by
  rw [List.takeWhile_append_of_pos (forall_ne_of_not_mem h),
    List.takeWhile_cons_of_neg (by simp), List.append_nil]

theorem takeWhile_ne_of_not_mem (h : c ∉ s) : s.takeWhile (· ≠ c) = s := by
  have hs : (s ++ []).takeWhile (· ≠ c) = s ++ [].takeWhile (· ≠ c) :=
    List.takeWhile_append_of_pos (forall_ne_of_not_mem h)
  rwa [List.append_nil, List.takeWhile_nil, List.append_nil] at hs

theorem dropWhile_ne_append (h : c ∉ s) (t : List Char) :
    (s ++ c :: t).dropWhile (· ≠ c) = c :: t := by
  rw [List.dropWhile_append_of_pos (forall_ne_of_not_mem h), List.dropWhile_cons_of_neg (by simp)]

theorem dropWhile_ne_of_not_mem (h : c ∉ s) : s.dropWhile (· ≠ c) = [] := by
  have hs : (s ++ []).dropWhile (· ≠ c) = [].dropWhile (· ≠ c) :=
    List.dropWhile_append_of_pos (forall_ne_of_not_mem h)
  rwa [List.append_nil] at hs

end

/-! ### slices -/

/-- what begins at a position, from there to its end -/
theorem slice_of_drop_eq_append {α : Type} {l u v : List α} {i : Nat} (h : l.drop i = u ++ v) :
    (l.take (i + u.length)).drop i = u := by
  rw [List.drop_take, Nat.add_sub_cancel_left, h, List.take_left]

/-! ### each once -/

theorem eraseDups_of_nodup {α : Type} [BEq α] [LawfulBEq α] {l : List α} (h : l.Nodup) :
    l.eraseDups = l := by
  induction l with
  | nil => exact List.eraseDups_nil
  | cons a l ih =>
    obtain ⟨ha, h⟩ := List.nodup_cons.1 h
    have hrest : l.filter (fun b => !b == a) = l :=
      List.filter_eq_self.2 fun b hb => by simpa using ne_of_mem_of_not_mem hb ha
    rw [List.eraseDups_cons, hrest, ih h]

/-! ### items between separators -/

theorem not_mem_of_mem_splitOn {c : Char} {t s : List Char} (h : s ∈ t.splitOn c) : c ∉ s := by
  induction t generalizing s with
  | nil =>
    rw [List.splitOn_nil, List.mem_singleton] at h
    rw [h]
    exact List.not_mem_nil
  | cons d t ih =>
    rw [List.splitOn_cons_eq_if_modifyHead] at h
    by_cases hd : (d == c) = true
    · rw [if_pos hd] at h
      rcases List.mem_cons.1 h with rfl | h
      · exact List.not_mem_nil
      · exact ih h
    · rw [if_neg hd] at h
      obtain ⟨u, us, hu⟩ := List.exists_cons_of_ne_nil (List.splitOn_ne_nil c t)
      rw [hu] at h ih
      rw [List.modifyHead_cons] at h
      rcases List.mem_cons.1 h with rfl | h
      · intro hm
        rcases List.mem_cons.1 hm with rfl | hm
        · exact hd (beq_self_eq_true _)
        · exact ih List.mem_cons_self hm
      · exact ih (List.mem_cons_of_mem _ h)

theorem intercalate_cons_eq_flatMap (c : Char) (s : List Char) (ss : List (List Char)) :
    [c].intercalate (s :: ss) = s ++ ss.flatMap (c :: ·) := by
  induction ss generalizing s with
  | nil => rw [List.intercalate_singleton, List.flatMap_nil, List.append_nil]
  | cons u ss ih =>
    rw [List.intercalate_cons_cons, ih, List.flatMap_cons, List.append_assoc]
    rfl

theorem eq_or_mem_of_mem_intercalate {c d : Char} {ss : List (List Char)}
    (h : d ∈ [c].intercalate ss) : d = c ∨ ∃ s ∈ ss, d ∈ s := by
  induction ss with
  | nil => cases h
  | cons s ss ih =>
    cases ss with
    | nil =>
      rw [List.intercalate_singleton] at h
      exact .inr ⟨s, List.mem_cons_self, h⟩
    | cons u ss =>
      rw [List.intercalate_cons_cons, List.append_assoc] at h
      rcases List.mem_append.1 h with h | h
      · exact .inr ⟨s, List.mem_cons_self, h⟩
      · rcases List.mem_append.1 h with h | h
        · exact .inl (List.mem_singleton.1 h)
        · rcases ih h with rfl | ⟨u', hu', hd⟩
          · exact .inl rfl
          · exact .inr ⟨u', List.mem_cons_of_mem _ hu', hd⟩

theorem infix_intercalate_of_mem {c : Char} {s : List Char} {ss : List (List Char)} (h : s ∈ ss) :
    s <:+: [c].intercalate ss := by
  induction ss with
  | nil => cases h
  | cons u ss ih =>
    cases ss with
    | nil =>
      obtain rfl := List.mem_singleton.1 h
      exact ⟨[], [], by rw [List.nil_append, List.append_nil, List.intercalate_singleton]⟩
    | cons v ss =>
      rw [List.intercalate_cons_cons]
      rcases List.mem_cons.1 h with rfl | h
      · exact ⟨[], [c] ++ [c].intercalate (v :: ss), by rw [List.nil_append, List.append_assoc]⟩
      · exact (ih h).trans (List.suffix_append _ _).isInfix

theorem intercalate_concat (c : Char) (s u : List Char) (ss : List (List Char)) :
    [c].intercalate (s :: (ss ++ [u])) = [c].intercalate (s :: ss) ++ c :: u := by
  induction ss generalizing s with
  | nil =>
    rw [List.nil_append, List.intercalate_cons_cons, List.intercalate_singleton,
      List.intercalate_singleton, List.append_assoc, List.singleton_append]
  | cons v ss ih =>
    rw [List.cons_append, List.intercalate_cons_cons, ih, List.intercalate_cons_cons,
      List.append_assoc, List.append_assoc, List.append_assoc]

theorem prefix_intercalate_cons (c : Char) (s : List Char) (ss : List (List Char)) :
    s <+: [c].intercalate (s :: ss) := by
  cases ss with
  | nil => simp
  | cons u us =>
    rw [List.intercalate_cons_cons, List.append_assoc]
    exact List.prefix_append _ _

end UriTemplate
