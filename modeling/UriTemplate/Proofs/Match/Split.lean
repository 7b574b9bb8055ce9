import UriTemplate.Match.Split
import UriTemplate.Proofs.Lists
import UriTemplate.Proofs.Percent.Decode
import UriTemplate.Proofs.Table

/-!
# Handing out segments

* `Variable.Recovers`          the value that segments give to a variable;
* `assignInOrder_cons_cons`    a step by position: the first variable gets its share, the others what
                               is left. So every list of segments that can be decoded is handed out
                               (`exists_assignInOrder`);
* `Assignment.takeSegment_cases`   a step by name: a segment has a taker, or it goes to the last
                               variable. It has one if some choice of takers exists (`Fits`), as the
                               walk takes each key as early as it can (`exists_assignByName`);
* `assignByName_scalars`       what variables with different names get, none of them exploded;
* `assignInOrder_whole`        what variables without modifiers get by position.
-/

namespace UriTemplate
open Percent

/-! ### values of segments -/

section
variable {sep : Char} {xs ys : List Variable} {x : Variable} {s k : Text} {ss ks : List Text}

theorem Modifier.cut_cut (m : Modifier) (t : Text) : m.cut (m.cut t) = m.cut t := by
  cases m with
  | whole => rfl
  | exploded => rfl
  | truncated n =>
    show (t.take n).take n = t.take n
    rw [List.take_take, Nat.min_self]

theorem exists_recover? (m : Modifier) (h : Decodes s) : ∃ v, m.recover? s = some v := by
  obtain ⟨t, ht⟩ := h.exists
  refine ⟨.text (m.cut t), ?_⟩
  unfold Modifier.recover?
  rw [ht]
  rfl

theorem exists_recoverItems? (h : ∀ s ∈ ss, Decodes s) : ∃ v, recoverItems? ss = some v := by
  unfold recoverItems?
  split
  · exact ⟨_, rfl⟩
  · obtain ⟨ts, hts⟩ := exists_mapM fun s hs => (h s hs).exists
    rw [hts]
    exact ⟨_, rfl⟩

/-- The value that raw segments give to a variable: a scalar has their text, an exploded variable
the list of their texts, which is empty if there is one segment without text. -/
inductive Variable.Recovers (sep : Char) (x : Variable) : List Text → Recovered → Prop
  | text {ss : List Text} {t : Text} (hx : x.isExploded = false)
      (h : decode? ([sep].intercalate ss) = some t) : Recovers sep x ss (.text (x.modifier.cut t))
  | items {ss ts : List Text} (hx : x.isExploded = true) (hne : ss ≠ [[]])
      (h : ss.mapM decode? = some ts) : Recovers sep x ss (.items ts)
  | noItems (hx : x.isExploded = true) : Recovers sep x [[]] (.items [])

theorem Variable.Recovers.text_of_whole {v : Recovered} (h : x.Recovers sep ss v)
    (hx : x.modifier = .whole) : ∃ t, decode? ([sep].intercalate ss) = some t ∧ v = .text t := by
  have hscalar : x.isExploded = false := by
    rw [Variable.isExploded, hx]
    rfl
  cases h with
  | @text _ t _ ht => exact ⟨t, ht, by rw [hx]; rfl⟩
  | items hx' =>
    rw [hscalar] at hx'
    cases hx'
  | noItems hx' =>
    rw [hscalar] at hx'
    cases hx'

/-- that value, or nothing if escapes are not UTF-8 -/
def Variable.recover? (sep : Char) (x : Variable) (ss : List Text) : Option Recovered :=
  if x.isExploded then recoverItems? ss else x.modifier.recover? ([sep].intercalate ss)

theorem Variable.recover?_eq_some_iff {v : Recovered} :
    x.recover? sep ss = some v ↔ x.Recovers sep ss v := by
  unfold Variable.recover?
  constructor
  · intro h
    split at h
    · next hx =>
      unfold recoverItems? at h
      split at h
      · next hss =>
        cases h
        subst hss
        exact .noItems hx
      · next hss =>
        simp only [Option.bind_eq_bind, Option.bind_eq_some_iff, Option.pure_def,
          Option.some.injEq] at h
        obtain ⟨ts, hts, rfl⟩ := h
        exact .items hx hss hts
    · next hx =>
      simp only [Modifier.recover?, Option.bind_eq_bind, Option.bind_eq_some_iff, Option.pure_def,
        Option.some.injEq] at h
      obtain ⟨t, ht, rfl⟩ := h
      exact .text (by simpa using hx) ht
  · intro h
    cases h with
    | text hx h =>
      rw [if_neg (by simp [hx]), Modifier.recover?, h]
      rfl
    | items hx hne h =>
      rw [if_pos hx, recoverItems?, if_neg hne, h]
      rfl
    | noItems hx => rw [if_pos hx, recoverItems?, if_pos rfl]

/-- Only bytes that are not UTF-8 keep segments from giving a value. -/
theorem Variable.recover?_eq_none_iff : x.recover? sep ss = none ↔
    x.isExploded = false ∧ decode? ([sep].intercalate ss) = none ∨
      x.isExploded = true ∧ ∃ s ∈ ss, decode? s = none := by
  unfold Variable.recover?
  cases hx : x.isExploded with
  | false =>
    rw [if_neg Bool.false_ne_true, Modifier.recover?]
    cases decode? ([sep].intercalate ss) <;> simp
  | true =>
    rw [if_pos rfl, recoverItems?, ← mapM_eq_none_iff]
    split
    · next hss =>
      have hdecode : ss.mapM decode? = some [[]] := by
        rw [hss]
        rfl
      rw [hdecode]
      simp
    · cases ss.mapM decode? <;> simp

theorem Variable.exists_recover? (hsep : standsAlone sep = true) (x : Variable)
    (h : ∀ s ∈ ss, Decodes s) : ∃ v, x.recover? sep ss = some v := by
  unfold Variable.recover?
  split
  · exact exists_recoverItems? h
  · exact UriTemplate.exists_recover? x.modifier ((decodes_intercalate hsep ss).2 h)

/-! ### by position -/

/-- what the walk gives to a variable in front of `xs` when `m` segments are left -/
def shareSize (x : Variable) (xs : List Variable) (m : Nat) : Nat :=
  if x.isExploded then max 1 (m - xs.length) else if xs.isEmpty then m else 1

theorem assignInOrder_nil : assignInOrder sep [] ss = some [] := by
  rw [assignInOrder]

theorem assignInOrder_no_segments : assignInOrder sep xs [] = some [] := by
  cases xs <;> rfl

/-- One step of the walk: the first variable gets its share, the others what is left. -/
theorem assignInOrder_cons_cons : assignInOrder sep (x :: xs) (s :: ss) = do
    let v ← x.recover? sep ((s :: ss).take (shareSize x xs (s :: ss).length))
    let vs ← assignInOrder sep xs ((s :: ss).drop (shareSize x xs (s :: ss).length))
    return (x.name, v) :: vs := by
  rw [assignInOrder]
  unfold shareSize Variable.recover?
  dsimp only
  split
  · rfl
  · split
    · next hxs =>
      rw [List.isEmpty_iff.1 hxs, List.drop_length, List.take_length, assignInOrder_nil]
      rfl
    · rw [List.take_succ_cons, List.take_zero, List.drop_succ_cons, List.drop_zero,
        List.intercalate_singleton]

theorem assignInOrder_cons {vs : List (Text × Recovered)}
    (h : assignInOrder sep (x :: xs) (s :: ss) = some vs) :
    ∃ v vs', x.Recovers sep ((s :: ss).take (shareSize x xs (s :: ss).length)) v ∧
      assignInOrder sep xs ((s :: ss).drop (shareSize x xs (s :: ss).length)) = some vs' ∧
      vs = (x.name, v) :: vs' := by
  rw [assignInOrder_cons_cons] at h
  simp only [Option.bind_eq_bind, Option.bind_eq_some_iff, Option.pure_def, Option.some.injEq] at h
  obtain ⟨v, hv, vs', hvs', rfl⟩ := h
  exact ⟨v, vs', Variable.recover?_eq_some_iff.1 hv, hvs', rfl⟩

theorem exists_assignInOrder (hsep : standsAlone sep = true) (xs : List Variable)
    (h : ∀ s ∈ ss, Decodes s) : ∃ vs, assignInOrder sep xs ss = some vs := by
  induction xs generalizing ss with
  | nil => exact ⟨[], assignInOrder_nil⟩
  | cons x xs ih =>
    cases ss with
    | nil => exact ⟨[], assignInOrder_no_segments⟩
    | cons s ss =>
      rw [assignInOrder_cons_cons]
      generalize shareSize x xs (s :: ss).length = n
      obtain ⟨v, hv⟩ := x.exists_recover? hsep fun t ht => h t (List.mem_of_mem_take ht)
      obtain ⟨vs, hvs⟩ := ih fun t ht => h t (List.mem_of_mem_drop ht)
      rw [hv, hvs]
      exact ⟨_, rfl⟩

/-- the values of variables, as many as there are texts -/
def assigned (xs : List Variable) (ts : List Text) : List (Text × Recovered) :=
  List.zipWith (fun x t => (x.name, .text t)) xs ts

theorem keys_assigned (xs : List Variable) (ts : List Text) :
    ((assigned xs ts).map Prod.fst).Sublist (xs.map Variable.name) := by
  induction xs generalizing ts with
  | nil => exact List.Sublist.refl _
  | cons x xs ih =>
    cases ts with
    | nil => exact List.nil_sublist _
    | cons t ts => exact (ih ts).cons_cons _

/-- Variables without modifiers get a text each, until there are no segments left; what the last one
gets is the text of all segments that are left. -/
theorem assignInOrder_whole {vs : List (Text × Recovered)} (hxs : ∀ x ∈ xs, x.modifier = .whole)
    (hne : xs ≠ []) (h : assignInOrder sep xs ss = some vs) :
    ∃ us ts, [sep].intercalate us = [sep].intercalate ss ∧ (us = [] ↔ ss = []) ∧
      us.mapM decode? = some ts ∧ ts.length ≤ xs.length ∧ vs = assigned xs ts := by
  induction xs generalizing ss vs with
  | nil => exact absurd rfl hne
  | cons x xs ih =>
    obtain ⟨hx, hxs⟩ := List.forall_mem_cons.1 hxs
    cases ss with
    | nil =>
      rw [assignInOrder_no_segments] at h
      cases h
      exact ⟨[], [], rfl, Iff.rfl, rfl, Nat.zero_le _, rfl⟩
    | cons s ss =>
      obtain ⟨v, vs', hv, hvs', rfl⟩ := assignInOrder_cons h
      obtain ⟨t, ht, rfl⟩ := hv.text_of_whole hx
      rw [shareSize, if_neg (by simp [Variable.isExploded, hx])] at ht hvs'
      cases xs with
      | nil =>
        rw [List.isEmpty_nil, if_pos rfl, List.take_length] at ht
        rw [assignInOrder_nil] at hvs'
        cases hvs'
        exact ⟨[[sep].intercalate (s :: ss)], [t], List.intercalate_singleton, by simp,
          mapM_cons_eq_some.2 ⟨t, [], ht, rfl, rfl⟩, Nat.le_refl _, rfl⟩
      | cons y ys =>
        rw [List.isEmpty_cons, if_neg Bool.false_ne_true] at ht hvs'
        rw [List.take_succ_cons, List.take_zero, List.intercalate_singleton] at ht
        rw [List.drop_succ_cons, List.drop_zero] at hvs'
        obtain ⟨us, ts, hjoin, hnil, hts, hlen, rfl⟩ := ih hxs (List.cons_ne_nil _ _) hvs'
        refine ⟨s :: us, t :: ts, ?_, by simp, mapM_cons_eq_some.2 ⟨t, ts, ht, hts, rfl⟩,
          Nat.succ_le_succ hlen, rfl⟩
        cases ss with
        | nil => rw [hnil.2 rfl]
        | cons s' ss =>
          obtain ⟨u, us, rfl⟩ := List.exists_cons_of_ne_nil (mt hnil.1 (List.cons_ne_nil _ _))
          rw [List.intercalate_cons_cons, List.intercalate_cons_cons, hjoin]

/-! ### by name: takers -/

/-- The variables can take segments with these keys, in declared order: a scalar one segment of its
name, an exploded one at the end any segments. -/
inductive Fits : List Variable → List Text → Prop
  | done (vars : List Variable) : Fits vars []
  | skip {v : Variable} {vars : List Variable} {keys : List Text} (hv : v.isExploded = false)
      (h : Fits vars keys) : Fits (v :: vars) keys
  | take {v : Variable} {vars : List Variable} {keys : List Text} (hv : v.isExploded = false)
      (h : Fits vars keys) : Fits (v :: vars) (v.name :: keys)
  | rest {v : Variable} (hv : v.isExploded = true) (keys : List Text) : Fits [v] keys

theorem Fits.tail (h : Fits xs (k :: ks)) : Fits xs ks := by
  induction xs with
  | nil => cases h
  | cons x xs ih =>
    cases h with
    | skip hx h => exact .skip hx (ih h)
    | take hx h => exact .skip hx h
    | rest hx _ => exact .rest hx ks

/-- the variables that may take a segment once `x` has taken one, those behind it being `xs` -/
def remainingAfter (x : Variable) (xs : List Variable) : List Variable :=
  if x.isExploded then x :: xs else xs

theorem remainingAfter_suffix (x : Variable) (ys : List Variable) :
    remainingAfter x ys <:+ x :: ys := by
  unfold remainingAfter
  split
  · exact List.suffix_refl _
  · exact List.suffix_cons x ys

/-- Taking a key early leaves all variables that a later taker would leave, and more. -/
theorem Fits.taker? (h : Fits xs (k :: ks)) :
    ∃ x xs', taker? k xs = some (x, xs') ∧ Fits (remainingAfter x xs') ks := by
  unfold remainingAfter
  induction xs with
  | nil => cases h
  | cons x xs ih =>
    unfold UriTemplate.taker?
    cases h with
    | skip hx h =>
      rw [if_neg (by simp [hx])]
      by_cases hk : x.name = k
      · rw [if_pos hk]
        refine ⟨x, xs, rfl, ?_⟩
        rw [if_neg (by simp [hx])]
        exact h.tail
      · rw [if_neg hk]
        exact ih h
    | take hx h =>
      rw [if_neg (by simp [hx]), if_pos rfl]
      refine ⟨x, xs, rfl, ?_⟩
      rw [if_neg (by simp [hx])]
      exact h
    | rest hx _ =>
      rw [if_pos hx]
      refine ⟨x, [], rfl, ?_⟩
      rw [if_pos hx]
      exact .rest hx ks

/-- the taker is still there, with what follows it -/
theorem suffix_of_taker? (h : taker? k xs = some (x, ys)) : x :: ys <:+ xs := by
  induction xs with
  | nil => cases h
  | cons y xs ih =>
    unfold taker? at h
    split at h
    · split at h
      · exact (ih h).trans (List.suffix_cons y xs)
      · cases h
        exact List.suffix_refl _
    · split at h
      · cases h
        exact List.suffix_refl _
      · exact (ih h).trans (List.suffix_cons y xs)

/-- a scalar takes the segments under its name only -/
theorem name_of_taker? (h : taker? k xs = some (x, ys)) (hx : x.isExploded = false) :
    x.name = k := by
  induction xs with
  | nil => cases h
  | cons y xs ih =>
    unfold taker? at h
    split at h
    · next hy =>
      split at h
      · exact ih h
      · cases h
        rw [hx] at hy
        cases hy
    · split at h
      · next hname =>
        cases h
        exact hname
      · exact ih h

/-- a key passes over scalar variables with other names -/
theorem taker?_append_cons (hys : ∀ y ∈ ys, y.isExploded = false ∧ y.name ≠ x.name)
    (hx : x.isExploded = false) : taker? x.name (ys ++ x :: xs) = some (x, xs) := by
  induction ys with
  | nil =>
    rw [List.nil_append, taker?, if_neg (by simp [hx]), if_pos rfl]
  | cons y ys ih =>
    obtain ⟨⟨hy, hname⟩, hys⟩ := List.forall_mem_cons.1 hys
    rw [List.cons_append, taker?, if_neg (by simp [hy]), if_neg hname]
    exact ih hys

/-! ### by name: the walk -/

theorem decodes_valueText (h : Decodes s) : Decodes (valueText s) := by
  unfold valueText
  have happ := List.takeWhile_append_dropWhile (p := (· ≠ '=')) (l := s)
  cases hd : s.dropWhile (· ≠ '=') with
  | nil => exact decodes_nil
  | cons c t =>
    rw [hd] at happ
    have hc : c = '=' := by
      have hhead := List.head?_dropWhile_not (· ≠ '=') s
      rw [hd] at hhead
      simpa using hhead
    subst hc
    rw [← happ] at h
    exact ((decodes_append_cons (by decide) _ _).1 h).2

namespace Assignment
variable {a : Assignment}

/-- the walk behind a segment that a scalar variable took -/
def scalarTaken (a : Assignment) (x : Variable) (xs : List Variable) (s : Text) : Assignment :=
  { a with
    remaining := xs
    scalars := a.scalars.insert x.name (valueText s)
    last := some (x, xs.isEmpty) }

/-- the walk behind a segment that an exploded variable took, which may take more -/
def itemTaken (a : Assignment) (x : Variable) (xs : List Variable) (s : Text) : Assignment :=
  { a with
    remaining := x :: xs
    lists := a.lists.insert x.name ((a.lists.find? x.name).getD [] ++ [s])
    last := some (x, xs.isEmpty) }

theorem takeSegment_of_taker (h : taker? (key s) a.remaining = some (x, xs)) (sep : Char) :
    a.takeSegment sep s =
      some (if x.isExploded then a.itemTaken x xs s else a.scalarTaken x xs s) := by
  unfold takeSegment
  rw [h]
  dsimp only
  split
  · rfl
  · rfl

/-- the walk behind a segment that went to the raw text of the last variable -/
def overflown (a : Assignment) (sep : Char) (x : Variable) (raw s : Text) : Assignment :=
  { a with
    remaining := []
    scalars := a.scalars.insert x.name (raw ++ sep :: s) }

/-- what a step can do: a segment has a taker, or it goes to the last variable -/
theorem takeSegment_cases {a' : Assignment} (h : a.takeSegment sep s = some a') :
    (∃ x ys, taker? (key s) a.remaining = some (x, ys) ∧
      a' = if x.isExploded then a.itemTaken x ys s else a.scalarTaken x ys s) ∨
    ∃ x raw, a.last = some (x, true) ∧ x.isExploded = false ∧
      a.scalars.find? x.name = some raw ∧ a' = a.overflown sep x raw s := by
  cases htaker : taker? (key s) a.remaining with
  | some p =>
    obtain ⟨x, ys⟩ := p
    rw [takeSegment_of_taker htaker] at h
    cases h
    exact .inl ⟨x, ys, rfl, rfl⟩
  | none =>
    unfold takeSegment overflow? at h
    rw [htaker] at h
    dsimp only at h
    split at h
    · next x hlast =>
      split at h
      · cases h
      · next hx =>
        obtain ⟨raw, hraw, h⟩ := Option.bind_eq_some_iff.1 h
        cases h
        exact .inr ⟨x, raw, hlast, by simpa using hx, hraw, rfl⟩
    · cases h

theorem remaining_taken (a : Assignment) (x : Variable) (xs : List Variable) (s : Text) :
    (if x.isExploded then a.itemTaken x xs s else a.scalarTaken x xs s).remaining =
      remainingAfter x xs := by
  unfold remainingAfter
  split
  · rfl
  · rfl

theorem last_taken (a : Assignment) (x : Variable) (xs : List Variable) (s : Text) :
    (if x.isExploded then a.itemTaken x xs s else a.scalarTaken x xs s).last =
      some (x, xs.isEmpty) := by
  split
  · rfl
  · rfl

/-- a step only ever shortens the list of variables that are left -/
theorem remaining_suffix {a' : Assignment} (h : a.takeSegment sep s = some a') :
    a'.remaining <:+ a.remaining := by
  rcases takeSegment_cases h with ⟨x, ys, htaker, rfl⟩ | ⟨x, raw, -, -, -, rfl⟩
  · rw [remaining_taken]
    exact (remainingAfter_suffix x ys).trans (suffix_of_taker? htaker)
  · exact List.nil_suffix

/-- what has been handed out can be decoded -/
structure Readable (a : Assignment) : Prop where
  scalars : ∀ name raw, a.scalars.find? name = some raw → Decodes raw
  lists : ∀ name ss, a.lists.find? name = some ss → ∀ s ∈ ss, Decodes s

theorem readable_start (xs : List Variable) : (start xs).Readable :=
  ⟨fun _ _ h => (by cases h), fun _ _ h => (by cases h)⟩

/-- what is left to hand out finds takers, and everything can be decoded -/
structure Ready (segments : List Text) (a : Assignment) : Prop where
  fits : Fits a.remaining (segments.map key)
  segments : ∀ s ∈ segments, Decodes s
  readable : a.Readable

theorem Readable.scalarTaken (h : a.Readable) (hs : Decodes s) (x : Variable)
    (xs : List Variable) : (a.scalarTaken x xs s).Readable :=
  ⟨fun _ _ => Table.of_find?_insert h.scalars (decodes_valueText hs), h.lists⟩

theorem Readable.itemTaken (h : a.Readable) (hs : Decodes s) (x : Variable)
    (xs : List Variable) : (a.itemTaken x xs s).Readable := by
  have hitems : ∀ t ∈ (a.lists.find? x.name).getD [] ++ [s], Decodes t := by
    intro t ht
    rcases List.mem_append.1 ht with ht | ht
    · cases hold : a.lists.find? x.name with
      | none =>
        rw [hold] at ht
        cases ht
      | some old =>
        rw [hold] at ht
        exact h.lists _ _ hold t ht
    · rw [List.mem_singleton.1 ht]
      exact hs
  exact ⟨h.scalars, fun _ _ => Table.of_find?_insert h.lists hitems⟩

theorem Readable.taken (h : a.Readable) (hs : Decodes s) (x : Variable) (xs : List Variable) :
    (if x.isExploded then a.itemTaken x xs s else a.scalarTaken x xs s).Readable := by
  split
  · exact h.itemTaken hs x xs
  · exact h.scalarTaken hs x xs

theorem Readable.takeSegment {a' : Assignment} (h : a.Readable) (hsep : standsAlone sep = true)
    (hs : Decodes s) (ha : a.takeSegment sep s = some a') : a'.Readable := by
  rcases takeSegment_cases ha with ⟨x, ys, -, rfl⟩ | ⟨x, raw, -, -, hraw, rfl⟩
  · exact h.taken hs x ys
  · have htext := (decodes_append_cons hsep raw s).2 ⟨h.scalars _ _ hraw, hs⟩
    exact ⟨fun _ _ => Table.of_find?_insert h.scalars htext, h.lists⟩

theorem Ready.takeSegment (h : Ready (s :: ss) a) (sep : Char) :
    ∃ a', a.takeSegment sep s = some a' ∧ Ready ss a' := by
  obtain ⟨hs, hss⟩ := List.forall_mem_cons.1 h.segments
  obtain ⟨x, xs, htaker, hfits⟩ := h.fits.taker?
  refine ⟨_, takeSegment_of_taker htaker sep, ?_, hss, h.readable.taken hs x xs⟩
  rwa [remaining_taken]

theorem Readable.value? (ha : a.Readable) (x : Variable) : ∃ vs, a.value? x = some vs := by
  unfold Assignment.value?
  split
  · next raw _ hraw =>
    obtain ⟨v, hv⟩ := exists_recover? x.modifier (ha.scalars _ _ hraw)
    rw [hv]
    exact ⟨_, rfl⟩
  · next ss _ hss =>
    obtain ⟨v, hv⟩ := exists_recoverItems? (ha.lists _ _ hss)
    rw [hv]
    exact ⟨_, rfl⟩
  · exact ⟨_, rfl⟩

end Assignment

theorem exists_assignByName (h : Fits xs (ss.map key)) (hs : ∀ s ∈ ss, Decodes s) :
    ∃ vs, assignByName sep xs ss = some vs := by
  have hstart : Assignment.Ready ss (.start xs) := ⟨h, hs, Assignment.readable_start xs⟩
  obtain ⟨a, ha, hend⟩ := exists_foldlM (fun _ _ _ h => h.takeSegment sep) hstart
  obtain ⟨vs, hvs⟩ := exists_mapM fun x (_ : x ∈ xs) => hend.readable.value? x
  refine ⟨vs.flatten, ?_⟩
  unfold assignByName
  rw [ha]
  simp only [Option.bind_eq_bind, Option.bind_some, hvs]
  rfl

/-! ### by name: scalars with different names -/

theorem walk_scalars {f : Variable → Option Text} {a : Assignment} (sep : Char)
    (hremaining : a.remaining = ys ++ xs)
    (hys : ∀ y ∈ ys, y.isExploded = false ∧ ∀ x ∈ xs, y.name ≠ x.name)
    (hxs : ∀ x ∈ xs, x.isExploded = false) (hnodup : (xs.map Variable.name).Nodup)
    (hkey : ∀ x ∈ xs, ∀ s, f x = some s → key s = x.name)
    (hnew : ∀ x ∈ xs, a.scalars.find? x.name = none) :
    ∃ a', (xs.filterMap f).foldlM (fun a s => a.takeSegment sep s) a = some a' ∧
      a'.lists = a.lists ∧ (∀ x ∈ xs, a'.scalars.find? x.name = (f x).map valueText) ∧
      ∀ name, name ∉ xs.map Variable.name → a'.scalars.find? name = a.scalars.find? name := by
  induction xs generalizing a ys with
  | nil => exact ⟨a, rfl, rfl, fun x hx => (by cases hx), fun _ _ => rfl⟩
  | cons x xs ih =>
    obtain ⟨hx, hxs⟩ := List.forall_mem_cons.1 hxs
    rw [List.map_cons, List.nodup_cons] at hnodup
    obtain ⟨hfresh, hnodup⟩ := hnodup
    have hne : ∀ y ∈ xs, y.name ≠ x.name := fun y hy heq =>
      hfresh (List.mem_map.2 ⟨y, hy, heq⟩)
    have hkey' : ∀ y ∈ xs, ∀ s, f y = some s → key s = y.name :=
      fun y hy => hkey y (List.mem_cons_of_mem _ hy)
    cases hf : f x with
    | none =>
      -- no segment of its own: the segments behind pass it over
      have hskip : ∀ y ∈ ys ++ [x], y.isExploded = false ∧ ∀ z ∈ xs, y.name ≠ z.name := by
        intro y hy
        rcases List.mem_append.1 hy with hy | hy
        · exact ⟨(hys y hy).1, fun z hz => (hys y hy).2 z (List.mem_cons_of_mem _ hz)⟩
        · obtain rfl := List.mem_singleton.1 hy
          exact ⟨hx, fun z hz heq => hne z hz heq.symm⟩
      obtain ⟨a', ha', hlists, hvalues, hframe⟩ := ih
        (by rw [hremaining, List.append_assoc, List.singleton_append]) hskip hxs hnodup hkey'
        fun y hy => hnew y (List.mem_cons_of_mem _ hy)
      refine ⟨a', by rw [List.filterMap_cons_none hf]; exact ha', hlists, ?_, ?_⟩
      · refine List.forall_mem_cons.2 ⟨?_, hvalues⟩
        rw [hframe x.name hfresh, hnew x List.mem_cons_self, hf]
        rfl
      · intro name hname
        exact hframe name fun hm => hname (List.mem_cons_of_mem _ hm)
    | some s =>
      have htaker : taker? (key s) a.remaining = some (x, xs) := by
        rw [hremaining, hkey x List.mem_cons_self s hf]
        exact taker?_append_cons (fun y hy => ⟨(hys y hy).1, (hys y hy).2 x List.mem_cons_self⟩) hx
      have hother : ∀ name, name ≠ x.name →
          (a.scalarTaken x xs s).scalars.find? name = a.scalars.find? name :=
        fun name hname => Table.find?_insert_of_ne hname
      have hown : (a.scalarTaken x xs s).scalars.find? x.name = some (valueText s) :=
        Table.find?_insert_self
      obtain ⟨a', ha', hlists, hvalues, hframe⟩ := ih (a := a.scalarTaken x xs s)
        (List.nil_append xs).symm (fun y hy => by cases hy) hxs hnodup hkey' fun y hy => by
          rw [hother _ (hne y hy)]
          exact hnew y (List.mem_cons_of_mem _ hy)
      refine ⟨a', ?_, hlists, ?_, ?_⟩
      · rw [List.filterMap_cons_some hf, List.foldlM_cons,
          Assignment.takeSegment_of_taker htaker, if_neg (by simp [hx])]
        exact ha'
      · refine List.forall_mem_cons.2 ⟨?_, hvalues⟩
        rw [hframe x.name hfresh, hown, hf]
        rfl
      · intro name hname
        rw [List.map_cons, List.mem_cons, not_or] at hname
        rw [hframe name hname.2, hother name hname.1]

/-- Scalar variables with different names each get the segment with their name, in any subset. -/
theorem assignByName_scalars {f : Variable → Option (Text × Recovered)} (sep : Char)
    (hxs : ∀ x ∈ xs, x.isExploded = false) (hnodup : (xs.map Variable.name).Nodup)
    (hf : ∀ x ∈ xs, ∀ p, f x = some p →
      key p.1 = x.name ∧ x.modifier.recover? (valueText p.1) = some p.2) :
    assignByName sep xs (xs.filterMap fun x => (f x).map Prod.fst)
      = some (xs.filterMap fun x => (f x).map fun p => (x.name, p.2)) := by
  have hkey : ∀ x ∈ xs, ∀ s, (f x).map Prod.fst = some s → key s = x.name := by
    intro x hx s hs
    obtain ⟨p, hp, rfl⟩ := Option.map_eq_some_iff.1 hs
    exact (hf x hx p hp).1
  obtain ⟨a, ha, hlists, hvalues, -⟩ := walk_scalars sep (a := .start xs)
    (List.nil_append xs).symm (fun y hy => (by cases hy)) hxs hnodup hkey fun _ _ => rfl
  have hvalue : ∀ x ∈ xs, a.value? x = some ((f x).map fun p => (x.name, p.2)).toList := by
    intro x hx
    unfold Assignment.value?
    rw [hvalues x hx, hlists]
    cases hfx : f x with
    | none => rfl
    | some p =>
      simp only [Option.map_some, (hf x hx p hfx).2]
      rfl
  unfold assignByName
  rw [ha]
  simp only [Option.bind_eq_bind, Option.bind_some, mapM_eq_some_map hvalue]
  exact congrArg some (flatten_map_toList _ _)

end

/-! ### whole spans -/

/-- variables are bound in declared order -/
theorem names_of_assignInOrder {sep : Char} {xs : List Variable} {ss : List Text}
    {vs : List (Text × Recovered)} (h : assignInOrder sep xs ss = some vs) :
    (vs.map Prod.fst).Sublist (xs.map Variable.name) := by
  induction xs generalizing ss vs with
  | nil =>
    rw [assignInOrder_nil] at h
    cases h
    exact List.nil_sublist _
  | cons x xs ih =>
    cases ss with
    | nil =>
      rw [assignInOrder_no_segments] at h
      cases h
      exact List.nil_sublist _
    | cons s ss =>
      obtain ⟨v, vs', -, hvs', rfl⟩ := assignInOrder_cons h
      exact (ih hvs').cons_cons x.name

/-- what a variable has got: nothing, the text of a scalar of its name, or the items of an exploded
variable of its name -/
theorem value?_cases {a : Assignment} {x : Variable} {vs : List (Text × Recovered)}
    (h : a.value? x = some vs) :
    vs = [] ∨
    (∃ raw t, a.scalars.find? x.name = some raw ∧ decode? raw = some t ∧
      vs = [(x.name, .text (x.modifier.cut t))]) ∨
    ∃ ss ts, a.lists.find? x.name = some ss ∧ vs = [(x.name, .items ts)] := by
  unfold Assignment.value? at h
  split at h
  · next raw hraw =>
    simp only [Modifier.recover?, Option.bind_eq_bind, Option.bind_eq_some_iff, Option.pure_def,
      Option.some.injEq] at h
    obtain ⟨v, ⟨t, ht, rfl⟩, rfl⟩ := h
    exact .inr (.inl ⟨raw, t, hraw, ht, rfl⟩)
  · next ss _ hss =>
    obtain ⟨v, hv, h⟩ := Option.bind_eq_some_iff.1 h
    cases h
    unfold recoverItems? at hv
    split at hv
    · cases hv
      exact .inr (.inr ⟨ss, [], hss, rfl⟩)
    · obtain ⟨ts, -, hv⟩ := Option.bind_eq_some_iff.1 hv
      cases hv
      exact .inr (.inr ⟨ss, ts, hss, rfl⟩)
  · cases h
    exact .inl rfl

theorem assignByName_eq_some {sep : Char} {xs : List Variable} {ss : List Text}
    {vs : List (Text × Recovered)} (h : assignByName sep xs ss = some vs) :
    ∃ (a : Assignment) (vss : List (List (Text × Recovered))),
      ss.foldlM (fun a s => a.takeSegment sep s) (Assignment.start xs) = some a ∧
        xs.mapM a.value? = some vss ∧ vs = vss.flatten := by
  simp only [assignByName, Option.bind_eq_bind, Option.bind_eq_some_iff, Option.pure_def,
    Option.some.injEq] at h
  obtain ⟨a, ha, vss, hvss, rfl⟩ := h
  exact ⟨a, vss, ha, hvss, rfl⟩

/-- variables are bound in declared order -/
theorem names_of_assignByName {sep : Char} {xs : List Variable} {ss : List Text}
    {vs : List (Text × Recovered)} (h : assignByName sep xs ss = some vs) :
    (vs.map Prod.fst).Sublist (xs.map Variable.name) := by
  obtain ⟨a, vss, -, hvss, rfl⟩ := assignByName_eq_some h
  have hall := mapM_eq_some_iff.1 hvss
  clear h hvss
  induction hall with
  | nil => exact List.nil_sublist _
  | cons hx _ ih =>
    rw [List.flatten_cons, List.map_append]
    obtain rfl | ⟨_, _, -, -, rfl⟩ | ⟨_, _, -, rfl⟩ := value?_cases hx
    · exact ih.trans (List.sublist_cons_self _ _)
    · exact ih.cons_cons _
    · exact ih.cons_cons _

namespace Expression
variable {e : Expression}

theorem split?_of_named (he : e.operator.row.named = true) (span : Text) :
    e.split? span =
      (assignByName e.operator.row.sep e.vars (e.operator.row.segments span)).map
        Table.ofList := by
  unfold split?
  dsimp only
  rw [if_pos he]

theorem split?_of_unnamed (he : e.operator.row.named = false) (span : Text) :
    e.split? span =
      (assignInOrder e.operator.row.sep e.vars (span.splitOn e.operator.row.sep)).map
        Table.ofList := by
  unfold split? Operator.Row.segments
  dsimp only
  rw [he]
  rfl

/-- the entries that the values of a span are made of -/
theorem split?_eq_some {span : Text} {values : Params} (h : e.split? span = some values) :
    ∃ vs, values = Table.ofList vs ∧
      (assignByName e.operator.row.sep e.vars (e.operator.row.segments span) = some vs ∨
        assignInOrder e.operator.row.sep e.vars (span.splitOn e.operator.row.sep) = some vs) := by
  cases he : e.operator.row.named with
  | true =>
    rw [split?_of_named he] at h
    obtain ⟨vs, hvs, rfl⟩ := Option.map_eq_some_iff.1 h
    exact ⟨vs, rfl, .inl hvs⟩
  | false =>
    rw [split?_of_unnamed he] at h
    obtain ⟨vs, hvs, rfl⟩ := Option.map_eq_some_iff.1 h
    exact ⟨vs, rfl, .inr hvs⟩

/-- an expression gives values to its own variables only, in declared order -/
theorem keys_split?_sublist {span : Text} {values : Params} (h : e.split? span = some values) :
    values.keys.Sublist (e.vars.map Variable.name) := by
  obtain ⟨vs, rfl, hvs⟩ := split?_eq_some h
  have hnames : (vs.map Prod.fst).Sublist (e.vars.map Variable.name) :=
    hvs.elim names_of_assignByName names_of_assignInOrder
  exact (Table.keys_ofList_sublist vs).trans hnames

theorem find?_split?_of_not_mem {span name : Text} {values : Params}
    (h : e.split? span = some values) (hname : name ∉ e.vars.map Variable.name) :
    values.find? name = none :=
  Table.find?_eq_none fun hm => hname ((keys_split?_sublist h).subset hm)

end Expression

end UriTemplate
