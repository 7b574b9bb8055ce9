import UriTemplate.Proofs.Resource.Session

/-!
# What the slots hold

Every slot has a resource of its own, so what a resource has for its template was given to it through
its slot. It can be told from the steps without a look at the state.

* `Session.lastGiven`   the text that a list of steps gave the resource in a slot last;
* `Session.Apart`       no two slots refer to one resource. Every step keeps this (`Apart.step`);
* `Session.held_after`  the text that the resource in a slot has is the one that it was given last.
-/

namespace UriTemplate

theorem Resource.uriTemplate_parsed (r : Resource) : r.parsed.2.uriTemplate = r.uriTemplate :=
  uriTemplate_eq_of_get (get_parsed r)

namespace Session

section
variable {ε α : Type} {s : Session ε α} {slot : Text} {ref : Ref} {r : Resource}

/-! ### what the steps give -/

/-- The text that the resource in a slot has for its template behind a step, told from the one
before it. -/
def Step.given (slot : Text) (last : Option (Option Text)) : Step ε α → Option (Option Text)
  | .new other data =>
    if other = slot then
      match Resource.ofWire data with
      | .ok r => some r.uriTemplate
      | .error _ => last
    else last
  | .set other .uriTemplate v => if other = slot then last.map fun _ => v else last
  | _ => last

/-- what a list of steps gave the resource in a slot last -/
def lastGiven (slot : Text) (steps : List (Step ε α)) : Option (Option Text) :=
  steps.foldl (fun last st => st.given slot last) none

/-- what the resource in a slot has for its template -/
def held (s : Session ε α) (slot : Text) : Option (Option Text) :=
  (s.slots.find? slot).map s.patternOf

/-! ### slots of their own -/

/-- The slots refer to resources of their own. -/
structure Apart (s : Session ε α) : Prop where
  below : ∀ slot ref, s.slots.find? slot = some ref → ref < s.resources.length
  distinct : ∀ slot slot' ref, s.slots.find? slot = some ref → s.slots.find? slot' = some ref →
    slot = slot'

theorem apart_empty : (empty : Session ε α).Apart := ⟨nofun, nofun⟩

/-- A new resource has a number that no slot refers to. -/
theorem Apart.create (h : s.Apart) (slot : Text) (r : Resource) : (s.create slot r).Apart := by
  have hfind : ∀ slot' ref, (s.create slot r).slots.find? slot' = some ref →
      (slot' = slot ∧ ref = s.resources.length) ∨ s.slots.find? slot' = some ref := by
    intro slot' ref hslot'
    by_cases heq : slot' = slot
    · subst heq
      rw [Session.create, Table.find?_insert_self] at hslot'
      exact .inl ⟨rfl, (Option.some.inj hslot').symm⟩
    · rw [Session.create, Table.find?_insert_of_ne heq] at hslot'
      exact .inr hslot'
  constructor
  · intro slot' ref hslot'
    show ref < (s.resources ++ [r]).length
    rw [List.length_append]
    obtain ⟨-, rfl⟩ | hslot' := hfind slot' ref hslot'
    · exact Nat.lt_succ_self _
    · exact Nat.lt_add_right _ (h.below slot' ref hslot')
  · intro slot₁ slot₂ ref h₁ h₂
    rcases hfind slot₁ ref h₁ with ⟨heq₁, hnew⟩ | hold₁ <;>
      rcases hfind slot₂ ref h₂ with ⟨heq₂, hnew'⟩ | hold₂
    · rw [heq₁, heq₂]
    · exact absurd hnew (Nat.ne_of_lt (h.below slot₂ ref hold₂))
    · exact absurd hnew' (Nat.ne_of_lt (h.below slot₁ ref hold₁))
    · exact h.distinct slot₁ slot₂ ref hold₁ hold₂

theorem Apart.set_resource (h : s.Apart) (ref : Ref) (r : Resource) :
    ({ s with resources := s.resources.set ref r } : Session ε α).Apart where
  below slot' ref' hslot' := by
    show ref' < (s.resources.set ref r).length
    rw [List.length_set]
    exact h.below slot' ref' hslot'
  distinct := h.distinct

theorem Apart.onSlot (h : s.Apart) (f : Resource → Except ResourceError (Answer α) × Resource) :
    (s.onSlot slot f).state.Apart := by
  cases hr : s.fetch? slot with
  | none =>
    rw [Session.onSlot, hr]
    exact h
  | some p =>
    rw [onSlot_of_fetch? hr]
    exact h.set_resource p.1 (f p.2).2

theorem Apart.step (h : s.Apart) (st : Step ε α) : (s.step st).state.Apart := by
  cases st with
  | new slot data =>
    unfold Session.step
    dsimp only
    cases Resource.ofWire data with
    | ok r => exact h.create slot r
    | error es => exact h
  | wire slot => exact h.onSlot _
  | parsed slot => exact h.onSlot _
  | set slot field v => exact h.onSlot _
  | expand slot b => exact h.onSlot _
  | recover slot uri => exact h.onSlot _
  | add slot handler =>
    unfold Session.step
    dsimp only
    split
    · exact h
    · exact ⟨h.below, h.distinct⟩
  | remove pattern => exact ⟨h.below, h.distinct⟩
  | clear => exact ⟨h.below, h.distinct⟩
  | resolve uri => exact ⟨h.below, h.distinct⟩
  | read uri => exact ⟨h.below, h.distinct⟩

/-! ### what the resources have -/

theorem find?_of_fetch? (h : s.fetch? slot = some (ref, r)) : s.slots.find? slot = some ref := by
  obtain ⟨_, hslot, heq⟩ := Option.bind_eq_some_iff.1 h
  obtain ⟨_, -, heq⟩ := Option.bind_eq_some_iff.1 heq
  cases heq
  exact hslot

theorem Apart.find?_eq_none (h : s.Apart) (hslot : s.fetch? slot = none) :
    s.slots.find? slot = none := by
  refine Option.eq_none_iff_forall_ne_some.2 fun ref href => ?_
  obtain ⟨r, hr⟩ : ∃ r, s.resources[ref]? = some r :=
    ⟨_, List.getElem?_eq_getElem (h.below slot ref href)⟩
  rw [fetch?, href] at hslot
  simp only [Option.bind_eq_bind, Option.bind_some, hr] at hslot
  cases hslot

theorem held_of_fetch? (h : s.fetch? slot = some (ref, r)) : s.held slot = some r.uriTemplate := by
  rw [held, find?_of_fetch? h, Option.map_some, patternOf_of_getElem? (getElem?_of_fetch? h)]

theorem Apart.held_create (h : s.Apart) (other : Text) (r : Resource) :
    (s.create other r).held slot = if other = slot then some r.uriTemplate else s.held slot := by
  unfold held Session.create
  dsimp only
  split
  · next heq =>
    subst heq
    rw [Table.find?_insert_self, Option.map_some]
    exact congrArg some (patternOf_of_getElem? List.getElem?_concat_length)
  · next hne =>
    rw [Table.find?_insert_of_ne (Ne.symm hne)]
    refine Option.map_congr fun ref href => ?_
    exact congrArg (Option.bind · Resource.uriTemplate)
      (List.getElem?_append_left (h.below slot ref href))

theorem held_onSlot {other : Text} {f : Resource → Except ResourceError (Answer α) × Resource}
    (hf : ∀ r, (f r).2.uriTemplate = r.uriTemplate) :
    (s.onSlot other f).state.held slot = s.held slot := by
  cases hr : s.fetch? other with
  | none => rw [Session.onSlot, hr]
  | some p =>
    rw [onSlot_of_fetch? hr]
    refine Option.map_congr fun ref _ => ?_
    exact patternOf_set (getElem?_of_fetch? hr) (hf p.2) ref

/-- The assigned text is what the resource has from then on, and no resource in another slot has it
from that. -/
theorem Apart.held_set (h : s.Apart) (other : Text) (v : Option Text) :
    (s.step (.set other .uriTemplate v)).state.held slot =
      if other = slot then (s.held slot).map fun _ => v else s.held slot := by
  rw [Session.step]
  cases hr : s.fetch? other with
  | none =>
    rw [Session.onSlot, hr]
    dsimp only
    split
    · next heq =>
      subst heq
      rw [held, h.find?_eq_none hr]
      rfl
    · rfl
  | some p =>
    obtain ⟨ref, r⟩ := p
    obtain ⟨hlt, -⟩ := List.getElem?_eq_some_iff.1 (getElem?_of_fetch? hr)
    rw [onSlot_of_fetch? hr]
    split
    · next heq =>
      subst heq
      rw [held_of_fetch? hr, held, find?_of_fetch? hr, Option.map_some, Option.map_some]
      have hset := patternOf_of_getElem? (s := { s with
        resources := s.resources.set ref (r.set .uriTemplate v) }) (List.getElem?_set_self hlt)
      exact congrArg some (hset.trans (Resource.get_set_self r .uriTemplate v))
    · next hne =>
      refine Option.map_congr fun ref' href' => ?_
      have hne' : ref ≠ ref' := by
        rintro rfl
        exact hne (h.distinct _ _ _ (find?_of_fetch? hr) href')
      exact congrArg (Option.bind · Resource.uriTemplate) (List.getElem?_set_ne hne')

theorem Apart.held_step (h : s.Apart) (st : Step ε α) :
    (s.step st).state.held slot = st.given slot (s.held slot) := by
  cases st with
  | new other data =>
    rw [Session.step, Step.given]
    cases Resource.ofWire data with
    | ok r => exact h.held_create other r
    | error es => exact (ite_self _).symm
  | wire other => exact held_onSlot fun _ => rfl
  | parsed other => exact held_onSlot Resource.uriTemplate_parsed
  | set other field v =>
    cases field with
    | uriTemplate => exact h.held_set other v
    | _ => exact held_onSlot fun _ => rfl
  | expand other b => exact held_onSlot Resource.uriTemplate_parsed
  | recover other uri => exact held_onSlot Resource.uriTemplate_parsed
  | add other handler =>
    unfold Session.step
    dsimp only
    split <;> rfl
  | remove pattern => rfl
  | clear => rfl
  | resolve uri => rfl
  | read uri => rfl

theorem Apart.held_after (h : s.Apart) (steps : List (Step ε α)) :
    (after s steps).held slot = steps.foldl (fun last st => st.given slot last) (s.held slot) := by
  induction steps generalizing s with
  | nil => rfl
  | cons st steps ih =>
    rw [List.foldl_cons, ← h.held_step st]
    exact ih (h.step st)

/-- What the resource in a slot has for its template is what it was given last. -/
theorem held_after (steps : List (Step ε α)) :
    (after empty steps).held slot = lastGiven slot steps :=
  apart_empty.held_after steps

end
end Session
end UriTemplate
