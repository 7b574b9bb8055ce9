import UriTemplate.Proofs.Lists
import UriTemplate.Proofs.Text.Utf8
import UriTemplate.Record

/-!
# What the rules for records come to

Each rule is told without the function that applies it, for any declarations.

* `Value.Tells`                  a text, or bytes that are the encoding of one;
* `Declaration.ofValue_eq_bind`  a value that is not null is turned into a text, which is checked;
* `readRecord_eq_ok_iff`         a record is read if it is a map in which every field is read;
* `errors_of_readRecord`         else it has one error for each field that is not, in their order.
-/

namespace UriTemplate

/-! ### values -/

namespace Value

/-- a text, or bytes that are the encoding of one -/
inductive Tells : Value → Text → Prop
  | text (t : Text) : Tells (.text t) t
  | bytes {bs : List UInt8} {t : Text} (h : Utf8.encode t = bs) : Tells (.bytes bs) t
  | byteList {bs : List UInt8} {t : Text} (h : Utf8.encode t = bs) : Tells (.byteList bs) t

/-- the kinds of values that are made of bytes -/
def isOctets : Value → Bool
  | bytes _ => true
  | byteList _ => true
  | _ => false

variable {ε : Type} {v : Value} {t u : Text}

theorem elim_decode?_eq_ok_iff {bs : List UInt8} :
    (Utf8.decode? bs).elim (.error .notUtf8) .ok = (.ok t : Except (Problem ε) Text) ↔
      Utf8.encode t = bs := by
  rw [← Utf8.decode?_eq_some_iff]
  cases Utf8.decode? bs <;> simp

theorem asText_eq_ok_iff : v.asText = (.ok t : Except (Problem ε) Text) ↔ v.Tells t := by
  constructor
  · intro h
    cases v with
    | text =>
      cases h
      exact .text t
    | bytes bs => exact .bytes (elim_decode?_eq_ok_iff.1 h)
    | byteList bs => exact .byteList (elim_decode?_eq_ok_iff.1 h)
    | _ => cases h
  · intro h
    cases h with
    | text => rfl
    | bytes h => exact elim_decode?_eq_ok_iff.2 h
    | byteList h => exact elim_decode?_eq_ok_iff.2 h

theorem Tells.eq (h : v.Tells t) (h' : v.Tells u) : t = u := by
  have hu : v.asText = (.ok u : Except (Problem Empty) Text) := asText_eq_ok_iff.2 h'
  exact Except.ok.inj ((asText_eq_ok_iff.2 h).symm.trans hu)

theorem problem_of_asText {p : Problem ε} (h : v.asText = .error p) :
    v.isOctets = true ∧ p = .notUtf8 ∨ v.isOctets = false ∧ p = .notText := by
  have helim (o : Option Text)
      (ho : o.elim (.error .notUtf8) .ok = (.error p : Except (Problem ε) Text)) : p = .notUtf8 := by
    cases o <;> cases ho
    rfl
  cases v with
  | text => cases h
  | bytes bs => exact .inl ⟨rfl, helim _ h⟩
  | byteList bs => exact .inl ⟨rfl, helim _ h⟩
  | _ =>
    cases h
    exact .inr ⟨rfl, rfl⟩

theorem asText_eq_error_iff {p : Problem ε} : v.asText = .error p ↔
    (∀ t, ¬v.Tells t) ∧ (v.isOctets = true ∧ p = .notUtf8 ∨ v.isOctets = false ∧ p = .notText) := by
  constructor
  · intro h
    refine ⟨fun t ht => ?_, problem_of_asText h⟩
    rw [asText_eq_ok_iff.2 ht] at h
    cases h
  · rintro ⟨hnone, hp⟩
    cases h : v.asText with
    | ok t => exact absurd (asText_eq_ok_iff.1 h) (hnone t)
    | error q =>
      have hq := problem_of_asText h
      grind

end Value

namespace Declaration

section
variable {ε : Type} {d : Declaration ε} {es : List (Value × Value)} {v : Value}

/-- A value that is not null is turned into a text, and the text is checked. -/
theorem ofValue_eq_bind (h : v ≠ .null) : d.ofValue v =
    (v.asText.bind fun t => (d.check t).mapError .rejected).map some := by
  have hdo : d.ofValue v = do return some (← (d.check (← v.asText)).mapError .rejected) := by
    cases v with
    | null => exact absurd rfl h
    | _ => rfl
  rw [hdo]
  cases v.asText with
  | error p => rfl
  | ok t =>
    show ((d.check t).mapError Problem.rejected).bind _ = _
    dsimp only [Except.bind]
    cases (d.check t).mapError Problem.rejected <;> rfl

theorem error?_eq_some_iff {e : RecordError ε} : d.error? es = some e ↔ d.read es = .error e := by
  unfold error?
  cases d.read es <;> simp

theorem error?_eq_none_iff : d.error? es = none ↔ ∃ x, d.read es = .ok x := by
  unfold error?
  cases d.read es <;> simp

end

end Declaration

/-! ### all fields -/

section
variable {ε ι : Type} {fields : List ι} {declared : ι → Declaration ε} {v : Value}

theorem readRecord_of_errors {es : List (Value × Value)}
    (h : (fields.filterMap fun f => (declared f).error? es) ≠ []) :
    readRecord fields declared (.map es) =
      .error (fields.filterMap fun f => (declared f).error? es) :=
  if_neg (by rwa [List.isEmpty_iff])

theorem readRecord_eq_ok_iff (hfields : ∀ f, f ∈ fields) {g : ι → Option Text} :
    readRecord fields declared v = .ok g ↔
      ∃ es, v = .map es ∧ ∀ f, (declared f).read es = .ok (g f) := by
  have hread {es : List (Value × Value)} {g : ι → Option Text}
      (hg : ∀ f, (declared f).read es = .ok (g f)) :
      readRecord fields declared (.map es) = .ok g := by
    have hnil : (fields.filterMap fun f => (declared f).error? es) = [] :=
      List.filterMap_eq_nil_iff.2 fun f _ => Declaration.error?_eq_none_iff.2 ⟨g f, hg f⟩
    have htexts : (fun f => ((declared f).read es).toOption.join) = g := by
      funext f
      rw [hg f]
      rfl
    rw [← htexts]
    exact if_pos (List.isEmpty_iff.2 hnil)
  constructor
  · intro h
    cases v with
    | map es =>
      by_cases herrors : (fields.filterMap fun f => (declared f).error? es) = []
      · rw [List.filterMap_eq_nil_iff] at herrors
        choose g' hg' using fun f => Declaration.error?_eq_none_iff.1 (herrors f (hfields f))
        obtain rfl := Except.ok.inj ((hread hg').symm.trans h)
        exact ⟨es, rfl, hg'⟩
      · rw [readRecord_of_errors herrors] at h
        cases h
    | _ => cases h
  · rintro ⟨es, rfl, hg⟩
    exact hread hg

/-- One error for each field that is not read, in the order of the fields. -/
theorem errors_of_readRecord (hfields : ∀ f, f ∈ fields) {errors : List (RecordError ε)}
    (h : readRecord fields declared v = .error errors) :
    (∀ es, v ≠ .map es) ∧ errors = [⟨.notAMap, none⟩] ∨
      ∃ es fs, v = .map es ∧ fs.Sublist fields ∧
        (∀ f, f ∈ fs ↔ ∃ e, (declared f).read es = .error e) ∧
        List.Forall₂ (fun f e => (declared f).read es = .error e) fs errors := by
  cases v with
  | map es =>
    have herrors : errors = fields.filterMap fun f => (declared f).error? es := by
      by_cases hnil : (fields.filterMap fun f => (declared f).error? es) = []
      · have hok : readRecord fields declared (.map es) = .ok _ := if_pos (List.isEmpty_iff.2 hnil)
        rw [hok] at h
        cases h
      · rw [readRecord_of_errors hnil] at h
        exact (Except.error.inj h).symm
    refine .inr ⟨es, fields.filter fun f => ((declared f).error? es).isSome, rfl,
      List.filter_sublist, fun f => ?_, ?_⟩
    · rw [List.mem_filter, and_iff_right (hfields f), Option.isSome_iff_exists]
      exact exists_congr fun e => Declaration.error?_eq_some_iff
    · rw [herrors]
      have hpicked := forall₂_filterMap (fun f => (declared f).error? es) fields
      exact hpicked.imp fun _ _ => Declaration.error?_eq_some_iff.1
  | _ =>
    cases h
    exact .inl ⟨nofun, rfl⟩

end

end UriTemplate
