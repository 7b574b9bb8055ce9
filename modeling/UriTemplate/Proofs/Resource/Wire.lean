import UriTemplate.Proofs.Record
import UriTemplate.Proofs.Table
import UriTemplate.Resource.Wire

/-!
# Reading and writing resources agree

What a map holds for a field is told without the reader: the value that stands under the wire name,
else the one under the own name, and what a value of that field may be.

* `Field.Given`            the key and the value of a field in a map;
* `Field.Gets`, `Fails`    what a field may be, and how it may fail: a field is read as the one or
                           fails with the other (`read_eq_ok_iff`, `read_eq_error_iff`);
* `Resource.wireValue`     what is written, as a value to be read again;
* `Resource.ofWire_agrees` what is read, what is refused and what is written.
-/

namespace UriTemplate

/-! ### one field -/

namespace Field

/-- The key that a field is given under, with its value. -/
inductive Given (es : List (Value × Value)) (f : Field) : Text → Value → Prop
  | wire {v : Value} (h : Value.find? es f.wireName = some v) : Given es f f.wireName v
  | own {v : Value} (hwire : Value.find? es f.wireName = none)
      (h : Value.find? es f.ownName = some v) : Given es f f.ownName v

/-- What a field makes of its value. -/
inductive Accepts (f : Field) : Value → Option Text → Prop
  | null (h : f.isRequired = false) : Accepts f .null none
  | text {v : Value} {t : Text} (h : v.Tells t)
      (hparses : f = .uriTemplate → ∃ template, parse t = .ok template) : Accepts f v (some t)

/-- Why a field refuses its value. -/
inductive Refuses (f : Field) : Value → Problem ParseError → Prop
  | notText {v : Value} (h : ∀ t, ¬v.Tells t) (hoctets : v.isOctets = false)
      (hnull : v = .null → f.isRequired = true) : Refuses f v .notText
  | notUtf8 {v : Value} (h : ∀ t, ¬v.Tells t) (hoctets : v.isOctets = true) : Refuses f v .notUtf8
  | malformed {v : Value} {t : Text} {e : ParseError} (h : v.Tells t) (hf : f = .uriTemplate)
      (he : parse t = .error e) : Refuses f v (.rejected e)

/-- What a field gets from the entries of a map. -/
inductive Gets (es : List (Value × Value)) (f : Field) : Option Text → Prop
  | given {key : Text} {v : Value} {x : Option Text} (hv : f.Given es key v) (h : f.Accepts v x) :
      Gets es f x
  | absent (h : ∀ key v, ¬f.Given es key v) (hrequired : f.isRequired = false) : Gets es f none

/-- What is wrong with a field in the entries of a map, and the key that is told for it. -/
inductive Fails (es : List (Value × Value)) (f : Field) : WireError → Prop
  | missing (h : ∀ key v, ¬f.Given es key v) (hrequired : f.isRequired = true) :
      Fails es f ⟨.missing, some f.wireName⟩
  | refused {key : Text} {v : Value} {p : Problem ParseError} (hv : f.Given es key v) (h : f.Refuses v p) :
      Fails es f ⟨p, some key⟩

section
variable {es : List (Value × Value)} {f : Field} {key t : Text} {v : Value} {x : Option Text}

/-! ### looking a field up -/

theorem find?_eq_some_iff : f.declared.find? es = some (key, v) ↔ f.Given es key v := by
  unfold Declaration.find? declared
  dsimp only
  constructor
  · intro h
    cases hwire : Value.find? es f.wireName with
    | some w =>
      rw [hwire] at h
      cases h
      exact .wire hwire
    | none =>
      rw [hwire, Option.map_none, Option.none_or] at h
      obtain ⟨w, hown, heq⟩ := Option.map_eq_some_iff.1 h
      cases heq
      exact .own hwire hown
  · intro h
    cases h with
    | wire h => rw [h, Option.map_some, Option.some_or]
    | own hwire h => rw [hwire, h, Option.map_none, Option.none_or, Option.map_some]

theorem find?_eq_none_iff : f.declared.find? es = none ↔ ∀ key v, ¬f.Given es key v := by
  rw [Option.eq_none_iff_forall_ne_some, Prod.forall]
  exact forall₂_congr fun key v => not_congr find?_eq_some_iff

/-- A field is given one value. -/
theorem Given.eq {key' : Text} {v' : Value} (h : f.Given es key v) (h' : f.Given es key' v') :
    key = key' ∧ v = v' := by
  have heq := (find?_eq_some_iff.2 h).symm.trans (find?_eq_some_iff.2 h')
  exact Prod.mk.inj (Option.some.inj heq)

theorem given_or_absent (es : List (Value × Value)) (f : Field) :
    (∃ key v, f.Given es key v) ∨ ∀ key v, ¬f.Given es key v := by
  by_cases h : ∃ key v, f.Given es key v
  · exact .inl h
  · exact .inr fun key v hv => h ⟨key, v, hv⟩

theorem read_of_given (h : f.Given es key v) :
    f.declared.read es = (f.declared.ofValue v).mapError fun p => ⟨p, some key⟩ := by
  rw [Declaration.read, find?_eq_some_iff.2 h]

theorem read_of_absent (h : ∀ key v, ¬f.Given es key v) :
    f.declared.read es = if f.isRequired then .error ⟨.missing, some f.wireName⟩ else .ok none := by
  rw [Declaration.read, find?_eq_none_iff.2 h]
  rfl

theorem ofValue_null :
    f.declared.ofValue .null = if f.isRequired then .error .notText else .ok none := by
  unfold Declaration.ofValue declared
  cases f.isRequired <;> rfl

/-! ### reading a field -/

theorem demand_eq_ok_iff {ε α : Type} {required : Bool} {e : ε} {a b : α} :
    (if required then .error e else .ok a : Except ε α) = .ok b ↔ required = false ∧ a = b := by
  cases required <;> simp

theorem demand_eq_error_iff {ε α : Type} {required : Bool} {e d : ε} {a : α} :
    (if required then .error e else .ok a : Except ε α) = .error d ↔ required = true ∧ e = d := by
  cases required <;> simp

theorem check_eq_ok_iff {u : Text} : f.check t = .ok u ↔
    t = u ∧ (f = .uriTemplate → ∃ template, parse t = .ok template) := by
  unfold check
  by_cases hf : f = .uriTemplate
  · rw [if_pos hf, map_eq_ok_iff]
    simp [hf, and_comm]
  · rw [if_neg hf]
    simp [hf]

theorem check_eq_error_iff {e : ParseError} : f.check t = .error e ↔
    f = .uriTemplate ∧ parse t = .error e := by
  unfold check
  by_cases hf : f = .uriTemplate
  · rw [if_pos hf, map_eq_error_iff]
    simp [hf]
  · rw [if_neg hf]
    simp [hf]

theorem ofValue_eq_ok_iff : f.declared.ofValue v = .ok x ↔ f.Accepts v x := by
  by_cases hv : v = .null
  · rw [hv, ofValue_null, demand_eq_ok_iff]
    constructor
    · rintro ⟨hrequired, rfl⟩
      exact .null hrequired
    · intro h
      cases h with
      | null hrequired => exact ⟨hrequired, rfl⟩
      | text h => cases h
  · rw [Declaration.ofValue_eq_bind hv]
    simp only [map_eq_ok_iff, bind_eq_ok_iff, mapError_eq_ok_iff, Value.asText_eq_ok_iff]
    constructor
    · rintro ⟨t, ⟨_, h, hcheck⟩, rfl⟩
      obtain ⟨rfl, hparses⟩ := check_eq_ok_iff.1 hcheck
      exact .text h hparses
    · intro h
      cases h with
      | null => exact absurd rfl hv
      | text h hparses => exact ⟨_, ⟨_, h, check_eq_ok_iff.2 ⟨rfl, hparses⟩⟩, rfl⟩

theorem ofValue_eq_error_iff {p : Problem ParseError} :
    f.declared.ofValue v = .error p ↔ f.Refuses v p := by
  by_cases hv : v = .null
  · rw [hv, ofValue_null, demand_eq_error_iff]
    constructor
    · rintro ⟨hrequired, rfl⟩
      exact .notText nofun rfl fun _ => hrequired
    · intro h
      cases h with
      | notText _ _ hnull => exact ⟨hnull rfl, rfl⟩
      | notUtf8 _ hoctets => cases hoctets
      | malformed h => cases h
  · rw [Declaration.ofValue_eq_bind hv]
    simp only [map_eq_error_iff, bind_eq_error_iff, mapError_eq_error_iff, Value.asText_eq_ok_iff,
      Value.asText_eq_error_iff]
    constructor
    · rintro (⟨hnone, ⟨hoctets, rfl⟩ | ⟨hoctets, rfl⟩⟩ | ⟨t, h, e, hcheck, rfl⟩)
      · exact .notUtf8 hnone hoctets
      · exact .notText hnone hoctets fun heq => absurd heq hv
      · obtain ⟨hf, he⟩ := check_eq_error_iff.1 hcheck
        exact .malformed h hf he
    · intro h
      cases h with
      | notText hnone hoctets => exact .inl ⟨hnone, .inr ⟨hoctets, rfl⟩⟩
      | notUtf8 hnone hoctets => exact .inl ⟨hnone, .inl ⟨hoctets, rfl⟩⟩
      | malformed h hf he => exact .inr ⟨_, h, _, check_eq_error_iff.2 ⟨hf, he⟩, rfl⟩

theorem read_eq_ok_iff : f.declared.read es = .ok x ↔ f.Gets es x := by
  obtain ⟨key, v, hv⟩ | habsent := given_or_absent es f
  · rw [read_of_given hv, mapError_eq_ok_iff, ofValue_eq_ok_iff]
    refine ⟨.given hv, fun h => ?_⟩
    cases h with
    | given hv' h =>
      obtain ⟨-, rfl⟩ := hv.eq hv'
      exact h
    | absent habsent => exact absurd hv (habsent _ _)
  · rw [read_of_absent habsent, demand_eq_ok_iff]
    constructor
    · rintro ⟨hrequired, rfl⟩
      exact .absent habsent hrequired
    · intro h
      cases h with
      | given hv => exact absurd hv (habsent _ _)
      | absent _ hrequired => exact ⟨hrequired, rfl⟩

theorem read_eq_error_iff {e : WireError} : f.declared.read es = .error e ↔ f.Fails es e := by
  obtain ⟨key, v, hv⟩ | habsent := given_or_absent es f
  · simp only [read_of_given hv, mapError_eq_error_iff, ofValue_eq_error_iff]
    constructor
    · rintro ⟨p, h, rfl⟩
      exact .refused hv h
    · intro h
      cases h with
      | missing habsent => exact absurd hv (habsent _ _)
      | refused hv' h =>
        obtain ⟨rfl, rfl⟩ := hv.eq hv'
        exact ⟨_, h, rfl⟩
  · rw [read_of_absent habsent, demand_eq_error_iff]
    constructor
    · rintro ⟨hrequired, rfl⟩
      exact .missing habsent hrequired
    · intro h
      cases h with
      | missing _ hrequired => exact ⟨hrequired, rfl⟩
      | refused hv => exact absurd hv (habsent _ _)

theorem Gets.isRequired_eq_false (h : f.Gets es none) : f.isRequired = false := by
  cases h with
  | given _ h =>
    cases h with
    | null hrequired => exact hrequired
  | absent _ hrequired => exact hrequired

/-- A text that a field gets is the one that its value tells. -/
theorem gets_some_iff : f.Gets es (some t) ↔ ∃ key v, f.Given es key v ∧ f.Accepts v (some t) := by
  constructor
  · intro h
    cases h with
    | given hv h => exact ⟨_, _, hv, h⟩
  · rintro ⟨key, v, hv, h⟩
    exact .given hv h

theorem Gets.eq_some_iff (h : f.Gets es x) :
    x = some t ↔ ∃ key v, f.Given es key v ∧ v.Tells t := by
  constructor
  · rintro rfl
    obtain ⟨key, v, hv, h⟩ := gets_some_iff.1 h
    cases h with
    | text h => exact ⟨key, v, hv, h⟩
  · rintro ⟨key, v, hv, ht⟩
    cases h with
    | absent habsent => exact absurd hv (habsent _ _)
    | given hv' h =>
      obtain ⟨-, rfl⟩ := hv.eq hv'
      cases h with
      | null => cases ht
      | text h => rw [h.eq ht]

end

/-! ### the fields in their order -/

theorem mem_all (f : Field) : f ∈ all := by
  cases f <;> decide

theorem nodup_wireNames : (all.map wireName).Nodup := by decide

/-- No name of a field is the wire name of another one. -/
theorem eq_of_wireName {f g : Field} (h : g.wireName = f.wireName ∨ g.wireName = f.ownName) :
    g = f := by
  cases f <;> cases g <;> first | rfl | exact absurd h (by decide)

end Field

namespace Resource

/-! ### reading a resource -/

section
variable {es : List (Value × Value)} {r : Resource}

theorem ofWire_eq_ok_iff {v : Value} : ofWire v = .ok r ↔
    ∃ es g, v = .map es ∧ r = ofFields g ∧ ∀ f : Field, f.Gets es (g f) := by
  unfold ofWire
  simp only [map_eq_ok_iff, readRecord_eq_ok_iff Field.mem_all, Field.read_eq_ok_iff]
  constructor
  · rintro ⟨g, ⟨es, hv, hg⟩, rfl⟩
    exact ⟨es, g, hv, rfl, hg⟩
  · rintro ⟨es, g, hv, rfl, hg⟩
    exact ⟨g, ⟨es, hv, hg⟩, rfl⟩

theorem ofWire_of_gets {g : Field → Option Text} (h : ∀ f : Field, f.Gets es (g f)) :
    ofWire (.map es) = .ok (ofFields g) :=
  ofWire_eq_ok_iff.2 ⟨es, g, rfl, rfl, h⟩

theorem gets_of_ofWire {v : Value} (h : ofWire v = .ok r) :
    ∃ es, v = .map es ∧ ∀ f : Field, f.Gets es (r.get f) := by
  obtain ⟨es, g, rfl, rfl, hg⟩ := ofWire_eq_ok_iff.1 h
  refine ⟨es, rfl, fun f => ?_⟩
  rw [get_ofFields]
  exact hg f

theorem exists_ofWire_iff {v : Value} :
    (∃ r, ofWire v = .ok r) ↔ ∃ es, v = .map es ∧ ∀ f : Field, ∃ x, f.Gets es x := by
  constructor
  · rintro ⟨r, h⟩
    obtain ⟨es, rfl, hgets⟩ := gets_of_ofWire h
    exact ⟨es, rfl, fun f => ⟨r.get f, hgets f⟩⟩
  · rintro ⟨es, rfl, h⟩
    choose g hg using h
    exact ⟨ofFields g, ofWire_of_gets hg⟩

/-- One error for each field that fails, in the order of the fields. -/
theorem errors_of_ofWire {v : Value} {errors : List WireError} (h : ofWire v = .error errors) :
    (∀ es, v ≠ .map es) ∧ errors = [⟨.notAMap, none⟩] ∨
      ∃ es fs, v = .map es ∧ fs.Sublist Field.all ∧ (∀ f : Field, f ∈ fs ↔ ∃ e, f.Fails es e) ∧
        List.Forall₂ (fun f e => f.Fails es e) fs errors := by
  have herrors := errors_of_readRecord Field.mem_all (map_eq_error_iff.1 h)
  simpa only [Field.read_eq_error_iff] using herrors

/-! ### reading what was written -/

/-- texts under texts as the entries of a map -/
def textEntries (ts : List (Text × Text)) : List (Value × Value) :=
  ts.map fun e => (.text e.1, .text e.2)

/-- what is written of a resource, as a value -/
def wireValue (r : Resource) : Value := .map (textEntries r.toWire)

theorem find?_textEntries (ts : List (Text × Text)) (key : Text) :
    Value.find? (textEntries ts) key = (Table.find? ⟨ts⟩ key).map .text := by
  unfold Value.find? textEntries Table.find?
  rw [List.find?_map, Option.map_map, Option.map_map]
  simp only [Function.comp_def, Value.sameKey]

variable {f : Field} {key t : Text}

theorem mem_toWire : (key, t) ∈ r.toWire ↔ ∃ f : Field, key = f.wireName ∧ r.get f = some t := by
  simp only [toWire, List.mem_filterMap, Option.map_eq_some_iff, Prod.mk.injEq]
  constructor
  · rintro ⟨f, -, t, hf, rfl, rfl⟩
    exact ⟨f, rfl, hf⟩
  · rintro ⟨f, rfl, hf⟩
    exact ⟨f, Field.mem_all f, t, hf, rfl, rfl⟩

theorem keys_toWire_sublist (r : Resource) :
    (r.toWire.map Prod.fst).Sublist (Field.all.map Field.wireName) := by
  unfold toWire
  induction Field.all with
  | nil => exact .slnil
  | cons f fs ih =>
    rw [List.filterMap_cons]
    cases r.get f with
    | none => exact ih.cons _
    | some t => exact ih.cons_cons _

theorem find?_toWire_eq_none (h : r.get f = none) (hkey : key = f.wireName ∨ key = f.ownName) :
    Value.find? (textEntries r.toWire) key = none := by
  have hnew : key ∉ Table.keys ⟨r.toWire⟩ := by
    intro hmem
    obtain ⟨⟨k, t⟩, he, hk⟩ := List.mem_map.1 hmem
    obtain ⟨g, rfl, ht⟩ := mem_toWire.1 he
    cases hk
    rw [Field.eq_of_wireName hkey, h] at ht
    cases ht
  rw [find?_textEntries, Table.find?_eq_none hnew, Option.map_none]

/-- A field that could be read is read again from what is written. -/
theorem gets_toWire (h : f.Gets es (r.get f)) : f.Gets (textEntries r.toWire) (r.get f) := by
  cases hf : r.get f with
  | none =>
    rw [hf] at h
    refine .absent (fun key v hv => ?_) h.isRequired_eq_false
    cases hv with
    | wire hv =>
      rw [find?_toWire_eq_none hf (.inl rfl)] at hv
      cases hv
    | own _ hv =>
      rw [find?_toWire_eq_none hf (.inr rfl)] at hv
      cases hv
  | some t =>
    rw [hf] at h
    obtain ⟨_, _, -, h⟩ := Field.gets_some_iff.1 h
    have hnodup : (Table.keys ⟨r.toWire⟩).Nodup :=
      (keys_toWire_sublist r).nodup Field.nodup_wireNames
    have hfind : Value.find? (textEntries r.toWire) f.wireName = some (.text t) := by
      rw [find?_textEntries, Table.find?_of_mem hnodup (mem_toWire.2 ⟨f, rfl, hf⟩), Option.map_some]
    cases h with
    | text _ hparses => exact .given (.wire hfind) (.text (.text t) hparses)

/-- What is written of a resource that could be read is read again, field by field. -/
theorem ofWire_wireValue (h : ∀ f : Field, f.Gets es (r.get f)) :
    ofWire r.wireValue = .ok (ofFields r.get) :=
  ofWire_of_gets fun f => gets_toWire (h f)

theorem toWire_ofFields_get (r : Resource) : (ofFields r.get).toWire = r.toWire := by
  rw [toWire, toWire]
  refine List.filterMap_congr fun f _ => ?_
  rw [get_ofFields]

/-- What is written is what the fields were given. -/
theorem mem_toWire_iff (h : ∀ f : Field, f.Gets es (r.get f)) : (key, t) ∈ r.toWire ↔
    ∃ (f : Field) (k : Text) (v : Value), key = f.wireName ∧ f.Given es k v ∧ v.Tells t := by
  rw [mem_toWire]
  refine exists_congr fun f => ?_
  rw [(h f).eq_some_iff]
  constructor
  · rintro ⟨rfl, k, v, hv⟩
    exact ⟨k, v, rfl, hv⟩
  · rintro ⟨k, v, rfl, hv⟩
    exact ⟨rfl, k, v, hv⟩

end

/-- A value is read as a resource exactly if it is a map and every field gets something in it; else
the errors are those of the fields that fail, one a field. What is written of the resource is the
texts that the fields were given, under the wire names, and it is read as a resource that is written
in the same way. -/
theorem ofWire_agrees (data : Value) :
    ((∃ r, ofWire data = .ok r) ↔ ∃ es, data = .map es ∧ ∀ f : Field, ∃ x, f.Gets es x) ∧
    (∀ errors, ofWire data = .error errors →
      (∀ es, data ≠ .map es) ∧ errors = [⟨.notAMap, none⟩] ∨
      ∃ es fs, data = .map es ∧ fs.Sublist Field.all ∧
        (∀ f : Field, f ∈ fs ↔ ∃ e, f.Fails es e) ∧
        List.Forall₂ (fun f e => f.Fails es e) fs errors) ∧
    ∀ r, ofWire data = .ok r →
      (∃ r', ofWire r.wireValue = .ok r' ∧ r'.toWire = r.toWire) ∧
      (r.toWire.map Prod.fst).Sublist (Field.all.map Field.wireName) ∧
      ∃ es, data = .map es ∧ ∀ key t, (key, t) ∈ r.toWire ↔
        ∃ (f : Field) (k : Text) (v : Value), key = f.wireName ∧ f.Given es k v ∧ v.Tells t := by
  refine ⟨exists_ofWire_iff, fun errors h => errors_of_ofWire h, fun r h => ?_⟩
  obtain ⟨es, rfl, hgets⟩ := gets_of_ofWire h
  have hagain : ∃ r', ofWire r.wireValue = .ok r' ∧ r'.toWire = r.toWire :=
    ⟨_, ofWire_wireValue hgets, toWire_ofFields_get r⟩
  exact ⟨hagain, keys_toWire_sublist r, es, rfl, fun key t => mem_toWire_iff hgets⟩

/-- Bytes under the own name of the template, a null, and a wrong value under an own name that is not
looked at. -/
theorem ofWire_agrees_mixed :
    let data : Value := .map
      [(.text "uri_template".toList, .bytes [0x61, 0x2F, 0x7B, 0x78, 0x7D]),
        (.text "name".toList, .byteList []), (.text "title".toList, .null),
        (.text "mime_type".toList, .int 3), (.text "mimeType".toList, .text ['t'])]
    ∃ r, ofWire data = .ok r ∧
      r.toWire = [("uriTemplate".toList, ['a', '/', '{', 'x', '}']), ("name".toList, []),
        ("mimeType".toList, ['t'])] ∧
      ∃ r', ofWire r.wireValue = .ok r' ∧ r'.toWire = r.toWire := by
  intro data
  have hdata : ofWire data =
      .ok ⟨some ['a', '/', '{', 'x', '}'], some [], none, none, some ['t'], none⟩ := by
    decide +kernel
  obtain ⟨-, -, hwritten⟩ := ofWire_agrees data
  exact ⟨_, hdata, rfl, (hwritten _ hdata).1⟩

/-- A wrong value under the wire name is not made good by the own name, nor hides another error. -/
example :
    ofWire (.map [(.text "uriTemplate".toList, .int 1), (.text "uri_template".toList, .text ['a']),
      (.text "title".toList, .null), (.text "mimeType".toList, .bytes [0xFF])]) =
        .error [⟨.notText, some "uriTemplate".toList⟩, ⟨.missing, some "name".toList⟩,
          ⟨.notUtf8, some "mimeType".toList⟩] := by
  decide +kernel

end Resource
end UriTemplate
