import Mathlib.Data.List.Nodup

set_option autoImplicit false

/-! # A library of JSON values

What a program that writes JSON uses of its library is a parameter here (`Library`): the null value,
values of strings and numbers, the assignment to a key, and `push_back` to the array under a key.
`find` and `elements` are what a reader of the values uses. `Lawful` has the documented behavior, for
values that were made from null by these operations. An assignment turns null into an object, and
`push_back` makes an array where there is no key.

`find_object` and `pushAll` say what comes out when a program assigns one key after the other, and
when it pushes one value after the other. `values` is a library with these laws.
-/

namespace Json

structure Library (J : Type) where
  null : J
  ofString : String → J
  ofInt : Int → J
  /-- `js[key] = v` -/
  assign : J → String → J → J
  /-- `js[key].push_back(v)` -/
  pushBack : J → String → J → J
  /-- the value of a key -/
  find : J → String → Option J
  /-- the elements of an array; `none` for other values -/
  elements : J → Option (List J)

variable {J : Type} {L : Library J} {js : J} {key : String} {us : List J}
  {fields : List (String × J)}

/-- The array that `push_back` finds under a key. -/
def Library.array (L : Library J) (js : J) (key : String) : Option (List J) :=
  match L.find js key with
  | some v => L.elements v
  | none => some []

/-- Made from null by assignments, and by `push_back` to arrays. -/
inductive Library.Built (L : Library J) : J → Prop
  | null : L.Built L.null
  | assign {js : J} (key : String) (v : J) : L.Built js → L.Built (L.assign js key v)
  | pushBack {js : J} {key : String} {us : List J} (v : J) :
      L.Built js → L.array js key = some us → L.Built (L.pushBack js key v)

structure Library.Lawful (L : Library J) : Prop where
  find_null : ∀ key, L.find L.null key = none
  find_assign : ∀ {js key v}, L.Built js → ∀ key',
    L.find (L.assign js key v) key' = if key' = key then some v else L.find js key'
  find_pushBack : ∀ {js key us v}, L.Built js → L.array js key = some us →
    ∃ a, L.elements a = some (us ++ [v]) ∧
      ∀ key', L.find (L.pushBack js key v) key' = if key' = key then some a else L.find js key'

/-! ## Objects -/

/-- The value that a program makes of null by the assignments, in their order. -/
def Library.object (L : Library J) (fields : List (String × J)) : J :=
  fields.foldl (fun js field => L.assign js field.1 field.2) L.null

theorem foldl_assign (hL : L.Lawful) (hjs : L.Built js) (hnodup : (fields.map Prod.fst).Nodup) :
    (∀ field ∈ fields, L.find (fields.foldl (fun js field => L.assign js field.1 field.2) js) field.1
      = some field.2) ∧
    ∀ key, key ∉ fields.map Prod.fst →
      L.find (fields.foldl (fun js field => L.assign js field.1 field.2) js) key = L.find js key := by
  induction fields generalizing js with
  | nil => exact ⟨fun field hfield => absurd hfield List.not_mem_nil, fun _ _ => rfl⟩
  | cons field fields ih =>
      obtain ⟨hnot, hnodup⟩ := List.nodup_cons.mp hnodup
      obtain ⟨hin, hout⟩ := ih (hjs.assign field.1 field.2) hnodup
      rw [List.foldl_cons]
      constructor
      · intro f hf
        rcases List.mem_cons.mp hf with rfl | hf
        · -- none of the later ones assigns to the key again
          rw [hout f.1 hnot, hL.find_assign hjs, if_pos rfl]
        · exact hin f hf
      · intro key hkey
        obtain ⟨hne, hkey⟩ := not_or.mp (List.mem_cons.not.mp hkey)
        rw [hout key hkey, hL.find_assign hjs, if_neg hne]

/-- **An object has the fields** that were assigned, if each was assigned once. -/
theorem find_object (hL : L.Lawful) (hnodup : (fields.map Prod.fst).Nodup) :
    ∀ field ∈ fields, L.find (L.object fields) field.1 = some field.2 :=
  (foldl_assign hL .null hnodup).1

/-! ## Arrays -/

def Library.pushAll (L : Library J) (js : J) (key : String) (vs : List J) : J :=
  vs.foldl (fun js v => L.pushBack js key v) js

theorem array_pushBack {v : J} (hL : L.Lawful) (hjs : L.Built js) (hus : L.array js key = some us) :
    L.array (L.pushBack js key v) key = some (us ++ [v]) ∧
      L.find (L.pushBack js key v) key ≠ none ∧
      ∀ key' ≠ key, L.find (L.pushBack js key v) key' = L.find js key' := by
  obtain ⟨a, ha, hfind⟩ := hL.find_pushBack (v := v) hjs hus
  have hself : L.find (L.pushBack js key v) key = some a := by rw [hfind, if_pos rfl]
  refine ⟨?_, ?_, fun key' hne => by rw [hfind, if_neg hne]⟩
  · rw [Library.array, hself]
    exact ha
  · rw [hself]
    exact Option.some_ne_none a

/-- **An array has the values** that were pushed to it, and there is none if there were none. -/
theorem pushAll_array (hL : L.Lawful) (hjs : L.Built js) (hus : L.array js key = some us)
    (vs : List J) :
    L.Built (L.pushAll js key vs) ∧ L.array (L.pushAll js key vs) key = some (us ++ vs) ∧
      (L.find (L.pushAll js key vs) key = none ↔ L.find js key = none ∧ vs = []) := by
  induction vs generalizing js us with
  | nil => exact ⟨hjs, by rw [List.append_nil]; exact hus, by simp [Library.pushAll]⟩
  | cons v vs ih =>
      obtain ⟨harray, hfound, -⟩ := array_pushBack (v := v) hL hjs hus
      obtain ⟨hbuilt, hall, hnone⟩ := ih (hjs.pushBack v hus) harray
      refine ⟨hbuilt, ?_, ?_⟩
      · rw [List.append_cons]
        exact hall
      · exact iff_of_false (fun h => hfound (hnone.mp h).1) fun h => absurd h.2 (List.cons_ne_nil _ _)

/-! ## A library -/

inductive Value
  | null
  | string (s : String)
  | number (n : Int)
  | array (vs : List Value)
  /-- the key that was assigned last comes first -/
  | object (fields : List (String × Value))

def Value.entries : Value → List (String × Value)
  | .object fields => fields
  | _ => []

def Value.elements : Value → Option (List Value)
  | .array vs => some vs
  | _ => none

def values : Library Value where
  null := .null
  ofString := .string
  ofInt := .number
  assign js key v := .object ((key, v) :: js.entries)
  pushBack js key v :=
    .object ((key, .array (((js.entries.lookup key).bind Value.elements).getD [] ++ [v])) :: js.entries)
  find js key := js.entries.lookup key
  elements := Value.elements

theorem values_lawful : values.Lawful where
  find_null _ := rfl
  find_assign {js key v} _ key' := by
    show List.lookup key' ((key, v) :: js.entries) = _
    rw [List.lookup_cons]
    by_cases h : key' = key
    · simp [h]
    · rw [beq_false_of_ne h, if_neg h]
      rfl
  find_pushBack {js key us v} _ hus := by
    have hold : ((js.entries.lookup key).bind Value.elements).getD [] = us := by
      unfold Library.array at hus
      split at hus
      case h_1 a ha =>
        have hlookup : js.entries.lookup key = some a := ha
        have helements : a.elements = some us := hus
        rw [hlookup, Option.bind_some, helements, Option.getD_some]
      case h_2 ha =>
        have hlookup : js.entries.lookup key = none := ha
        rw [hlookup, Option.bind_none, Option.getD_none]
        exact Option.some.inj hus
    refine ⟨.array (us ++ [v]), rfl, fun key' => ?_⟩
    show List.lookup key' ((key, _) :: js.entries) = _
    rw [List.lookup_cons, hold]
    by_cases h : key' = key
    · simp [h]
    · rw [beq_false_of_ne h, if_neg h]
      rfl

end Json
