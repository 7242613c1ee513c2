import Mathlib.Data.List.OfFn
import Dynodoc.Lib.OrderedMap

/-! JSON values as `serde_json` holds them in memory. An object is a family of
values over a finite set of keys, so that the order in which its members were
written is not observable and no key occurs twice. Of a `Number`, floating-point numbers are
the rationals they denote, which identifies the two zeros as `==` does. -/
namespace Dynodoc
open Std (ExtTreeMap ExtTreeSet)
open List

variable {ks : ExtTreeSet String} {l : List Nat}

inductive Number where
  | int (value : Int)
  | float (value : Rat)
  deriving DecidableEq

inductive Json (N : Type) where
  | null
  | bool (value : Bool)
  | num (value : N)
  | str (value : String)
  | arr (length : Nat) (items : Fin length → Json N)
  | obj (keys : ExtTreeSet String) (vals : { key // key ∈ keys } → Json N)

/-- JSON values as the program compares them. -/
abbrev Value := Json Number

variable {N : Type} {items : List (Json N)}

namespace Json

variable {v : Json N} {key : String} {members : ExtTreeMap String (Json N)} {n : Nat}

def decEq [DecidableEq N] : (a b : Json N) → Decidable (a = b)
  | null, null => isTrue rfl
  | bool a, bool b => decidable_of_iff (a = b) (by simp)
  | num a, num b => decidable_of_iff (a = b) (by simp)
  | str a, str b => decidable_of_iff (a = b) (by simp)
  | arr n f, arr m g =>
    if same : n = m then
      haveI (i : Fin n) : Decidable (f i = g (i.cast same)) := decEq (f i) (g (i.cast same))
      decidable_of_iff (∀ i, f i = g (i.cast same)) (by
        subst same
        simp [funext_iff])
    else isFalse (by simp [same])
  | obj ks f, obj ls g =>
    if same : ks = ls then
      haveI (k : { key // key ∈ ks }) : Decidable (f k = g ⟨k.1, same ▸ k.2⟩) :=
        decEq (f k) (g ⟨k.1, same ▸ k.2⟩)
      decidable_of_iff (∀ k ∈ ks.toList.attach, f ⟨k.1, ExtTreeSet.mem_toList.1 k.2⟩ =
          g ⟨k.1, same ▸ ExtTreeSet.mem_toList.1 k.2⟩) (by
        subst same
        simp [funext_iff])
    else isFalse (by simp [same])
  | null, bool _ | null, num _ | null, str _ | null, arr .. | null, obj ..
  | bool _, null | bool _, num _ | bool _, str _ | bool _, arr .. | bool _, obj ..
  | num _, null | num _, bool _ | num _, str _ | num _, arr .. | num _, obj ..
  | str _, null | str _, bool _ | str _, num _ | str _, arr .. | str _, obj ..
  | arr .., null | arr .., bool _ | arr .., num _ | arr .., str _ | arr .., obj ..
  | obj .., null | obj .., bool _ | obj .., num _ | obj .., str _ | obj .., arr .. =>
    isFalse nofun

instance [DecidableEq N] : DecidableEq (Json N) := decEq

theorem key_mem (k : { key // key ∈ ks.toList }) : k.1 ∈ ks :=
  ExtTreeSet.mem_toList.1 k.2

instance : Inhabited (Json N) := ⟨null⟩

def array (items : List (Json N)) : Json N := arr items.length items.get

def object (members : ExtTreeMap String (Json N)) : Json N :=
  obj (ExtTreeSet.ofList members.keys) fun key =>
    members.get key.1 (by simpa using key.2)

/-- `json!({..})` with distinct keys. -/
def fields (members : List (String × Json N)) : Json N :=
  object (members.foldr (fun (key, item) rest => rest.insert key item) ∅)

def ofOption : Option String → Json N
  | none => null
  | some s => str s

def get? : Json N → String → Option (Json N)
  | obj ks f, key => if present : key ∈ ks then some (f ⟨key, present⟩) else none
  | _, _ => none

/-- `value[key]`, which reads a missing member as null. -/
def index (v : Json N) (key : String) : Json N := (v.get? key).getD null

def asStr : Json N → Option String
  | str s => some s
  | _ => none

def asArray : Json N → Option (List (Json N))
  | arr _ items => some (List.ofFn items)
  | _ => none

def asObject : Json N → Option (ExtTreeMap String (Json N))
  | obj ks f => some (ExtTreeMap.ofList
      (ks.toList.attach.map fun k => (k.1, f ⟨k.1, ExtTreeSet.mem_toList.1 k.2⟩)))
  | _ => none

def isObject (v : Json N) : Bool := v.asObject.isSome

/-- The members' keys in order, none for a value that is not an object. -/
def keys (v : Json N) : List String :=
  match v.asObject with
  | some members => members.keys
  | none => []

/-- `value[key] = item`. Null becomes an object first; `none` is the panic of
`serde_json` on any other value that is not an object. -/
def setIndex [DecidableEq N] (v : Json N) (key : String) (item : Json N) : Option (Json N) :=
  match v.asObject with
  | some members => some (object (members.insert key item))
  | none => if v = null then some (object ((∅ : ExtTreeMap String (Json N)).insert key item)) else none

/- Objects and arrays are used through the maps and lists they stand for; nothing
after these lemmas looks at the representation. -/

theorem getElem?_of_asObject {f : { key // key ∈ ks } → Json N}
    (read : (obj ks f).asObject = some members)
    (key : String) : members[key]? = (obj ks f).get? key := by
  simp only [asObject, Option.some.injEq] at read
  subst read
  by_cases present : key ∈ ks
  · rw [ExtTreeMap.getElem?_ofList_of_mem (k := key) (v := f ⟨key, present⟩) Std.compare_self]
    · simp [get?, present]
    · rw [pairwise_map]
      have distinct : (ks.toList.attach.map Subtype.val).Pairwise fun a b => ¬ compare a b = .eq := by
        rw [attach_map_subtype_val]
        exact ExtTreeSet.distinct_toList
      exact pairwise_map.1 distinct
    · simp only [mem_map, mem_attach, true_and, Subtype.exists]
      exact ⟨key, ExtTreeSet.mem_toList.2 present, rfl⟩
  · rw [ExtTreeMap.getElem?_ofList_of_contains_eq_false]
    · simp [get?, present]
    · simp only [contains_eq_mem]
      simpa using present

@[simp] theorem get?_object (members : ExtTreeMap String (Json N)) (key : String) :
    (object members).get? key = members[key]? := by
  by_cases present : key ∈ members
  · simp [object, get?, present]
  · simp [object, get?, present]

@[simp] theorem get?_fields_nil (key : String) :
    (fields ([] : List (String × Json N))).get? key = none := by
  simp [fields]

@[simp] theorem get?_fields_cons (name key : String) (item : Json N)
    (rest : List (String × Json N)) :
    (fields ((name, item) :: rest)).get? key =
      if key = name then some item else (fields rest).get? key := by
  simp [fields]

@[simp] theorem get?_null (key : String) : (null : Json N).get? key = none := rfl

@[simp] theorem asObject_object (members : ExtTreeMap String (Json N)) :
    (object members).asObject = some members := by
  obtain ⟨read, found⟩ : ∃ read, (object members).asObject = some read := ⟨_, rfl⟩
  rw [found]
  congr 1
  apply ExtTreeMap.ext_getElem?
  intro key
  rw [getElem?_of_asObject found]
  exact get?_object members key

theorem asObject_eq_some : v.asObject = some members ↔ v = object members := by
  constructor
  · intro read
    cases v with
    | obj ks f =>
      have look := getElem?_of_asObject read
      have same : ks = ExtTreeSet.ofList members.keys := by
        apply ExtTreeSet.ext_mem
        intro key
        have found := look key
        rw [ExtTreeSet.mem_ofList, contains_iff_mem, ExtTreeMap.mem_keys,
          ExtTreeMap.mem_iff_isSome_getElem?, found]
        by_cases present : key ∈ ks <;> simp [get?]
      subst same
      simp only [object, obj.injEq, heq_eq_eq, true_and]
      funext key
      have := look key.1
      simp only [get?, key.2, dite_true] at this
      rw [← Option.some.injEq, ← this]
      exact (ExtTreeMap.getElem?_eq_some_getElem _)
    | _ => simp [asObject] at read
  · rintro rfl
    exact asObject_object members

@[simp] theorem object_inj {a b : ExtTreeMap String (Json N)} : object a = object b ↔ a = b := by
  constructor
  · intro same
    have read := congrArg asObject same
    simpa using read
  · exact congrArg object

@[simp] theorem asArray_array (items : List (Json N)) : (array items).asArray = some items := by
  exact congrArg some (ofFn_get items)

theorem asArray_eq_some : v.asArray = some items ↔ v = array items := by
  constructor
  · intro read
    cases v with
    | arr n f =>
      simp only [asArray, Option.some.injEq] at read
      subst read
      simp only [array, arr.injEq, length_ofFn, true_and]
      exact ((Fin.heq_fun_iff length_ofFn).2 fun i => by simp).symm
    | _ => simp [asArray] at read
  · rintro rfl
    exact asArray_array items

@[simp] theorem array_inj {a b : List (Json N)} : array a = array b ↔ a = b := by
  constructor
  · intro same
    have read := congrArg asArray same
    simpa using read
  · exact congrArg array

/-- Every way to take a value apart, with objects and arrays in their public form. -/
@[elab_as_elim]
theorem casesView {motive : Json N → Prop} (v : Json N) (null : motive null)
    (bool : ∀ b, motive (bool b)) (num : ∀ n, motive (num n)) (str : ∀ s, motive (str s))
    (array : ∀ items, motive (array items)) (object : ∀ members, motive (object members)) :
    motive v := by
  cases shape : v with
  | null => exact null
  | bool b => exact bool b
  | num n => exact num n
  | str s => exact str s
  | arr n f =>
    rw [asArray_eq_some.1 (rfl : (arr n f).asArray = some (List.ofFn f))]
    exact array _
  | obj ks f =>
    obtain ⟨members, read⟩ : ∃ members, (obj ks f).asObject = some members := ⟨_, rfl⟩
    rw [asObject_eq_some.1 read]
    exact object members

theorem isObject_iff : v.isObject = true ↔ ∃ members, v = object members := by
  simp [isObject, Option.isSome_iff_exists, asObject_eq_some]

theorem mem_keys : key ∈ v.keys ↔ (v.get? key).isSome := by
  induction v using casesView with
  | object members =>
    simp [keys]
  | _ => simp [keys, asObject, get?, array]

@[simp] theorem index_fields_cons (name key : String) (item : Json N)
    (rest : List (String × Json N)) :
    (fields ((name, item) :: rest)).index key =
      if key = name then item else (fields rest).index key := by
  simp only [index, get?_fields_cons]
  split <;> rfl

@[simp] theorem asStr_str (s : String) : (str s : Json N).asStr = some s := rfl

@[simp] theorem asStr_ofOption (o : Option String) : (ofOption o : Json N).asStr = o := by
  cases o <;> rfl

theorem index_eq_null_of_not_mem_keys (absent : key ∉ v.keys) : v.index key = null := by
  rw [mem_keys, Option.not_isSome_iff_eq_none] at absent
  simp [index, absent]

/-- Assignment is defined exactly on objects and null, and then changes one member. -/
theorem setIndex_spec [DecidableEq N] {v item w : Json N} (assigned : v.setIndex key item = some w) :
    w.isObject = true ∧
      ∀ other, w.get? other = if other = key then some item else v.get? other := by
  induction v using casesView with
  | object members =>
    simp only [setIndex, asObject_object, Option.some.injEq] at assigned
    subst assigned
    exact ⟨by simp [isObject], by simp⟩
  | null =>
    simp only [setIndex, asObject, if_true, Option.some.injEq] at assigned
    subst assigned
    exact ⟨by simp [isObject], by simp⟩
  | _ => simp [setIndex, asObject, array] at assigned

theorem index_setIndex [DecidableEq N] {v item w : Json N}
    (assigned : v.setIndex key item = some w) (other : String) :
    w.index other = if other = key then item else v.index other := by
  simp only [index, (setIndex_spec assigned).2 other]
  split <;> rfl

theorem setIndex_isSome [DecidableEq N] (shape : v.isObject = true ∨ v = null) (key : String)
    (item : Json N) : ∃ w, v.setIndex key item = some w := by
  rcases shape with shape | rfl
  · obtain ⟨members, rfl⟩ := isObject_iff.1 shape
    exact ⟨_, by simp [setIndex]; rfl⟩
  · exact ⟨_, rfl⟩

def depth : Json N → Nat
  | arr _ items => 1 + (List.ofFn fun i => (items i).depth).foldr max 0
  | obj ks f =>
    1 + (ks.toList.attach.map fun k => (f ⟨k.1, ExtTreeSet.mem_toList.1 k.2⟩).depth).foldr max 0
  | _ => 1

theorem depth_pos (v : Json N) : 0 < v.depth := by
  cases v <;> simp [depth]

private theorem le_foldr_max (mem : n ∈ l) : n ≤ l.foldr max 0 := by
  induction l with
  | nil => simp at mem
  | cons a l ih =>
    rcases mem_cons.1 mem with rfl | mem
    · simp
    · simp [ih mem]

private theorem foldr_max_le (below : ∀ a ∈ l, a ≤ n) : l.foldr max 0 ≤ n := by
  induction l with
  | nil => simp
  | cons a l ih => simp_all

theorem depth_of_mem_array (mem : v ∈ items) : v.depth < (array items).depth := by
  obtain ⟨i, rfl⟩ := get_of_mem mem
  simp only [array, depth]
  have le := le_foldr_max (mem_ofFn.2 ⟨i, rfl⟩ :
    (items.get i).depth ∈ List.ofFn fun i => (items.get i).depth)
  omega

theorem depth_of_get? {v item : Json N} (found : v.get? key = some item) : item.depth < v.depth := by
  cases v with
  | obj ks f =>
    simp only [get?] at found
    split at found
    · rename_i present
      cases found
      simp only [depth]
      have mem : (f ⟨key, present⟩).depth ∈
          ks.toList.attach.map fun k => (f ⟨k.1, ExtTreeSet.mem_toList.1 k.2⟩).depth :=
        mem_map.2 ⟨⟨key, ExtTreeSet.mem_toList.2 present⟩, mem_attach .., rfl⟩
      have le := le_foldr_max mem
      omega
    · contradiction
  | _ => simp [get?] at found

theorem depth_object_le
    (below : ∀ (key : String) (item : Json N), members[key]? = some item → item.depth ≤ n) :
    (object members).depth ≤ 1 + n := by
  refine Nat.add_le_add_left (foldr_max_le ?_) 1
  simp only [mem_map, mem_attach, true_and, forall_exists_index]
  rintro _ k rfl
  exact below k.1 _ (ExtTreeMap.getElem?_eq_some_getElem _)

end Json
end Dynodoc
