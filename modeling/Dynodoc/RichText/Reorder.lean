import Dynodoc.Lib.Loop
import Dynodoc.RichText.Merge

/-! Properties merged with the two sides exchanged: the merges fail together, and what they give is
the same up to the order inside arrays of marks, which follows one side. -/
namespace Dynodoc.RichText
open Std (ExtTreeMap ExtTreeSet)
open Loop List OrderedMap Json

variable {items : List Value}

mutual

/-- Equal up to the order inside arrays of marks. -/
inductive Reordered : Value → Value → Prop
  | same (v : Value) : Reordered v v
  | object {m m' : ExtTreeMap String Value} (keys : ∀ key, key ∈ m ↔ key ∈ m')
      (members : ∀ key v w, m[key]? = some v → m'[key]? = some w → MemberReordered key v w) :
      Reordered (.object m) (.object m')

/-- Members with this name, equal up to the order of marks. -/
inductive MemberReordered : String → Value → Value → Prop
  | plain {key : String} {v w : Value} (related : Reordered v w) : MemberReordered key v w
  | marks {items items' shuffled : List Value} (perm : items.Perm shuffled)
      (length : shuffled.length = items'.length)
      (each : ∀ (i : Nat) (v w : Value), shuffled[i]? = some v → items'[i]? = some w → Reordered v w) :
      MemberReordered "marks" (.array items) (.array items')

end

/-- Two merges that fail together and otherwise give related values. -/
inductive Agree (r : Value → Value → Prop) :
    Except Unit (Option Value) → Except Unit (Option Value) → Prop
  | failed : Agree r (.error ()) (.error ())
  | absent : Agree r (.ok none) (.ok none)
  | value {v w : Value} (related : r v w) : Agree r (.ok (some v)) (.ok (some w))

section Agree

variable {r s : Value → Value → Prop} {x y : Except Unit (Option Value)}

theorem Agree.refl (refl : ∀ v, r v v) (x : Except Unit (Option Value)) : Agree r x x := by
  cases x with
  | error => exact .failed
  | ok found =>
    cases found with
    | none => exact .absent
    | some v => exact .value (refl v)

theorem Agree.imp (implies : ∀ v w, r v w → s v w) (agree : Agree r x y) : Agree s x y := by
  cases agree with
  | failed => exact .failed
  | absent => exact .absent
  | value related => exact .value (implies _ _ related)

theorem Agree.error_iff (agree : Agree r x y) : x = .error () ↔ y = .error () := by
  cases agree with
  | failed => rfl
  | absent => simp
  | value related => simp

end Agree

/-- Objects with the same keys and related members. -/
structure MembersAgree (r : String → Value → Value → Prop) (m m' : ExtTreeMap String Value) : Prop where
  keys : ∀ key, key ∈ m ↔ key ∈ m'
  members : ∀ key v w, m[key]? = some v → m'[key]? = some w → r key v w

theorem MembersAgree.refl (m : ExtTreeMap String Value) : MembersAgree MemberReordered m m := by
  constructor
  · intro key
    rfl
  · intro key v w found found'
    rw [found] at found'
    cases found'
    exact .plain (.same v)

theorem MembersAgree.of_agree {r : String → Value → Value → Prop} {m m' : ExtTreeMap String Value}
    (each : ∀ key, Agree (r key) (.ok m[key]?) (.ok m'[key]?)) : MembersAgree r m m' := by
  constructor
  · intro key
    have here := each key
    rw [mem_iff_exists, mem_iff_exists]
    generalize m[key]? = found, m'[key]? = found' at here
    cases here <;> simp
  · intro key v w found found'
    have here := each key
    rw [found, found'] at here
    cases here with
    | value related => exact related

theorem Reordered.members {m : ExtTreeMap String Value} {w : Value} (related : Reordered (.object m) w) :
    ∃ m', w = .object m' ∧ MembersAgree MemberReordered m m' := by
  generalize isObject : Json.object m = v at related
  cases related with
  | same => exact ⟨m, isObject.symm, .refl m⟩
  | object keys members =>
    rw [Json.object_inj] at isObject
    subst isObject
    exact ⟨_, rfl, keys, members⟩

theorem membersOf_getElem? (v : Option Value) (key : String) :
    (membersOf v)[key]? = v.bind (get? · key) := by
  cases v with
  | none => simp [membersOf]
  | some v =>
    induction v using casesView with
    | object members => simp [membersOf]
    | _ => simp [membersOf, asObject, get?, array]

/-- A property, or a list of marks, as the base and the two sides have it. -/
structure Slot where
  isMarks : Bool
  base : Option Value
  team : Option Value
  draft : Option Value

namespace Slot

variable {s : Slot} {mb mt md : ExtTreeMap String Value}

def merge (s : Slot) : Except Unit (Option Value) :=
  if s.isMarks then mergeMarks s.base s.team s.draft else mergeProperty s.base s.team s.draft

def swap (s : Slot) : Slot := ⟨s.isMarks, s.base, s.draft, s.team⟩

/-- One side left it as it was, or both made the same change. -/
def Settled (s : Slot) : Prop := s.draft = s.base ∨ s.draft = s.team ∨ s.team = s.base

instance : Decidable s.Settled :=
  inferInstanceAs (Decidable (s.draft = s.base ∨ s.draft = s.team ∨ s.team = s.base))

/-- Both sides are objects, and so is the base if there is one. -/
def Objects (s : Slot) : Prop :=
  (s.team.bind asObject).isSome ∧ (s.draft.bind asObject).isSome ∧ ¬ s.base.any (fun v => !v.isObject)

def member (s : Slot) (key : String) : Slot :=
  ⟨key = "marks", (membersOf s.base)[key]?, (membersOf s.team)[key]?, (membersOf s.draft)[key]?⟩

def keys (s : Slot) : List String :=
  (ExtTreeSet.ofList
    ((membersOf s.base).keys ++ (membersOf s.team).keys ++ (membersOf s.draft).keys)).toList

theorem settled_swap : s.swap.Settled ↔ s.Settled := by
  simp only [Settled, swap, eq_comm (a := s.team)]
  tauto

theorem objects_swap : s.swap.Objects ↔ s.Objects := by
  simp only [Objects, swap]
  tauto

theorem merge_settled (settled : s.Settled) :
    s.merge = .ok (if s.draft = s.base then s.team else s.draft) := by
  have either : s.merge = if s.draft = s.base ∨ s.draft = s.team then .ok s.team else .ok s.draft := by
    unfold merge
    split
    · rw [mergeMarks]
      split
      · rfl
      · rw [if_pos (by unfold Settled at settled; tauto)]
    · rw [mergeProperty]
      split
      · rfl
      · rw [if_pos (by unfold Settled at settled; tauto)]
  rw [either]
  by_cases draft : s.draft = s.base
  · simp [draft]
  · by_cases same : s.draft = s.team <;> simp [draft, same]

theorem merge_settled_swap (settled : s.Settled) : s.swap.merge = s.merge := by
  rw [merge_settled settled, merge_settled (settled_swap.2 settled)]
  change Except.ok (if s.team = s.base then s.draft else s.team) = _
  rcases settled with draft | same | team
  · by_cases team : s.team = s.base <;> simp [draft, team]
  · simp [same]
  · by_cases draft : s.draft = s.base <;> simp [draft, team]

section Property

variable (property : s.isMarks = false) (changed : ¬ s.Settled)

include property changed

theorem merge_refused (refused : ¬ s.Objects) : s.merge = .error () := by
  unfold Settled at changed
  unfold Objects at refused
  rw [merge, if_neg (by simp [property]), mergeProperty, if_neg (by tauto), if_neg (by tauto)]
  split
  · rw [if_pos (by tauto)]
  · rfl

theorem merge_members (objects : s.Objects) : s.merge = (s.keys.foldlM
    (fun out key => (s.member key).merge.map (putMember out key)) ∅).map fun out => some (object out) := by
  obtain ⟨team, draft, base⟩ := objects
  unfold Settled at changed
  rw [merge, if_neg (by simp [property]), mergeProperty, if_neg (by tauto), if_neg (by tauto),
    dif_pos ⟨team, draft⟩, if_neg base]
  have as_map (x : Except Unit (ExtTreeMap String Value)) :
      (x >>= fun out => .ok (some (.object out))) = x.map fun out => some (object out) := by
    cases x <;> rfl
  simp only [merge, member, decide_eq_true_eq]
  exact as_map _

end Property

theorem foldlM_putMember {f : String → Except Unit (Option Value)} {keys : List String}
    {m : ExtTreeMap String Value} (start : ∀ key, f key = .ok m[key]? ∨ (key ∈ keys ∧ m[key]? = none)) :
    (keys.foldlM (fun out key => (f key).map (putMember out key)) m = .error () ∧
      ∃ key, f key = .error ()) ∨
    ∃ out, keys.foldlM (fun out key => (f key).map (putMember out key)) m = .ok out ∧
      ∀ key, f key = .ok out[key]? := by
  induction keys generalizing m with
  | nil => exact .inr ⟨m, rfl, fun key => (start key).resolve_right (by simp)⟩
  | cons key keys ih =>
    rw [foldlM_cons]
    cases found : f key with
    | error => exact .inl ⟨rfl, key, found⟩
    | ok item =>
      refine ih fun other => ?_
      by_cases same : other = key
      · subst same
        left
        rw [found]
        cases item with
        | some v => simp [putMember]
        | none => rcases start other with here | ⟨-, here⟩ <;> simp_all [putMember]
      · have kept : (putMember m key item)[other]? = m[other]? := by
          cases item <;> simp [putMember, same]
        rw [kept]
        exact (start other).imp_right fun ⟨mem, here⟩ => ⟨mem_of_ne_of_mem same mem, here⟩

theorem exists_object {v : Option Value} (shape : (v.bind asObject).isSome) : ∃ m, v = some (object m) := by
  obtain ⟨m, read⟩ := Option.isSome_iff_exists.1 shape
  obtain ⟨w, rfl, here⟩ := Option.bind_eq_some_iff.1 read
  exact ⟨m, by rw [asObject_eq_some.1 here]⟩

theorem merge_member_of_not_mem {key : String} (unknown : key ∉ s.keys) :
    (s.member key).merge = .ok none := by
  simp only [keys, ExtTreeSet.mem_toList, ExtTreeSet.mem_ofList, contains_iff_mem, mem_append,
    ExtTreeMap.mem_keys, not_or] at unknown
  have absent {v : Option Value} (lacks : key ∉ membersOf v) : (membersOf v)[key]? = none :=
    OrderedMap.getElem?_eq_none_iff.2 lacks
  rw [merge_settled (.inl ((absent unknown.2).trans (absent unknown.1.1).symm))]
  simp [member, absent unknown.1.2, absent unknown.2]

/-- Objects merge member by member, also where one side left the whole object as it was. -/
theorem merge_objects (property : s.isMarks = false) (objects : s.Objects) :
    (s.merge = .error () ∧ ∃ key, (s.member key).merge = .error ()) ∨
    ∃ m, s.merge = .ok (some (object m)) ∧ ∀ key, (s.member key).merge = .ok m[key]? := by
  by_cases settled : s.Settled
  · obtain ⟨mt, isTeam⟩ := exists_object objects.1
    obtain ⟨md, isDraft⟩ := exists_object objects.2.1
    refine .inr ⟨if s.draft = s.base then mt else md, ?_, fun key => ?_⟩
    · rw [merge_settled settled]
      split <;> simp [isTeam, isDraft]
    · have members (m : ExtTreeMap String Value) : membersOf (some (object m)) = m := by simp [membersOf]
      by_cases draft : s.draft = s.base
      · rw [merge_settled (.inl (by simp [member, draft]))]
        simp [member, draft, isTeam, members]
      · rw [if_neg draft]
        rcases settled with unchanged | same | team
        · exact absurd unchanged draft
        · rw [merge_settled (.inr (.inl (by simp [member, same])))]
          simp [member, ← same, isDraft, members]
        · rw [merge_settled (.inr (.inr (by simp [member, team])))]
          simp only [member, ← team, isDraft, isTeam, members]
          split <;> simp_all
  · rw [merge_members property settled objects]
    have start (key : String) : (s.member key).merge = .ok (∅ : ExtTreeMap String Value)[key]? ∨
        (key ∈ s.keys ∧ (∅ : ExtTreeMap String Value)[key]? = none) := by
      by_cases known : key ∈ s.keys
      · exact .inr ⟨known, by simp⟩
      · exact .inl (by simpa using merge_member_of_not_mem known)
    rcases foldlM_putMember start with ⟨failed, key, here⟩ | ⟨out, folded, each⟩
    · exact .inl ⟨by rw [failed]; rfl, key, here⟩
    · exact .inr ⟨out, by rw [folded]; rfl, each⟩

end Slot

section Marks

variable {v : Option Value} {m : ExtTreeMap String Value}

def typeOf (mark : Value) : Option String := (mark.index "type").asStr

theorem typeOf_object {kind : String} : typeOf (object m) = some kind ↔ m["type"]? = some (.str kind) := by
  simp only [typeOf, Json.index, get?_object]
  cases m["type"]? with
  | none => simp [asStr]
  | some v => cases v <;> simp [asStr]

/-- The types of a list of marks, in its order. -/
def kinds (v : Option Value) : List String := ((v.bind asArray).getD []).filterMap typeOf

/-- Every mark is found under its own type. -/
def Typed (m : ExtTreeMap String Value) : Prop := ∀ key mark, m[key]? = some mark → typeOf mark = some key

theorem foldlM_addMark {out : ExtTreeMap String Value} (typed : Typed m)
    (read : items.foldlM addMark m = .ok out) : Typed out ∧ (∀ mark ∈ items, (typeOf mark).isSome) ∧
      (items.filterMap typeOf).Nodup ∧ (∀ key ∈ items.filterMap typeOf, key ∉ m) ∧
      ∀ key, key ∈ out ↔ key ∈ m ∨ key ∈ items.filterMap typeOf := by
  induction items generalizing m with
  | nil =>
    cases read
    exact ⟨typed, by simp, by simp, by simp, by simp⟩
  | cons mark items ih =>
    obtain ⟨next, step, read⟩ := bind_eq_ok.1 read
    unfold addMark at step
    split at step
    · contradiction
    rename_i kind found
    obtain ⟨fresh, step⟩ := guard_eq_ok.1 step
    cases step
    have grown : Typed (m.insert kind mark) := by
      intro key other known
      rw [OrderedMap.getElem?_insert] at known
      split at known
      · rename_i same
        cases known
        rw [same]
        exact found
      · exact typed key other known
    obtain ⟨typed', each, distinct, apart, known⟩ := ih grown read
    have isKind : typeOf mark = some kind := found
    simp only [filterMap_cons_some isKind, nodup_cons, mem_cons, forall_eq_or_imp, isKind,
      Option.isSome_some, true_and]
    simp only [ExtTreeMap.mem_insert, Std.compare_eq_iff_eq, not_or] at apart
    refine ⟨typed', each, ⟨fun mem => (apart kind mem).1 rfl, distinct⟩,
      ⟨by simpa using fresh, fun key mem => (apart key mem).2⟩, fun key => ?_⟩
    rw [known, ExtTreeMap.mem_insert, Std.compare_eq_iff_eq]
    tauto

theorem marks_spec (read : marks v = .ok m) : Typed m ∧ (kinds v).Nodup ∧ (∀ key, key ∈ m ↔ key ∈ kinds v) ∧
    (v = none ∨ ∃ items, v = some (.array items) ∧ ∀ mark ∈ items, (typeOf mark).isSome) := by
  have empty : Typed ∅ := by
    intro key mark found
    simp at found
  unfold marks at read
  split at read
  · cases read
    exact ⟨empty, by simp [kinds], by simp [kinds], .inl rfl⟩
  · split at read
    · contradiction
    rename_i value _ items shape
    rw [asArray_eq_some] at shape
    subst shape
    obtain ⟨typed, each, distinct, -, known⟩ := foldlM_addMark empty read
    exact ⟨typed, by simpa [kinds] using distinct, by simpa [kinds] using known, .inr ⟨items, rfl, each⟩⟩

def addName (names : List String) (mark : Value) : Except Unit (List String) :=
  match typeOf mark with
  | none => .error ()
  | some name => .ok (if names.contains name then names else names ++ [name])

def addNames (names : List String) (side : Option Value) : Except Unit (List String) :=
  match side with
  | none => .ok names
  | some v =>
    match v.asArray with
    | none => .error ()
    | some items => items.foldlM addName names

theorem foldlM_addName (each : ∀ mark ∈ items, (typeOf mark).isSome)
    (distinct : (items.filterMap typeOf).Nodup) (names : List String) :
    items.foldlM addName names = .ok (names ++ (items.filterMap typeOf).filter (· ∉ names)) := by
  induction items generalizing names with
  | nil => simp [pure, Except.pure]
  | cons mark items ih =>
    obtain ⟨name, found⟩ := Option.isSome_iff_exists.1 (each mark (by simp))
    rw [filterMap_cons_some found, nodup_cons] at distinct
    have later := ih (fun mark mem => each mark (by simp [mem])) distinct.2
    rw [filterMap_cons_some found]
    by_cases known : name ∈ names
    · have step : addName names mark = .ok names := by simp [addName, found, known]
      rw [filter_cons_of_neg (by simpa using known)]
      exact bind_eq_ok.2 ⟨names, step, later names⟩
    · have step : addName names mark = .ok (names ++ [name]) := by simp [addName, found, known]
      rw [filter_cons_of_pos (by simpa using known)]
      refine bind_eq_ok.2 ⟨names ++ [name], step, ?_⟩
      rw [later, append_assoc, singleton_append]
      congr 3
      refine filter_congr fun other mem => ?_
      have apart : other ≠ name := fun same => distinct.1 (same ▸ mem)
      simp [apart]

theorem addNames_eq (read : marks v = .ok m) (names : List String) :
    addNames names v = .ok (names ++ (kinds v).filter (· ∉ names)) := by
  obtain ⟨-, distinct, -, rfl | ⟨items, rfl, each⟩⟩ := marks_spec read
  · simp [addNames, kinds]
  · simp only [kinds, Option.bind_some, asArray_array, Option.getD_some] at distinct ⊢
    rw [addNames, asArray_array]
    exact foldlM_addName each distinct names

theorem markNames_eq {t d : Option Value} {mt md : ExtTreeMap String Value} (readT : marks t = .ok mt)
    (readD : marks d = .ok md) :
    markNames [t, d] = .ok (kinds t ++ (kinds d).filter (· ∉ kinds t)) := by
  change [t, d].foldlM addNames [] = _
  refine bind_eq_ok.2 ⟨kinds t, by simpa using addNames_eq readT [], ?_⟩
  exact bind_eq_ok.2 ⟨_, addNames_eq readD _, rfl⟩

end Marks

namespace Slot

variable {s : Slot} {mb mt md : ExtTreeMap String Value}

/-- Marks by their types, which merge as the members of an object do. -/
def typed (mb mt md : ExtTreeMap String Value) : Slot :=
  ⟨false, some (.object mb), some (.object mt), some (.object md)⟩

structure Reads (s : Slot) (mb mt md : ExtTreeMap String Value) : Prop where
  base : marks s.base = .ok mb
  team : marks s.team = .ok mt
  draft : marks s.draft = .ok md

def Readable (s : Slot) : Prop := ∃ mb mt md, s.Reads mb mt md

theorem Reads.swap (reads : s.Reads mb mt md) : s.swap.Reads mb md mt :=
  ⟨reads.base, reads.draft, reads.team⟩

/-- The types of the merged marks in their order: those of the team, then the new ones of the draft,
without those that a side removed. -/
def listed (s : Slot) : List String :=
  (kinds s.team ++ (kinds s.draft).filter (· ∉ kinds s.team)).filter fun kind =>
    (kind ∈ kinds s.team ∧ kind ∈ kinds s.draft) ∨ kind ∉ kinds s.base

theorem mem_listed {kind : String} : kind ∈ s.listed ↔ (kind ∈ kinds s.team ∧ kind ∈ kinds s.draft) ∨
    ((kind ∈ kinds s.team ∨ kind ∈ kinds s.draft) ∧ kind ∉ kinds s.base) := by
  simp only [listed, mem_filter, mem_append, decide_eq_true_eq]
  tauto

theorem Reads.nodup_listed (reads : s.Reads mb mt md) : s.listed.Nodup := by
  refine Nodup.filter _ (Nodup.append (marks_spec reads.team).2.1
    ((marks_spec reads.draft).2.1.filter _) ?_)
  intro kind left right
  simp only [mem_filter, decide_eq_true_eq] at right
  exact right.2 left

theorem Reads.perm_listed (reads : s.Reads mb mt md) : s.listed.Perm s.swap.listed := by
  rw [perm_ext_iff_of_nodup reads.nodup_listed reads.swap.nodup_listed]
  intro kind
  rw [mem_listed, mem_listed]
  change _ ↔ (kind ∈ kinds s.draft ∧ kind ∈ kinds s.team) ∨
    ((kind ∈ kinds s.draft ∨ kind ∈ kinds s.team) ∧ kind ∉ kinds s.base)
  tauto

theorem merge_unread (isMarks : s.isMarks = true) (changed : ¬ s.Settled)
    (unread : ¬ s.Readable) : s.merge = .error () := by
  unfold Settled at changed
  rw [merge, if_pos isMarks, mergeMarks, dif_neg (by tauto), if_neg (by tauto)]
  split
  · rename_i mb mt md readB readT readD
    exact absurd ⟨mb, mt, md, readB, readT, readD⟩ unread
  · rfl

theorem member_typed (kind : String) :
    (typed mb mt md).member kind = ⟨kind = "marks", mb[kind]?, mt[kind]?, md[kind]?⟩ := by
  simp [typed, member, membersOf]

/-- A mark is not an array, so marks of a type that is itself called marks merge as a whole. -/
theorem merge_marks_typed (ht : Typed mt) (hd : Typed md)
    (changed : ¬ ((typed mb mt md).member "marks").Settled) :
    ((typed mb mt md).member "marks").merge = .error () := by
  have none_of {m : ExtTreeMap String Value} (isTyped : Typed m) {out : ExtTreeMap String Value}
      (read : marks m["marks"]? = .ok out) : m["marks"]? = none := by
    obtain ⟨-, -, -, absent | ⟨items, here, -⟩⟩ := marks_spec read
    · exact absent
    · have kind := isTyped "marks" _ here
      simp [typeOf, Json.index, Json.get?, Json.array, Json.asStr] at kind
  rw [member_typed] at changed ⊢
  refine merge_unread rfl changed ?_
  rintro ⟨xb, xt, xd, reads⟩
  exact changed (.inr (.inl ((none_of hd reads.draft).trans (none_of ht reads.team).symm)))

theorem settled_isSome {b t d : Option Value} (settled : d = b ∨ d = t ∨ t = b) :
    (if d = b then t else d).isSome ↔ (t.isSome ∧ d.isSome) ∨ ((t.isSome ∨ d.isSome) ∧ ¬ b.isSome) := by
  cases b <;> cases t <;> cases d <;> grind

/-- A mark that merges keeps its type, and is there unless a side removed it. -/
theorem merged_mark (ht : Typed mt) (hd : Typed md) {kind : String} {found : Option Value}
    (merged : ((typed mb mt md).member kind).merge = .ok found) :
    (∀ mark ∈ found, typeOf mark = some kind) ∧
      (found.isSome ↔ (kind ∈ mt ∧ kind ∈ md) ∨ ((kind ∈ mt ∨ kind ∈ md) ∧ kind ∉ mb)) := by
  have present (m : ExtTreeMap String Value) : kind ∈ m ↔ m[kind]?.isSome := by simp
  simp only [present]
  by_cases settled : ((typed mb mt md).member kind).Settled
  · rw [merge_settled settled] at merged
    rw [member_typed] at merged settled
    cases merged
    refine ⟨fun mark here => ?_, settled_isSome settled⟩
    dsimp only at here
    split at here
    · exact ht kind mark here
    · exact hd kind mark here
  · by_cases isMarks : kind = "marks"
    · subst isMarks
      rw [merge_marks_typed ht hd settled] at merged
      contradiction
    · have property : ((typed mb mt md).member kind).isMarks = false := by simp [member, isMarks]
      by_cases objects : ((typed mb mt md).member kind).Objects
      · rcases merge_objects property objects with ⟨failed, -⟩ | ⟨m, here, each⟩
        · rw [failed] at merged
          contradiction
        · rw [here] at merged
          cases merged
          rw [member_typed] at objects each
          obtain ⟨xt, isTeam⟩ := exists_object objects.1
          obtain ⟨xd, isDraft⟩ := exists_object objects.2.1
          dsimp only at isTeam isDraft
          refine ⟨?_, by simp [isTeam, isDraft]⟩
          rintro mark ⟨⟩
          have ours := typeOf_object.1 (ht kind _ isTeam)
          have theirs := typeOf_object.1 (hd kind _ isDraft)
          have members (m : ExtTreeMap String Value) : membersOf (some (object m)) = m := by
            simp [membersOf]
          have kept := each "type"
          rw [merge_settled (.inr (.inl (by
            simp [member, isTeam, isDraft, members, ours, theirs])))] at kept
          simp only [member, isTeam, isDraft, members, ours, theirs, ite_self, Except.ok.injEq] at kept
          exact typeOf_object.2 kept.symm
      · rw [merge_refused property settled objects] at merged
        contradiction

/-- The marks of these types, or nothing if there are none. -/
def listMarks (names : List String) (m : ExtTreeMap String Value) : Option Value :=
  if (names.filterMap (m[·]?)).isEmpty then none else some (.array (names.filterMap (m[·]?)))

/-- Marks merge by type, and are then listed. -/
theorem merge_typed (isMarks : s.isMarks = true) (changed : ¬ s.Settled) (reads : s.Reads mb mt md) :
    (s.merge = .error () ∧ (typed mb mt md).merge = .error ()) ∨
    ∃ m, (typed mb mt md).merge = .ok (some (object m)) ∧ s.merge = .ok (listMarks s.listed m) ∧
      Typed m ∧ ∀ kind, kind ∈ m ↔ kind ∈ s.listed := by
  have start : s.merge = ((typed mb mt md).merge >>= fun merged => match merged with
      | none => .error ()
      | some merged => (markNames [s.team, s.draft] >>= fun names =>
        .ok (if (names.filterMap merged.get?).isEmpty then none
          else some (.array (names.filterMap merged.get?))))) := by
    unfold Settled at changed
    rw [merge, if_pos isMarks, mergeMarks, dif_neg (by tauto), if_neg (by tauto)]
    split
    · rename_i xb xt xd readB readT readD
      cases reads.base.symm.trans readB
      cases reads.team.symm.trans readT
      cases reads.draft.symm.trans readD
      rfl
    · rename_i refused
      exact absurd reads.draft (refused mb mt md reads.base reads.team)
  rcases merge_objects (s := typed mb mt md) rfl (by simp [Objects, typed, isObject]) with
    ⟨failed, -⟩ | ⟨m, merged, each⟩
  · exact .inl ⟨by rw [start, failed]; rfl, failed⟩
  · obtain ⟨ht, -, inTeam, -⟩ := marks_spec reads.team
    obtain ⟨hd, -, inDraft, -⟩ := marks_spec reads.draft
    have inBase := (marks_spec reads.base).2.2.1
    have kept (kind : String) : m[kind]?.isSome ↔ kind ∈ s.listed := by
      rw [mem_listed, (merged_mark ht hd (each kind)).2, inTeam, inDraft, inBase]
    refine .inr ⟨m, merged, ?_, fun kind mark here => ?_, by simpa using kept⟩
    · have same : (kinds s.team ++ (kinds s.draft).filter (· ∉ kinds s.team)).filterMap (object m).get? =
          s.listed.filterMap (m[·]?) := by
        rw [listed, filterMap_filter]
        refine filterMap_congr fun kind mem => ?_
        rw [get?_object]
        split
        · rfl
        · rename_i dropped
          rw [← Option.not_isSome_iff_eq_none, kept, listed, mem_filter]
          exact fun listed => dropped listed.2
      rw [start, merged, markNames_eq reads.team reads.draft, listMarks, ← same]
      rfl
    · exact (merged_mark ht hd (each kind)).1 mark here

/-- Lists of marks of one type each are equal only if they list the same types in the same order. -/
theorem listMarks_inj {names names' : List String} {m m' : ExtTreeMap String Value} (isTyped : Typed m)
    (isTyped' : Typed m') (known : ∀ kind, kind ∈ m ↔ kind ∈ names)
    (known' : ∀ kind, kind ∈ m' ↔ kind ∈ names') :
    listMarks names m = listMarks names' m' ↔ names = names' ∧ m = m' := by
  have types {names : List String} {m : ExtTreeMap String Value} (isTyped : Typed m)
      (known : ∀ kind, kind ∈ m ↔ kind ∈ names) : (names.filterMap (m[·]?)).filterMap typeOf = names := by
    rw [filterMap_filterMap]
    refine (filterMap_congr fun kind mem => ?_).trans filterMap_some
    obtain ⟨mark, here⟩ := mem_iff_exists.1 ((known kind).2 mem)
    rw [here]
    exact isTyped kind mark here
  constructor
  · intro same
    have items : names.filterMap (m[·]?) = names'.filterMap (m'[·]?) := by
      unfold listMarks at same
      split at same <;> split at same <;> simp_all [Json.array_inj]
    have names_eq : names = names' := by rw [← types isTyped known, items, types isTyped' known']
    subst names_eq
    refine ⟨rfl, ExtTreeMap.ext_getElem? fun kind => ?_⟩
    cases here : m[kind]? with
    | none =>
      rw [OrderedMap.getElem?_eq_none_iff, known, ← known'] at here
      exact (OrderedMap.getElem?_eq_none_iff.2 here).symm
    | some mark =>
      have mem : mark ∈ names.filterMap (m[·]?) :=
        mem_filterMap.2 ⟨kind, (known kind).1 (mem_iff_exists.2 ⟨mark, here⟩), here⟩
      rw [items] at mem
      obtain ⟨kind', -, here'⟩ := mem_filterMap.1 mem
      have same : kind = kind' :=
        Option.some.inj ((isTyped kind mark here).symm.trans (isTyped' kind' mark here'))
      rw [same, here']
  · rintro ⟨rfl, rfl⟩
    rfl

/-- Changed on both sides, and neither objects nor lists of marks of distinct types. -/
def Clashes (s : Slot) : Prop := ¬ s.Settled ∧ ¬ if s.isMarks then s.Readable else s.Objects

/-- What is merged on the way to the merge of this. -/
def Part (s part : Slot) : Prop :=
  ¬ s.Settled ∧ if s.isMarks then ∃ mb mt md, s.Reads mb mt md ∧ part = typed mb mt md
    else s.Objects ∧ ∃ key, part = s.member key

/-- Marks that both sides changed, and whose merged order depends on which side is the team. -/
def Shuffled (s : Slot) : Prop := ¬ s.Settled ∧ s.isMarks = true ∧ s.listed ≠ s.swap.listed

/-- Here, or in one of the parts, however deep. -/
def Somewhere (P : Slot → Prop) (s : Slot) : Prop := ∃ part, Relation.ReflTransGen Part s part ∧ P part

theorem somewhere_iff {P : Slot → Prop} : s.Somewhere P ↔ P s ∨ ∃ part, s.Part part ∧ part.Somewhere P := by
  constructor
  · rintro ⟨deep, path, holds⟩
    rcases Relation.ReflTransGen.cases_head path with rfl | ⟨part, first, path⟩
    · exact .inl holds
    · exact .inr ⟨part, first, deep, path, holds⟩
  · rintro (holds | ⟨part, first, deep, path, holds⟩)
    · exact ⟨s, .refl, holds⟩
    · exact ⟨deep, .head first path, holds⟩

def size (s : Slot) : Nat := 2 * mergeDepth s.base s.team s.draft + s.isMarks.toNat

theorem Part.size_lt {part : Slot} (isPart : s.Part part) : part.size < s.size := by
  obtain ⟨changed, isPart⟩ := isPart
  cases isMarks : s.isMarks with
  | true =>
    rw [if_pos isMarks] at isPart
    obtain ⟨mb, mt, md, reads, rfl⟩ := isPart
    have := mergeDepth_marks (by unfold Settled at changed; tauto) reads.base reads.team reads.draft
    simp only [size, typed, isMarks, Bool.toNat_true, Bool.toNat_false]
    omega
  | false =>
    rw [if_neg (by simp [isMarks])] at isPart
    obtain ⟨objects, key, rfl⟩ := isPart
    have := @mergeDepth_members s.base s.team s.draft objects.1 key
    have := Bool.toNat_le (s.member key).isMarks
    simp only [size, member] at *
    omega

@[elab_as_elim]
theorem byParts {motive : Slot → Prop} (s : Slot)
    (step : ∀ s : Slot, (∀ part, s.Part part → motive part) → motive s) : motive s :=
  (measure size).wf.induction s fun s ih => step s fun part isPart => ih part isPart.size_lt

theorem merge_clashes (clashes : s.Clashes) : s.merge = .error () := by
  obtain ⟨changed, clashes⟩ := clashes
  cases isMarks : s.isMarks with
  | true => exact merge_unread isMarks changed (by simpa [isMarks] using clashes)
  | false => exact merge_refused isMarks changed (by simpa [isMarks] using clashes)

theorem clashes_swap (clashes : s.Clashes) : s.swap.Clashes := by
  refine ⟨settled_swap.not.2 clashes.1, ?_⟩
  have readable (here : s.swap.Readable) : s.Readable := by
    obtain ⟨mb, mt, md, reads⟩ := here
    exact ⟨mb, md, mt, reads.swap⟩
  have shape := clashes.2
  change ¬ if s.isMarks then s.swap.Readable else s.swap.Objects
  rw [objects_swap]
  split
  · rename_i isMarks
    rw [if_pos isMarks] at shape
    exact fun here => shape (readable here)
  · rename_i property
    rwa [if_neg property] at shape

/-- The four ways a merge goes. -/
theorem shapes (s : Slot) : s.Settled ∨ s.Clashes ∨ (¬ s.Settled ∧ s.isMarks = false ∧ s.Objects) ∨
    (¬ s.Settled ∧ s.isMarks = true ∧ s.Readable) := by
  unfold Clashes
  cases s.isMarks with
  | true =>
    rw [if_pos rfl]
    tauto
  | false =>
    rw [if_neg (by simp)]
    tauto

section Somewhere

variable {P : Slot → Prop}

theorem somewhere_settled (settled : s.Settled) : s.Somewhere P ↔ P s := by
  have whole (part : Slot) : ¬ s.Part part := fun isPart => isPart.1 settled
  rw [somewhere_iff]
  simp [whole]

theorem somewhere_objects (changed : ¬ s.Settled) (property : s.isMarks = false) (objects : s.Objects) :
    s.Somewhere P ↔ P s ∨ ∃ key, (s.member key).Somewhere P := by
  rw [somewhere_iff]
  simp [Part, changed, property, objects, ↓existsAndEq]

theorem somewhere_reads (changed : ¬ s.Settled) (isMarks : s.isMarks = true) (reads : s.Reads mb mt md) :
    s.Somewhere P ↔ P s ∨ (typed mb mt md).Somewhere P := by
  have only (part : Slot) : s.Part part ↔ part = typed mb mt md := by
    simp only [Part, changed, isMarks, not_false_eq_true, true_and, if_true]
    constructor
    · rintro ⟨xb, xt, xd, reads', rfl⟩
      cases reads.base.symm.trans reads'.base
      cases reads.team.symm.trans reads'.team
      cases reads.draft.symm.trans reads'.draft
      rfl
    · rintro rfl
      exact ⟨mb, mt, md, reads, rfl⟩
  rw [somewhere_iff]
  simp [only]

end Somewhere

theorem part_member (changed : ¬ s.Settled) (property : s.isMarks = false) (objects : s.Objects)
    (key : String) : s.Part (s.member key) := ⟨changed, by simp [property, objects]⟩

theorem part_typed (changed : ¬ s.Settled) (isMarks : s.isMarks = true) (reads : s.Reads mb mt md) :
    s.Part (typed mb mt md) := ⟨changed, by rw [if_pos isMarks]; exact ⟨mb, mt, md, reads, rfl⟩⟩

/-- A merge fails exactly where something on its way clashes. -/
theorem merge_eq_error (s : Slot) : s.merge = .error () ↔ s.Somewhere Clashes := by
  induction s using byParts with
  | step s ih =>
    rcases s.shapes with settled | clashes | ⟨changed, property, objects⟩ |
      ⟨changed, isMarks, mb, mt, md, reads⟩
    · rw [merge_settled settled, somewhere_settled settled]
      simp [Clashes, settled]
    · rw [somewhere_iff]
      simp [merge_clashes clashes, clashes]
    · have quiet : ¬ s.Clashes := by simp [Clashes, property, objects]
      rw [somewhere_objects changed property objects, or_iff_right quiet]
      simp only [← ih _ (part_member changed property objects _)]
      rcases merge_objects property objects with ⟨failed, key, here⟩ | ⟨m, merged, each⟩
      · exact ⟨fun _ => ⟨key, here⟩, fun _ => failed⟩
      · simp [merged, each]
    · have quiet : ¬ s.Clashes := by
        rw [Clashes, if_pos isMarks]
        exact fun clashes => clashes.2 ⟨mb, mt, md, reads⟩
      rw [somewhere_reads changed isMarks reads,
        or_iff_right quiet, ← ih _ (part_typed changed isMarks reads)]
      rcases merge_typed isMarks changed reads with ⟨failed, here⟩ | ⟨m, here, merged, -⟩
      · simp [failed, here]
      · simp [merged, here]

/-- How the results of a merge with the sides exchanged are related. -/
def Related (s : Slot) : Value → Value → Prop := if s.isMarks then MemberReordered "marks" else Reordered

theorem related_member {key : String} {v w : Value} (related : (s.member key).Related v w) :
    MemberReordered key v w := by
  unfold Related member at related
  split at related
  · rename_i isMarks
    rw [of_decide_eq_true isMarks]
    exact related
  · exact .plain related

theorem related_self (s : Slot) (v : Value) : s.Related v v := by
  unfold Related
  split
  · exact .plain (.same v)
  · exact .same v

theorem forall₂_filterMap {m m' : ExtTreeMap String Value} (isTyped : Typed m)
    (agree : MembersAgree MemberReordered m m') (names : List String) :
    List.Forall₂ Reordered (names.filterMap (m[·]?)) (names.filterMap (m'[·]?)) := by
  induction names with
  | nil => exact .nil
  | cons name names ih =>
    cases found : m[name]? with
    | none =>
      have found' : m'[name]? = none := by
        rwa [OrderedMap.getElem?_eq_none_iff, ← agree.keys, ← OrderedMap.getElem?_eq_none_iff]
      rw [filterMap_cons_none found, filterMap_cons_none found']
      exact ih
    | some v =>
      obtain ⟨w, found'⟩ := mem_iff_exists.1 ((agree.keys name).1 (mem_iff_exists.2 ⟨v, found⟩))
      rw [filterMap_cons_some found, filterMap_cons_some found']
      refine .cons ?_ ih
      have related := agree.members name v w found found'
      cases related with
      | plain related => exact related
      | marks =>
        have kind := isTyped _ _ found
        simp [typeOf, Json.index, Json.get?, Json.array, Json.asStr] at kind

theorem listMarks_swap (reads : s.Reads mb mt md) {m m' : ExtTreeMap String Value} (isTyped : Typed m)
    (agree : MembersAgree MemberReordered m m') :
    Agree (MemberReordered "marks") (.ok (listMarks s.listed m)) (.ok (listMarks s.swap.listed m')) := by
  have shuffled := reads.perm_listed.filterMap (m[·]?)
  have reordered := forall₂_filterMap isTyped agree s.swap.listed
  have empty : (s.listed.filterMap (m[·]?)).isEmpty = (s.swap.listed.filterMap (m'[·]?)).isEmpty := by
    rw [Bool.eq_iff_iff, isEmpty_iff_length_eq_zero, isEmpty_iff_length_eq_zero,
      shuffled.length_eq, reordered.length_eq]
  simp only [listMarks, empty]
  split
  · exact .absent
  · refine .value (.marks shuffled reordered.length_eq ?_)
    intro i x y here here'
    obtain ⟨lt, rfl⟩ := List.getElem?_eq_some_iff.1 here
    obtain ⟨lt', rfl⟩ := List.getElem?_eq_some_iff.1 here'
    exact reordered.get lt lt'

/-- Exchanging the sides of a merge of properties, or of marks, changes at most the order of marks. -/
theorem merge_swap (s : Slot) : Agree s.Related s.merge s.swap.merge := by
  induction s using byParts with
  | step s ih =>
    rcases s.shapes with settled | clashes | ⟨changed, property, objects⟩ |
      ⟨changed, isMarks, mb, mt, md, reads⟩
    · rw [merge_settled_swap settled]
      exact .refl s.related_self _
    · rw [merge_clashes clashes, merge_clashes (clashes_swap clashes)]
      exact .failed
    · have each (key : String) := ih _ (part_member changed property objects key)
      rw [Related, property]
      rcases merge_objects property objects with ⟨failed, key, here⟩ | ⟨m, merged, members⟩ <;>
        rcases merge_objects (s := s.swap) property (objects_swap.2 objects) with
          ⟨failed', key', here'⟩ | ⟨m', merged', members'⟩
      · rw [failed, failed']
        exact .failed
      · have failed' := (each key).error_iff.1 here
        cases failed'.symm.trans (members' key)
      · have failed := (each key').error_iff.2 here'
        cases failed.symm.trans (members key')
      · rw [merged, merged']
        have agree : MembersAgree MemberReordered m m' := .of_agree fun key => by
          rw [← members, ← members']
          exact (each key).imp fun v w => related_member
        exact .value (.object agree.keys agree.members)
    · have whole := ih _ (part_typed changed isMarks reads)
      rw [Related, isMarks]
      rcases merge_typed isMarks changed reads with ⟨failed, here⟩ | ⟨m, here, merged, isTyped, -⟩ <;>
        rcases merge_typed (s := s.swap) isMarks (settled_swap.not.2 changed) reads.swap with
          ⟨failed', here'⟩ | ⟨m', here', merged', -⟩
      · rw [failed, failed']
        exact .failed
      · cases (whole.error_iff.1 here).symm.trans here'
      · cases (whole.error_iff.2 here').symm.trans here
      · rw [merged, merged']
        change Agree _ _ (typed mb md mt).merge at whole
        rw [here, here'] at whole
        cases whole with
        | value related =>
          obtain ⟨w, same, agree⟩ := related.members
          cases Json.object_inj.1 same
          exact listMarks_swap reads isTyped agree

/-- The merges with the sides exchanged are equal exactly where they fail, or list the same marks in
the same order wherever both sides changed marks. -/
theorem merge_swap_eq (s : Slot) :
    s.swap.merge = s.merge ↔ s.Somewhere Clashes ∨ ¬ s.Somewhere Shuffled := by
  induction s using byParts with
  | step s ih =>
    by_cases clash : s.Somewhere Clashes
    · have failed := (merge_eq_error s).2 clash
      simp [failed, s.merge_swap.error_iff.1 failed, clash]
    simp only [clash, false_or]
    rcases s.shapes with settled | clashes | ⟨changed, property, objects⟩ |
      ⟨changed, isMarks, mb, mt, md, reads⟩
    · rw [somewhere_settled settled]
      simp [merge_settled_swap settled, Shuffled, settled]
    · exact absurd ((somewhere_iff).2 (.inl clashes)) clash
    · have quiet : ¬ s.Shuffled := by simp [Shuffled, property]
      rw [somewhere_objects changed property objects] at clash ⊢
      rw [not_or, not_exists] at clash
      rw [or_iff_right quiet, not_exists]
      have each (key : String) : (s.swap.member key).merge = (s.member key).merge ↔
          ¬ (s.member key).Somewhere Shuffled :=
        (ih _ (part_member changed property objects key)).trans (or_iff_right (clash.2 key))
      have merges (key : String) : (s.member key).merge ≠ .error () :=
        (merge_eq_error _).not.2 (clash.2 key)
      rcases merge_objects property objects with ⟨-, key, here⟩ | ⟨m, merged, members⟩
      · exact absurd here (merges key)
      rcases merge_objects (s := s.swap) property (objects_swap.2 objects) with
        ⟨-, key, here⟩ | ⟨m', merged', members'⟩
      · exact absurd ((s.member key).merge_swap.error_iff.2 here) (merges key)
      simp only [← each, merged, merged', members, members', Except.ok.injEq, Option.some.injEq, object_inj]
      exact ⟨fun same key => by rw [same], fun same => ExtTreeMap.ext_getElem? same⟩
    · rw [somewhere_reads changed isMarks reads] at clash ⊢
      rw [not_or] at clash ⊢
      have whole : (typed mb md mt).merge = (typed mb mt md).merge ↔
        ¬ (typed mb mt md).Somewhere Shuffled :=
        (ih _ (part_typed changed isMarks reads)).trans (or_iff_right clash.2)
      rcases merge_typed isMarks changed reads with ⟨-, here⟩ | ⟨m, here, merged, isTyped, known⟩
      · exact absurd ((merge_eq_error _).1 here) clash.2
      rcases merge_typed (s := s.swap) isMarks (settled_swap.not.2 changed) reads.swap with
        ⟨-, here'⟩ | ⟨m', here', merged', isTyped', known'⟩
      · exact absurd ((merge_eq_error _).1 ((typed mb mt md).merge_swap.error_iff.2 here')) clash.2
      rw [← whole, here, here', merged, merged', Except.ok.injEq,
        listMarks_inj isTyped' isTyped known' known]
      simp only [Shuffled, changed, isMarks, Except.ok.injEq, Option.some.injEq, object_inj,
        not_false_eq_true,
        true_and, ne_eq, not_not, eq_comm (a := s.listed)]

end Slot

theorem mergeProperty_swap (b t d : Option Value) :
    Agree Reordered (mergeProperty b t d) (mergeProperty b d t) := Slot.merge_swap ⟨false, b, t, d⟩


end Dynodoc.RichText
