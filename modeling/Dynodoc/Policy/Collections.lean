import Dynodoc.Lib.Quota
import Dynodoc.Policy.Strategy
import Dynodoc.RichText.Weave

/-! Comments and suggestions merged element by element. A suggestion has an identifier and is
decided on its own; a comment is its content, and comments are counted as a multiset. -/
namespace Dynodoc.Policy
open Std (ExtTreeMap)
open Quota (take refill tally quotaOf Taken)
open List OrderedMap Option Std.ExtTreeMap

variable {env : Externals}

def bound : Nat := 2 ^ 20

/-- The value a three-way choice settles on; the inner `none` is absence. -/
def settle (base team draft : Option Value) : Option (Option Value) :=
  if draft = base ∨ draft = team then some team
  else if team = base then some draft
  else none

def settleKey (b t d : ExtTreeMap String Value) (acc : ExtTreeMap String Value × List String)
    (key : String) : ExtTreeMap String Value × List String :=
  if key ∈ acc.1 ∨ key ∈ acc.2 then acc
  else
    match settle b[key]? t[key]? d[key]? with
    | some (some value) => (acc.1.insert key value, acc.2)
    | some none => acc
    | none => (acc.1, acc.2 ++ [key])

def suggestions (i : Inputs) : Resolved :=
  match i.base.asObject, i.team.asObject, i.draft.asObject with
  | some b, some t, some d =>
    let (out, differ) := (b.keys ++ t.keys ++ d.keys).foldl (settleKey b t d) (∅, [])
    if differ = [] then .merged (.object out) "suggestions-by-id"
    else (Resolved.conflict .elementDiffers "suggestions-by-id").withNotes
      ((differ.insertionSort (· ≤ ·)).map fun id =>
        "suggestion `" ++ id ++ "` was changed differently on both sides")
  | _, _, _ => .conflict .unsupportedShape "suggestions"

/-- How often one content occurs in the base, the team's version and the draft. -/
structure Counts where
  base : Int
  team : Int
  draft : Int

def Counts.add (c : Counts) : Nat → Counts
  | 0 => { c with base := c.base + 1 }
  | 1 => { c with team := c.team + 1 }
  | _ => { c with draft := c.draft + 1 }

def Counts.wanted (c : Counts) : Int :=
  let dt := c.team - c.base
  let dd := c.draft - c.base
  c.base + if 0 ≤ dt ∧ 0 ≤ dd then max dt dd else if dt ≤ 0 ∧ dd ≤ 0 then min dt dd else dt + dd

section Comments

variable (env : Externals)

def countItem (side : Nat) (counts : ExtTreeMap String (Counts × Value)) (item : Value) :
    ExtTreeMap String (Counts × Value) :=
  let key := canonicalJson env item
  let entry := counts[key]?.getD (⟨0, 0, 0⟩, item)
  counts.insert key (entry.1.add side, entry.2)

def countAll (b t d : List Value) : ExtTreeMap String (Counts × Value) :=
  d.foldl (countItem env 2) (t.foldl (countItem env 1) (b.foldl (countItem env 0) ∅))

/-- The base's comments in its order, then new ones in the order of their content. -/
def mergeComments (b t d : List Value) : List Value :=
  let counts := countAll env b t d
  let want := counts.map fun _ entry => entry.1.wanted
  let (out, left) := b.foldl (take (canonicalJson env)) ([], want)
  out ++ refill (fun key => counts[key]?.map Prod.snd) left

def comments (i : Inputs) : Resolved :=
  match i.base.asArray, i.team.asArray, i.draft.asArray with
  | some b, some t, some d => .merged (.array (mergeComments env b t d)) "comments-multiset"
  | _, _, _ => .conflict .unsupportedShape "comments"

def size (v : Value) : Nat := (canonicalJson env v).utf8ByteSize

def elementWise : Strategy where
  id := "dynodoc.collection.element-wise.v1"
  aspects := [.comments, .suggestions]
  maxInputBytes := some bound
  resolve i ctx :=
    match unchangedSide i with
    | some done => done
    | none =>
      if [i.base, i.team, i.draft].any fun v => bound < size env v then .conflict .tooLarge "bound"
      else
        match ctx.aspect with
        | some .suggestions => suggestions i
        | some .comments => comments env i
        | _ => .conflict .unsupportedShape "aspect"

end Comments

section Counting

variable {b t d : List Value} {counts : ExtTreeMap String (Counts × Value)}

def occurs (env : Externals) (l : List Value) (key : String) : Nat := tally (canonicalJson env) l key

def Counts.plus (c : Counts) (side n : Nat) : Counts :=
  match side with
  | 0 => { c with base := c.base + n }
  | 1 => { c with team := c.team + n }
  | _ => { c with draft := c.draft + n }

def countsAt (counts : ExtTreeMap String (Counts × Value)) (key : String) : Counts :=
  (counts[key]?.map Prod.fst).getD ⟨0, 0, 0⟩

/-- Each content is stored with a value of that content. -/
def Own (env : Externals) (counts : ExtTreeMap String (Counts × Value)) : Prop :=
  ∀ key entry, counts[key]? = some entry → canonicalJson env entry.2 = key

theorem countItem_own {side : Nat} {item : Value} (own : Own env counts) :
    Own env (countItem env side counts item) := by
  intro key entry found
  unfold countItem at found
  rw [OrderedMap.getElem?_insert] at found
  split at found
  · rename_i same
    cases found
    subst same
    cases known : counts[canonicalJson env item]? with
    | none => rfl
    | some entry => exact own _ entry known
  · exact own key entry found

theorem countsAt_countItem (side : Nat) (item : Value) (key : String) :
    countsAt (countItem env side counts item) key =
      if canonicalJson env item = key then (countsAt counts key).add side else countsAt counts key := by
  unfold countsAt countItem
  rw [OrderedMap.getElem?_insert]
  by_cases same : canonicalJson env item = key
  · subst same
    cases known : counts[canonicalJson env item]? <;> simp
  · simp [same, Ne.symm same]

open Counts

theorem Counts.plus_add (c : Counts) (side n : Nat) : (c.add side).plus side n = c.plus side (n + 1) := by
  unfold plus add
  split <;> simp only [mk.injEq, true_and, and_true] <;> omega

theorem foldl_countItem (side : Nat) (items : List Value) (own : Own env counts) :
    Own env (items.foldl (countItem env side) counts) ∧
      (∀ key, countsAt (items.foldl (countItem env side) counts) key =
        (countsAt counts key).plus side (occurs env items key)) ∧
      ∀ key, key ∈ items.foldl (countItem env side) counts ↔
        key ∈ counts ∨ ∃ item ∈ items, canonicalJson env item = key := by
  induction items generalizing counts with
  | nil =>
    refine ⟨own, fun key => ?_, by simp⟩
    unfold plus
    split <;> simp [occurs, tally]
  | cons item items ih =>
    obtain ⟨own, each, known⟩ := ih (countItem_own own)
    refine ⟨own, fun key => ?_, fun key => ?_⟩
    · rw [foldl_cons, each, countsAt_countItem, occurs, occurs, Quota.tally_cons]
      split
      · rw [plus_add]
      · rfl
    · rw [foldl_cons, known, countItem]
      simp only [mem_insert, Std.compare_eq_iff_eq, mem_cons, exists_eq_or_imp]
      tauto

variable (env) in
theorem countAll_spec (b t d : List Value) :
    Own env (countAll env b t d) ∧
      (∀ key, countsAt (countAll env b t d) key = ⟨occurs env b key, occurs env t key, occurs env d key⟩) ∧
      ∀ key, key ∈ countAll env b t d ↔ ∃ item ∈ b ++ t ++ d, canonicalJson env item = key := by
  have empty : Own env (∅ : ExtTreeMap String (Counts × Value)) := by
    intro key entry found
    simp at found
  obtain ⟨own, base, known⟩ := foldl_countItem 0 b empty
  obtain ⟨own, team, known'⟩ := foldl_countItem 1 t own
  obtain ⟨own, draft, known''⟩ := foldl_countItem 2 d own
  refine ⟨own, fun key => ?_, fun key => ?_⟩
  · rw [countAll, draft, team, base]
    simp [plus, countsAt]
  · rw [countAll, known'', known', known]
    simp only [not_mem_empty, false_or, mem_append]
    constructor
    · rintro ((⟨item, mem, same⟩ | ⟨item, mem, same⟩) | ⟨item, mem, same⟩)
      · exact ⟨item, by simp [mem], same⟩
      · exact ⟨item, by simp [mem], same⟩
      · exact ⟨item, by simp [mem], same⟩
    · rintro ⟨item, (mem | mem) | mem, same⟩
      · exact .inl (.inl ⟨item, mem, same⟩)
      · exact .inl (.inr ⟨item, mem, same⟩)
      · exact .inr ⟨item, mem, same⟩

/-- The counts of a content that is in none of the three are zero, and so is what is wanted. -/
theorem wanted_getElem? (b t d : List Value) (key : String) :
    ((countAll env b t d).map fun _ entry => entry.1.wanted)[key]? =
      if key ∈ countAll env b t d then
        some (wanted ⟨occurs env b key, occurs env t key, occurs env d key⟩) else none := by
  rw [ExtTreeMap.getElem?_map, ← (countAll_spec env b t d).2.1 key, countsAt]
  by_cases known : key ∈ countAll env b t d
  · rw [if_pos known]
    obtain ⟨entry, found⟩ := mem_iff_exists.1 known
    simp [found]
  · rw [if_neg known, getElem?_eq_none_iff.2 known]
    rfl

theorem occurs_eq_zero {l : List Value} {key : String}
    (absent : ¬ ∃ item ∈ l, canonicalJson env item = key) : occurs env l key = 0 := by
  unfold occurs tally
  rw [countP_eq_zero]
  intro item mem same
  exact absent ⟨item, mem, by simpa using same⟩

variable (env) in
theorem quotaOf_wanted (b t d : List Value) (key : String) :
    quotaOf ((countAll env b t d).map fun _ entry => entry.1.wanted) key =
      (wanted ⟨occurs env b key, occurs env t key, occurs env d key⟩).toNat := by
  unfold quotaOf
  rw [wanted_getElem?]
  split
  · rfl
  rename_i absent
  rw [(countAll_spec env b t d).2.2] at absent
  have zero (l : List Value) (part : l ⊆ b ++ t ++ d) : occurs env l key = 0 :=
    occurs_eq_zero fun ⟨item, mem, same⟩ => absent ⟨item, part mem, same⟩
  rw [zero b (by simp), zero t (by simp), zero d (by simp)]
  rfl

theorem Counts.wanted_swap (c : Counts) : wanted ⟨c.base, c.draft, c.team⟩ = c.wanted := by
  simp only [wanted]
  split <;> split <;> omega

theorem mem_countAll_swap (b t d : List Value) (key : String) :
    key ∈ countAll env b d t ↔ key ∈ countAll env b t d := by
  rw [(countAll_spec env b d t).2.2, (countAll_spec env b t d).2.2]
  simp only [mem_append]
  constructor <;> rintro ⟨item, mem, same⟩ <;> exact ⟨item, by tauto, same⟩

theorem wanted_swap (b t d : List Value) :
    ((countAll env b d t).map fun _ entry => entry.1.wanted) =
      (countAll env b t d).map fun _ entry => entry.1.wanted := by
  apply ExtTreeMap.ext_getElem?
  intro key
  rw [wanted_getElem?, wanted_getElem?]
  simp only [mem_countAll_swap b t d key]
  rw [← Counts.wanted_swap ⟨occurs env b key, occurs env t key, occurs env d key⟩]

theorem stored_swap (readable : env.Readable) (b t d : List Value) (key : String) :
    (countAll env b d t)[key]?.map Prod.snd = (countAll env b t d)[key]?.map Prod.snd := by
  by_cases known : key ∈ countAll env b t d
  · have known' := (mem_countAll_swap b t d key).2 known
    obtain ⟨entry, found⟩ := mem_iff_exists.1 known
    obtain ⟨entry', found'⟩ := mem_iff_exists.1 known'
    have same := ((countAll_spec env b d t).1 key entry' found').trans
      ((countAll_spec env b t d).1 key entry found).symm
    rw [found, found', map_some, map_some, canonicalJson_injective readable same]
  · have known' := fun mem => known ((mem_countAll_swap b t d key).1 mem)
    rw [getElem?_eq_none_iff.2 known, getElem?_eq_none_iff.2 known']

theorem mergeComments_swap (readable : env.Readable) (b t d : List Value) :
    mergeComments env b d t = mergeComments env b t d := by
  unfold mergeComments
  dsimp only
  rw [wanted_swap b t d, funext (stored_swap readable b t d)]

theorem Counts.wanted_nonneg {b t d : Nat} : 0 ≤ wanted ⟨b, t, d⟩ := by
  simp only [wanted]
  split
  · omega
  · split <;> omega

variable (env) in
/-- The merged comments: what is kept of the base, in its order, and what is new behind it. -/
theorem mergeComments_spec (b t d : List Value) :
    ∃ kept added, mergeComments env b t d = kept ++ added ∧ kept.Sublist b ∧
      ∀ key, (occurs env kept key = min (occurs env b key) (occurs env (kept ++ added) key)) ∧
        (occurs env (kept ++ added) key : Int) =
          wanted ⟨occurs env b key, occurs env t key, occurs env d key⟩ := by
  obtain ⟨own, -, -⟩ := countAll_spec env b t d
  obtain ⟨kept, result, part, most, left⟩ := Quota.foldl_take (canonicalJson env) b []
    ((countAll env b t d).map fun _ entry => entry.1.wanted)
  unfold mergeComments
  dsimp only
  rw [result]
  refine ⟨kept, _, rfl, part, fun key => ?_⟩
  have stored : ∀ key n, ((b.foldl (take (canonicalJson env))
      ([], (countAll env b t d).map fun _ entry => entry.1.wanted)).2)[key]? = some n →
      ∃ a, (countAll env b t d)[key]?.map Prod.snd = some a ∧ canonicalJson env a = key := by
    intro key n found
    rw [left key, wanted_getElem?] at found
    split at found
    · rename_i known
      obtain ⟨entry, found⟩ := mem_iff_exists.1 known
      exact ⟨entry.2, by rw [found]; rfl, own key entry found⟩
    · contradiction
  have added := Quota.tally_refill stored key
  have nonneg := @Counts.wanted_nonneg (occurs env b key) (occurs env t key) (occurs env d key)
  have quota := quotaOf_wanted env b t d key
  have rest : quotaOf (b.foldl (take (canonicalJson env))
      ([], (countAll env b t d).map fun _ entry => entry.1.wanted)).2 key =
      quotaOf ((countAll env b t d).map fun _ entry => entry.1.wanted) key - occurs env kept key := by
    unfold quotaOf
    rw [left key]
    cases (((countAll env b t d).map fun _ entry => entry.1.wanted)[key]?) with
    | none => simp
    | some n =>
      simp only [map_some, getD_some, occurs]
      omega
  have kept_le := most key
  unfold occurs at *
  rw [Quota.tally_append]
  omega

end Counting

structure CommentsMerged (b t d out : List Value) : Prop where
  added : ∀ v, b.count v ≤ t.count v → b.count v ≤ d.count v →
    (out.count v : Int) = b.count v + max ((t.count v : Int) - b.count v) (d.count v - b.count v)
  removed : ∀ v, t.count v ≤ b.count v → d.count v ≤ b.count v →
    (out.count v : Int) = b.count v + min ((t.count v : Int) - b.count v) (d.count v - b.count v)
  otherwise : ∀ v, (t.count v < b.count v ∧ b.count v < d.count v) ∨
      (d.count v < b.count v ∧ b.count v < t.count v) →
    (out.count v : Int) = t.count v + d.count v - b.count v
  base_first : ∃ kept added, out = kept ++ added ∧ kept.Sublist b ∧
    ∀ v, kept.count v = min (b.count v) (out.count v)

theorem occurs_eq_count (readable : env.Readable) (l : List Value) (v : Value) :
    occurs env l (canonicalJson env v) = l.count v := by
  refine countP_congr fun a _ => ?_
  simp [(canonicalJson_injective readable).eq_iff]

/-- Comments merge as a multiset whichever side is the team, and the base keeps its order. -/
theorem comments_merge_as_multiset (env : Externals) (readable : env.Readable) {b t d : List Value}
    {ctx : Context} (about : ctx.aspect = some .comments)
    (fits : ∀ l ∈ [b, t, d], size env (.array l) ≤ bound) (team : t ≠ b) (draft : d ≠ b) (differ : d ≠ t) :
    ∃ out, CommentsMerged b t d out ∧
      (elementWise env).resolve ⟨.array b, .array t, .array d⟩ ctx =
        .merged (.array out) "comments-multiset" ∧
      (elementWise env).resolve ⟨.array b, .array d, .array t⟩ ctx =
        .merged (.array out) "comments-multiset" := by
  have resolves {t d : List Value} (fits : ∀ l ∈ [b, t, d], size env (.array l) ≤ bound) (team : t ≠ b)
      (draft : d ≠ b) (differ : d ≠ t) : (elementWise env).resolve ⟨.array b, .array t, .array d⟩ ctx =
        .merged (.array (mergeComments env b t d)) "comments-multiset" := by
    have changed : unchangedSide ⟨.array b, .array t, .array d⟩ = none := by
      rw [unchangedSide_eq_none]
      simp [team, draft, differ]
    have small : ([.array b, .array t, .array d].any fun v => bound < size env v) = false := by
      simp [fits]
    simp only [elementWise, changed, small, about, comments, Json.asArray_array]
    rfl
  obtain ⟨kept, added, result, part, counted⟩ := mergeComments_spec env b t d
  have count (v : Value) : kept.count v = min (b.count v) ((kept ++ added).count v) ∧
      ((kept ++ added).count v : Int) = Counts.wanted ⟨b.count v, t.count v, d.count v⟩ := by
    have here := counted (canonicalJson env v)
    simp only [occurs_eq_count readable] at here
    exact here
  refine ⟨kept ++ added, ⟨fun v more more' => ?_, fun v less less' => ?_, fun v mixed => ?_,
    kept, added, rfl, part, fun v => (count v).1⟩, ?_, ?_⟩
  · rw [(count v).2, Counts.wanted]
    simp only
    rw [if_pos (by omega)]
  · rw [(count v).2, Counts.wanted]
    simp only
    split
    · omega
    · rw [if_pos (by omega)]
  · rw [(count v).2, Counts.wanted]
    simp only
    omega
  · rw [← result]
    exact resolves fits team draft differ
  · rw [← result, ← mergeComments_swap readable b t d]
    refine resolves (fun l mem => fits l ?_) draft team (Ne.symm differ)
    simp only [mem_cons] at mem ⊢
    tauto

def sampleComment (body : String) : Value := .fields [("node_id", .null), ("body", .str body)]

def sampleContext : Context := ⟨none, "", "$comments", some .comments, .document, ∅⟩

/-- Two reviewers: one takes the only comment back and adds another, the other repeats it. -/
theorem reviewers_comments_merge : ∃ out,
    CommentsMerged [sampleComment "a"] [sampleComment "z"] [sampleComment "a", sampleComment "a"] out ∧
      (elementWise RichText.sampleText).resolve ⟨.array [sampleComment "a"], .array [sampleComment "z"],
        .array [sampleComment "a", sampleComment "a"]⟩ sampleContext =
          .merged (.array out) "comments-multiset" ∧
      (elementWise RichText.sampleText).resolve ⟨.array [sampleComment "a"],
        .array [sampleComment "a", sampleComment "a"], .array [sampleComment "z"]⟩ sampleContext =
          .merged (.array out) "comments-multiset" :=
  comments_merge_as_multiset RichText.sampleText RichText.sampleText_readable rfl (by decide +kernel)
    (by decide +kernel) (by decide +kernel) (by decide +kernel)

end Dynodoc.Policy
