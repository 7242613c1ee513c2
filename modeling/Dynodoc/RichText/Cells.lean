import Mathlib.Data.List.SplitBy
import Dynodoc.Lib.Loop
import Dynodoc.RichText.Canonical

/-! The sequence of characters and objects that a text container holds, each with its metadata,
and the tokens that stand for it while a patch or a merge is computed. -/
namespace Dynodoc.RichText
open Std (ExtTreeMap)
open Loop List Json

variable {tokens : List Scalar} {members : ExtTreeMap String Value} {values : List Value}
  {v : Value} {token : Scalar} {i : Nat}

/-- A character with the metadata of its text node, or `atom` with the object itself. -/
structure Cell where
  ch : Char
  metadata : Value
  deriving DecidableEq

variable {cs : List Cell}

def withoutText (child : Value) : Value :=
  match child.asObject with
  | some members => .object (members.erase "text")
  | none => child

def childCells (child : Value) : List Cell :=
  if child.index "type" = .str "text" then
    ((child.index "text").asStr.getD "").toList.map fun ch => ⟨ch, withoutText child⟩
  else [⟨atom, child⟩]

def cells (v : Value) : List Cell := ((v.index "content").asArray.getD []).flatMap childCells

def cellAt (values : List Value) (token : Scalar) : Option Cell :=
  values[token.style]?.map fun metadata => ⟨token.ch, metadata⟩

/-- The tokens stand for the cells under a table of styles. -/
def Reads (values : List Value) (tokens : List Scalar) (cells : List Cell) : Prop :=
  tokens.map (cellAt values) = cells.map some

section Reads

variable {longer : List Value} {rest : List Scalar} {ds : List Cell}

theorem Reads.nil : Reads values [] [] := rfl

theorem Reads.append (first : Reads values tokens cs) (second : Reads values rest ds) :
    Reads values (tokens ++ rest) (cs ++ ds) := by
  rw [Reads, map_append, map_append, first, second]

theorem getElem?_grown (grown : values <+: longer) (found : values[i]? = some v) :
    longer[i]? = some v := by
  obtain ⟨more, rfl⟩ := grown
  rw [getElem?_append_left (List.getElem?_eq_some_iff.1 found).1, found]

theorem cellAt_mono (grown : values <+: longer) {cell : Cell}
    (read : cellAt values token = some cell) : cellAt longer token = some cell := by
  obtain ⟨metadata, found, rfl⟩ := Option.map_eq_some_iff.1 read
  rw [cellAt, getElem?_grown grown found]
  rfl

theorem Reads.mono (grown : values <+: longer) (reads : Reads values tokens cs) :
    Reads longer tokens cs := by
  induction tokens generalizing cs with
  | nil => exact reads
  | cons token tokens ih =>
    cases cs with
    | nil => contradiction
    | cons c cs =>
      obtain ⟨first, later⟩ := List.cons.inj reads
      rw [Reads, map_cons, map_cons, cellAt_mono grown first, ih later]

theorem Reads.length (reads : Reads values tokens cs) : tokens.length = cs.length := by
  simpa using congrArg List.length reads

theorem Reads.chars (reads : Reads values tokens cs) : tokens.map Scalar.ch = cs.map Cell.ch := by
  induction tokens generalizing cs with
  | nil =>
    cases cs with
    | nil => rfl
    | cons c cs => contradiction
  | cons token tokens ih =>
    cases cs with
    | nil => contradiction
    | cons c cs =>
      obtain ⟨first, later⟩ := List.cons.inj reads
      obtain ⟨metadata, found, rfl⟩ := Option.map_eq_some_iff.1 first
      rw [map_cons, map_cons, ih later]

theorem Reads.slice (reads : Reads values tokens cs) (i n : Nat) :
    Reads values ((tokens.drop i).take n) ((cs.drop i).take n) := by
  rw [Reads, map_take, map_drop, reads, map_take, map_drop]

theorem Reads.split (reads : Reads values (tokens ++ rest) cs) :
    ∃ first second, cs = first ++ second ∧ Reads values tokens first ∧ Reads values rest second := by
  rw [Reads, map_append] at reads
  obtain ⟨first, second, rfl, left, right⟩ := map_eq_append_iff.1 reads.symm
  exact ⟨first, second, rfl, left.symm, right.symm⟩

theorem Reads.at (reads : Reads values tokens cs)
    (here : tokens[i]? = some token) : ∃ cell, cs[i]? = some cell ∧ cell.ch = token.ch ∧
      values[token.style]? = some cell.metadata := by
  have both : (tokens.map (cellAt values))[i]? = (cs.map some)[i]? := by rw [reads]
  rw [getElem?_map, getElem?_map, here] at both
  obtain ⟨cell, found, read⟩ := Option.map_eq_some_iff.1 both.symm
  obtain ⟨metadata, value, rfl⟩ := Option.map_eq_some_iff.1 read.symm
  exact ⟨_, found, rfl, value⟩

end Reads

section Interning

variable {env : Externals} {styles after : Styles}
variable {out : List Scalar}

/-- A style is found under the canonical text of its value. -/
def Styles.Filed (env : Externals) (styles : Styles) : Prop :=
  ∀ key i, styles.lookup[key]? = some i → ∃ v, styles.values[i]? = some v ∧ canonicalJson env v = key

/-- A table of styles that another one has grown to. -/
structure Styles.Grows (env : Externals) (styles after : Styles) : Prop where
  sound : after.Filed env
  values : styles.values <+: after.values

theorem Styles.Filed.refl (sound : styles.Filed env) : styles.Grows env styles :=
  ⟨sound, prefix_rfl⟩

theorem Styles.Grows.trans {last : Styles} (first : styles.Grows env after)
    (second : after.Grows env last) : styles.Grows env last :=
  ⟨second.sound, first.values.trans second.values⟩

theorem Styles.sound_empty : Styles.empty.Filed env := by
  intro key i found
  simp [Styles.empty] at found

theorem intern_spec (readable : env.Readable) (sound : styles.Filed env) (v : Value) :
    styles.Grows env (styles.intern env v).2 ∧
      (styles.intern env v).2.values[(styles.intern env v).1]? = some v := by
  unfold Styles.intern
  split
  · rename_i i found
    obtain ⟨w, value, same⟩ := sound _ i found
    cases canonicalJson_injective readable same
    exact ⟨sound.refl, value⟩
  · refine ⟨⟨?_, prefix_append _ _⟩, by simp⟩
    intro key i found
    rw [OrderedMap.getElem?_insert] at found
    split at found
    · rename_i same
      cases found
      exact ⟨v, by simp, same.symm⟩
    · obtain ⟨w, value, same⟩ := sound key i found
      exact ⟨w, getElem?_grown (prefix_append _ _) value, same⟩

theorem pushText_reads {atoms : Bool} {style : Nat} {metadata : Value}
    {text : String} (known : values[style]? = some metadata)
    (reads : Reads values out cs) (pushed : pushText atoms style out text = some tokens) :
    Reads values tokens (cs ++ text.toList.map fun ch => ⟨ch, metadata⟩) := by
  unfold pushText at pushed
  generalize text.toList = chars at pushed
  induction chars generalizing out cs with
  | nil =>
    cases pushed
    simpa using reads
  | cons ch chars ih =>
    rw [foldlM_cons, Option.bind_eq_bind, Option.bind_eq_some_iff] at pushed
    obtain ⟨next, step, pushed⟩ := pushed
    split at step
    · contradiction
    cases step
    have one : Reads values [⟨ch, style⟩] [⟨ch, metadata⟩] := by
      simp [Reads, cellAt, known]
    simpa using ih (reads.append one) pushed

theorem inlineChild_reads (readable : env.Readable) (sound : styles.Filed env) {child : Value}
    (reads : Reads styles.values out cs)
    (read : inlineChild env true out styles child = (some tokens, after)) :
    styles.Grows env after ∧ Reads after.values tokens (cs ++ childCells child) := by
  unfold inlineChild at read
  split at read
  · rename_i other
    split at read
    · cases read
    · rename_i leaf
      split at read
      · cases read
      · obtain ⟨grows, known⟩ := intern_spec readable sound child
        generalize styles.intern env child = interned at read grows known
        have isObject : child.index "type" ≠ .str "text" := by
          simp only [not_or] at leaf
          exact other.resolve_right leaf.2.2
        cases read
        refine ⟨grows, (reads.mono grows.values).append ?_⟩
        simp [childCells, isObject, Reads, cellAt, known]
  · rename_i plain
    have isText : child.index "type" = .str "text" := by
      by_contra differs
      exact plain (.inl differs)
    split at read
    · rename_i text members found shape
      obtain ⟨grows, known⟩ := intern_spec readable sound (.object (members.erase "text"))
      obtain ⟨pushed, rfl⟩ := Prod.mk.inj read
      refine ⟨grows, ?_⟩
      have pairs := pushText_reads known (reads.mono grows.values) pushed
      rwa [childCells, if_pos isText, found, withoutText, shape]
    · cases read

theorem inlineChildren_reads (readable : env.Readable) {children : List Value}
    (sound : styles.Filed env) (reads : Reads styles.values out cs)
    (read : inlineChildren env true out styles children = (some tokens, after)) :
    styles.Grows env after ∧ Reads after.values tokens (cs ++ children.flatMap childCells) := by
  induction children generalizing out styles cs with
  | nil =>
    cases read
    exact ⟨sound.refl, by simpa using reads⟩
  | cons child children ih =>
    rw [inlineChildren] at read
    split at read
    · cases read
    · rename_i next middle first
      obtain ⟨grows, reads⟩ := inlineChild_reads readable sound reads first
      obtain ⟨grows', reads⟩ := ih grows.sound reads read
      exact ⟨grows.trans grows', by simpa using reads⟩

theorem inline_reads (readable : env.Readable) (sound : styles.Filed env)
    (read : inline env v styles true = (some tokens, after)) :
    styles.Grows env after ∧ Reads after.values tokens (cells v) := by
  unfold inline at read
  split at read
  · split at read
    · rename_i absent
      cases read
      refine ⟨sound.refl, ?_⟩
      simp [cells, index, absent, asArray, Reads]
    · rename_i content found
      split at read
      · cases read
      · rename_i items shape
        rw [cells, index, found, Option.getD_some, shape]
        exact inlineChildren_reads readable sound .nil read
  · cases read

end Interning

section Children

variable {content : List Value}

theorem withoutText_insert (absent : ¬ members.contains "text")
    (text : Value) : withoutText (.object (members.insert "text" text)) = .object members := by
  have same : (members.insert "text" text).erase "text" = members := by
    refine ExtTreeMap.ext_getElem? fun key => ?_
    rw [ExtTreeMap.getElem?_erase, OrderedMap.getElem?_insert]
    split
    · rename_i here
      rw [compare_eq_iff_eq] at here
      subst here
      exact (ExtTreeMap.getElem?_eq_none (by simpa using absent)).symm
    · rename_i other
      rw [compare_eq_iff_eq] at other
      rw [if_neg (Ne.symm other)]
  rw [withoutText, asObject_object]
  exact congrArg object same

theorem cells_of_run (one : ∀ t ∈ tokens, values[t.style]? = some v)
    (reads : Reads values tokens cs) : cs = tokens.map fun t => ⟨t.ch, v⟩ := by
  have mapped : tokens.map (cellAt values) = (tokens.map fun t => (⟨t.ch, v⟩ : Cell)).map some := by
    rw [map_map]
    refine map_congr_left fun t mem => ?_
    rw [cellAt, one t mem]
    rfl
  exact (map_injective_iff.2 (Option.some_injective _)) (reads.symm.trans mapped)

theorem atoms_of_run (isObject : members["type"]? ≠ some (str "text"))
    (written : (tokens.mapM fun t => if t.ch = atom then Except.ok (object members)
      else .error "invalid text metadata") = .ok content) :
    content.flatMap childCells = tokens.map fun t => ⟨t.ch, .object members⟩ := by
  have each := mapM_eq_ok.1 written
  clear written
  induction each with
  | nil => rfl
  | cons first _ ih =>
    split at first
    · rename_i isAtom
      cases first
      have leaf : (object members).index "type" ≠ .str "text" := by
        intro same
        rw [index] at same
        cases found : members["type"]? with
        | none => simp [found] at same
        | some v => simp [found] at same; exact isObject (by rw [found, same])
      rw [flatMap_cons, ih, childCells, if_neg leaf, map_cons, isAtom]
      rfl
    · contradiction

theorem childrenOfRun_reads (one : ∀ t ∈ tokens, ∀ first ∈ tokens.head?, t.style = first.style)
    (reads : Reads values tokens cs) (written : childrenOfRun values true tokens = .ok content) :
    content.flatMap childCells = cs := by
  cases tokens with
  | nil =>
    cases written
    cases cs with
    | nil => rfl
    | cons c cs => contradiction
  | cons first rest =>
    simp only [childrenOfRun] at written
    split at written
    · contradiction
    rename_i members found
    obtain ⟨v, value, shape⟩ := Option.bind_eq_some_iff.1 found
    rw [asObject_eq_some] at shape
    subst shape
    have styled : ∀ t ∈ first :: rest, values[t.style]? = some (.object members) := by
      intro t mem
      rw [one t mem first rfl, value]
    rw [cells_of_run styled reads]
    split at written
    · rename_i leaf
      exact atoms_of_run leaf.2 written
    · obtain ⟨fine, written⟩ := guard_eq_ok.1 written
      simp only [not_or, not_not] at fine
      cases written
      have isText : (object (members.insert "text"
          (.str (String.ofList ((first :: rest).map Scalar.ch))))).index "type" = .str "text" := by
        rw [index, get?_object, OrderedMap.getElem?_insert, fine.1]
        rfl
      rw [flatMap_cons, childCells, if_pos isText, withoutText_insert fine.2.1, index]
      simp

theorem same_style (tokens : List Scalar) : ∀ run ∈ tokens.splitBy fun a b => a.style = b.style,
    ∀ t ∈ run, ∀ first ∈ run.head?, t.style = first.style := by
  intro run mem
  have chained := isChain_of_mem_splitBy mem
  clear mem
  induction run with
  | nil => simp
  | cons first rest ih =>
    obtain ⟨next, later⟩ := isChain_cons.1 chained
    rintro t mem _ ⟨⟩
    rcases mem_cons.1 mem with rfl | mem
    · rfl
    cases rest with
    | nil => contradiction
    | cons second rest =>
      rw [ih later t mem second rfl]
      exact (of_decide_eq_true (next second rfl)).symm

theorem children_reads (reads : Reads values tokens cs)
    (written : children tokens values true = .ok content) : content.flatMap childCells = cs := by
  obtain ⟨runs, mapped, same⟩ := bind_eq_ok.1 written
  cases same
  have each := mapM_eq_ok.1 mapped
  have styled := same_style tokens
  rw [← flatten_splitBy (fun a b => a.style = b.style) tokens] at reads
  generalize tokens.splitBy (fun a b => a.style = b.style) = groups at each styled reads
  clear mapped written
  induction each generalizing cs with
  | nil =>
    cases cs with
    | nil => rfl
    | cons c cs => contradiction
  | cons first _ ih =>
    obtain ⟨left, right, rfl, here, later⟩ := reads.split
    rw [flatten_cons, flatMap_append, childrenOfRun_reads (styled _ (by simp)) here first,
      ih (fun run mem => styled run (by simp [mem])) later]

end Children

end Dynodoc.RichText
