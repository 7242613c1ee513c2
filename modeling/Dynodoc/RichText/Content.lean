import Dynodoc.Json

/-! Rich-text content: its plain text, its canonical text, and the runs of styled
characters that patches and merges work on. Number and string texts are those of
the JSON library, the digest is SHA-256 in hexadecimal, and the character diff is
that of the diff library; of these only the documented shape of a diff is used. -/
namespace Dynodoc
open Std (ExtTreeMap ExtTreeSet)
open Json

inductive DiffTag where
  | equal
  | delete
  | insert
  | replace
  deriving DecidableEq

structure DiffOp where
  tag : DiffTag
  old : Nat
  oldLen : Nat
  new : Nat
  newLen : Nat
  deriving DecidableEq

/-- The operations from positions `i` and `j` on: they follow one another in both
texts up to their ends, and an equal range holds the same characters on both sides. -/
def CoversFrom (a b : List Char) : Nat → Nat → List DiffOp → Prop
  | i, j, [] => i = a.length ∧ j = b.length
  | i, j, op :: rest =>
    op.old = i ∧ op.new = j ∧ i + op.oldLen ≤ a.length ∧ j + op.newLen ≤ b.length ∧
    0 < op.oldLen + op.newLen ∧
    (op.tag = .equal → (a.drop i).take op.oldLen = (b.drop j).take op.newLen ∧
      op.oldLen = op.newLen) ∧
    CoversFrom a b (i + op.oldLen) (j + op.newLen) rest

structure Externals where
  numberText : Number → String
  stringText : String → String
  sha256Hex : String → String
  captureDiff : List Char → List Char → List DiffOp
  capture_covers : ∀ a b, CoversFrom a b 0 0 (captureDiff a b)

/-- One replacement of everything, or nothing. -/
def coarseDiff (a b : List Char) : List DiffOp :=
  if a = b then (if a = [] then [] else [⟨.equal, 0, a.length, 0, b.length⟩])
  else [⟨.replace, 0, a.length, 0, b.length⟩]

theorem coarseDiff_covers (a b : List Char) : CoversFrom a b 0 0 (coarseDiff a b) := by
  unfold coarseDiff
  split
  · rename_i same
    subst same
    split
    · rename_i empty
      simp [CoversFrom, empty]
    · rename_i nonempty
      simp [CoversFrom, List.length_pos_iff, nonempty]
  · rename_i differ
    have positive : 0 < a.length + b.length := by
      rw [← List.length_append, List.length_pos_iff]
      intro empty
      rw [List.append_eq_nil_iff] at empty
      exact differ (empty.1.trans empty.2.symm)
    simpa [CoversFrom] using positive

/-- A simple instance to run the model on. -/
def plainExternals : Externals where
  numberText
    | .int i => toString i
    | .float q => toString q
  stringText s := "\"" ++ s ++ "\""
  sha256Hex s := s
  captureDiff := coarseDiff
  capture_covers := coarseDiff_covers

/-- Members in the order of their keys, without white space. -/
def Json.canonical {N : Type} (numberText : N → String) (stringText : String → String) : Json N → String
  | .null => "null"
  | .bool b => if b then "true" else "false"
  | .num n => numberText n
  | .str s => stringText s
  | .arr _ items =>
    "[" ++ String.intercalate "," (List.ofFn fun i => canonical numberText stringText (items i)) ++ "]"
  | .obj ks f =>
    "\x7b" ++ String.intercalate "," (ks.toList.attach.map fun k =>
      stringText k.1 ++ ":" ++ canonical numberText stringText (f ⟨k.1, key_mem k⟩)) ++
    "\x7d"

def canonicalJson (env : Externals) (v : Value) : String := v.canonical env.numberText env.stringText

namespace RichText

def maxScalars : Nat := 100000

/-- One character stands for a leaf inline node in a merge. -/
def atom : Char := Char.ofNat 0xFFFC

def maxDepth : Nat := 64

theorem depth_of_mem_content {v item : Value} {items : List Value}
    (read : (v.index "content").asArray = some items) (mem : item ∈ items) :
    item.depth < v.depth := by
  rw [asArray_eq_some, index] at read
  cases found : v.get? "content" with
  | none =>
    rw [found] at read
    simp [array] at read
  | some content =>
    rw [found] at read
    subst read
    exact (depth_of_mem_array mem).trans (depth_of_get? found)

def plainText (v : Value) : String :=
  if (v.index "type").asStr = some "inlineMath" ∨ (v.index "type").asStr = some "blockMath" then
    ((v.index "attrs").index "latex").asStr.getD ""
  else
    match (v.index "text").asStr with
    | some text => text
    | none =>
      match _read : (v.index "content").asArray with
      | none => ""
      | some items =>
        String.intercalate (if v.index "type" = .str "doc" then "\n" else "")
          (items.attach.map fun item => plainText item.1)
termination_by v.depth
decreasing_by exact depth_of_mem_content _read item.2

def fingerprint (env : Externals) (v : Value) : String := env.sha256Hex (canonicalJson env v)

structure Styles where
  values : List Value
  lookup : ExtTreeMap String Nat

def Styles.empty : Styles := ⟨[], ∅⟩

def Styles.intern (env : Externals) (styles : Styles) (v : Value) : Nat × Styles :=
  match styles.lookup[canonicalJson env v]? with
  | some i => (i, styles)
  | none =>
    (styles.values.length,
      ⟨styles.values ++ [v], styles.lookup.insert (canonicalJson env v) styles.values.length⟩)

structure Scalar where
  ch : Char
  style : Nat
  deriving DecidableEq

def props (v : Value) : Option Value :=
  v.asObject.map fun members => .object (members.erase "content")

def pushText (atoms : Bool) (style : Nat) (out : List Scalar) (text : String) :
    Option (List Scalar) :=
  text.toList.foldlM (fun out ch =>
    if out.length = maxScalars ∨ (atoms ∧ ch = atom) then none
    else some (out ++ [⟨ch, style⟩])) out

/-- One child of a text container. The styles met before a child is refused stay
interned. -/
def inlineChild (env : Externals) (atoms : Bool) (out : List Scalar) (styles : Styles)
    (child : Value) : Option (List Scalar) × Styles :=
  if child.index "type" ≠ .str "text" ∨ (child.get? "content").isSome then
    if !atoms ∨ (child.index "type").asStr = none ∨ (child.get? "content").isSome then
      (none, styles)
    else if out.length = maxScalars then (none, styles)
    else
      let (style, styles) := styles.intern env child
      (some (out ++ [⟨atom, style⟩]), styles)
  else
    match (child.index "text").asStr, child.asObject with
    | some text, some members =>
      let (style, styles) := styles.intern env (.object (members.erase "text"))
      (pushText atoms style out text, styles)
    | _, _ => (none, styles)

def inlineChildren (env : Externals) (atoms : Bool) (out : List Scalar) (styles : Styles) :
    List Value → Option (List Scalar) × Styles
  | [] => (some out, styles)
  | child :: rest =>
    match inlineChild env atoms out styles child with
    | (none, styles) => (none, styles)
    | (some out, styles) => inlineChildren env atoms out styles rest

/-- The characters of a paragraph, heading or code block with their styles. With
`atoms` a leaf inline node is one character. -/
def inline (env : Externals) (v : Value) (styles : Styles) (atoms : Bool) :
    Option (List Scalar) × Styles :=
  if (v.index "type").asStr = some "paragraph" ∨ (v.index "type").asStr = some "heading" ∨
      (v.index "type").asStr = some "codeBlock" then
    match v.get? "content" with
    | none => (some [], styles)
    | some content =>
      match content.asArray with
      | none => (none, styles)
      | some items => inlineChildren env atoms [] styles items
  else (none, styles)

/-- The children of one run of characters of the same style: one text node, or with
`atoms` the leaf node itself for each of them. -/
def childrenOfRun (styles : List Value) (atoms : Bool) (run : List Scalar) :
    Except String (List Value) :=
  match run with
  | [] => .ok []
  | first :: _ =>
    match styles[first.style]?.bind asObject with
    | none => .error "unknown style"
    | some metadata =>
      if atoms ∧ metadata["type"]? ≠ some (.str "text") then
        run.mapM fun t =>
          if t.ch = atom then .ok (.object metadata) else .error "invalid text metadata"
      else if metadata["type"]? ≠ some (.str "text") ∨ metadata.contains "text" ∨
          metadata.contains "content" then
        .error "invalid text metadata"
      else .ok [.object (metadata.insert "text" (.str (String.ofList (run.map Scalar.ch))))]

def children (tokens : List Scalar) (styles : List Value) (atoms : Bool) :
    Except String (List Value) := do
  let runs ← (tokens.splitBy fun a b => a.style = b.style).mapM (childrenOfRun styles atoms)
  return runs.flatten

end RichText
end Dynodoc
