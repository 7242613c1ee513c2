import Dynodoc.RichText.Content

/-! Rich-text patches: building one from two versions and applying it. A patch is
kept only if applying it to the old version gives the new one. -/
namespace Dynodoc.RichText

inductive TextOp where
  | retain (count : Nat) (style : Option Nat)
  | delete (count : Nat)
  | insert (text : String) (style : Nat)
  deriving DecidableEq

inductive RichTextEdit where
  | text (path : List Nat) (ops : List TextOp)
  | props (path : List Nat) (value : Value)
  | replace (path : List Nat) (value : Value)
  deriving DecidableEq

structure RichTextPatch where
  version : Nat
  before : String
  after : String
  styles : List Value
  edits : List RichTextEdit
  deriving DecidableEq

def diffLimit : Nat := 4000

def commonPrefixLen (a b : List Char) : Nat := ((a.zip b).takeWhile fun (x, y) => x = y).length

def textDiff (env : Externals) (a b : List Scalar) : List DiffOp :=
  let a := a.map Scalar.ch
  let b := b.map Scalar.ch
  let before := commonPrefixLen a b
  let after := commonPrefixLen (a.drop before).reverse (b.drop before).reverse
  let oldLen := a.length - before - after
  let newLen := b.length - before - after
  if oldLen = 0 ∨ newLen = 0 ∨ oldLen + newLen ≤ diffLimit then env.captureDiff a b
  else
    -- One coarse replacement between the common ends.
    (if before > 0 then [⟨.equal, 0, before, 0, before⟩] else []) ++
    [⟨.replace, before, oldLen, before, newLen⟩] ++
    (if after > 0 then [⟨.equal, before + oldLen, after, before + newLen, after⟩] else [])

def pushRetain (out : List TextOp) (style : Option Nat) : List TextOp :=
  match out.reverse with
  | .retain count last :: rest =>
    if last = style then rest.reverse ++ [.retain (count + 1) last]
    else out ++ [.retain 1 style]
  | _ => out ++ [.retain 1 style]

def pushInsert (out : List TextOp) (t : Scalar) : List TextOp :=
  match out.reverse with
  | .insert text style :: rest =>
    if style = t.style then rest.reverse ++ [.insert (text.push t.ch) style]
    else out ++ [.insert (String.singleton t.ch) t.style]
  | _ => out ++ [.insert (String.singleton t.ch) t.style]

def deltaOp (a b : List Scalar) (out : List TextOp) (op : DiffOp) : List TextOp :=
  let olds := (a.drop op.old).take op.oldLen
  let news := (b.drop op.new).take op.newLen
  if op.tag = .equal then
    (olds.zip news).foldl (fun out (x, y) =>
      pushRetain out (if x.style ≠ y.style then some y.style else none)) out
  else
    news.foldl pushInsert (if op.oldLen > 0 then out ++ [.delete op.oldLen] else out)

def delta (env : Externals) (a b : List Scalar) : List TextOp :=
  (textDiff env a b).foldl (deltaOp a b) []

/-- The edits that lead from `a` to `b`, appended to those met before. -/
def build (env : Externals) (a b : Value) (path : List Nat) (acc : Styles × List RichTextEdit) :
    Styles × List RichTextEdit :=
  if a = b then acc
  else
    let replaced := (acc.1, acc.2 ++ [.replace path b])
    if path.length < maxDepth ∧ a.index "type" = b.index "type" then
      match props a, props b with
      | some pa, some pb =>
        let ownProps := if pa ≠ pb then [RichTextEdit.props path pb] else []
        let (x, styles) := inline env a acc.1 false
        let (y, styles) := inline env b styles false
        match x, y with
        | some x, some y => (styles, acc.2 ++ ownProps ++ [.text path (delta env x y)])
        | _, _ =>
          match _read : (a.index "content").asArray, (b.index "content").asArray with
          | some x, some y =>
            if x.length = y.length then
              ((x.attach.zip y).foldl (fun (acc, i) (cx, cy) =>
                (build env cx.1 cy (path ++ [i]) acc, i + 1)) ((styles, acc.2 ++ ownProps), 0)).1
            else (styles, replaced.2)
          | _, _ => (styles, replaced.2)
      | _, _ => replaced
    else replaced
termination_by a.depth
decreasing_by exact depth_of_mem_content _read cx.2

def compactStyle (env : Externals) (styles : List Value) (compact : Styles) (style : Nat) :
    Nat × Styles :=
  compact.intern env (styles.getD style .null)

def compactOp (env : Externals) (styles : List Value) (compact : Styles) :
    TextOp → TextOp × Styles
  | .insert text style =>
    let (style, compact) := compactStyle env styles compact style
    (.insert text style, compact)
  | .retain count (some style) =>
    let (style, compact) := compactStyle env styles compact style
    (.retain count (some style), compact)
  | op => (op, compact)

def compactEdit (env : Externals) (styles : List Value) (compact : Styles) :
    RichTextEdit → RichTextEdit × Styles
  | .text path ops =>
    let (ops, compact) := ops.foldl (fun (done, compact) op =>
      let (op, compact) := compactOp env styles compact op
      (done ++ [op], compact)) ([], compact)
    (.text path ops, compact)
  | edit => (edit, compact)

/-- `PatchError`, by the reason it carries. -/
abbrev PatchError := String

def PatchError.text (reason : PatchError) : String := "invalid rich-text patch: " ++ reason

def applyOp (input : List Scalar) (added : List Nat) (cursor : Nat) (result : List Scalar) :
    TextOp → Except PatchError (Nat × List Scalar)
  | .retain count style =>
    if cursor + count ≤ input.length then
      let kept := (input.drop cursor).take count
      match style with
      | none => .ok (cursor + count, result ++ kept)
      | some s =>
        match added[s]? with
        | none => .error "unknown style"
        | some style => .ok (cursor + count, result ++ kept.map fun t => ⟨t.ch, style⟩)
    else .error "retain out of bounds"
  | .delete count =>
    if cursor + count ≤ input.length then .ok (cursor + count, result)
    else .error "delete out of bounds"
  | .insert text style =>
    match added[style]? with
    | none => .error "unknown style"
    | some style =>
      if text.utf8ByteSize > maxScalars * 4 then .error "insert too large"
      else .ok (cursor, result ++ text.toList.map fun ch => ⟨ch, style⟩)

def applyOps (input : List Scalar) (added : List Nat) (cursor : Nat) (result : List Scalar) :
    List TextOp → Except PatchError (Nat × List Scalar)
  | [] => .ok (cursor, result)
  | op :: rest => do
    let (cursor, result) ← applyOp input added cursor result op
    if result.length > maxScalars then .error "text too large"
    else applyOps input added cursor result rest

def internAll (env : Externals) (styles : Styles) : List Value → List Nat × Styles
  | [] => ([], styles)
  | v :: rest =>
    let (i, styles) := styles.intern env v
    let (is, styles) := internAll env styles rest
    (i :: is, styles)

def applyText (env : Externals) (added : List Value) (ops : List TextOp) (target : Value) :
    Except PatchError Value := do
  match inline env target .empty false, target.asObject with
  | (some input, styles), some members =>
    let (added, styles) := internAll env styles added
    let (cursor, result) ← applyOps input added 0 [] ops
    if cursor ≠ input.length then .error "incomplete consumption"
    else
      let content ← children result styles.values false
      .ok (.object (members.insert "content" (.array content)))
  | _, _ => .error "not an inline text container"

def applyProps (value target : Value) : Except PatchError Value :=
  match value.asObject with
  | some members =>
    if members.contains "content" then .error "invalid properties"
    else
      match target.get? "content" with
      | none => .ok value
      | some content => .ok (.object (members.insert "content" content))
  | none => .error "invalid properties"

/-- Change the value that a path of child positions leads to. -/
def modifyAt (f : Value → Except PatchError Value) : List Nat → Value → Except PatchError Value
  | [], target => f target
  | i :: path, target =>
    match target.asObject, (target.index "content").asArray with
    | some members, some items =>
      match items[i]? with
      | some item => do
        let item ← modifyAt f path item
        .ok (.object (members.insert "content" (.array (items.set i item))))
      | none => .error "invalid path"
    | _, _ => .error "invalid path"

def RichTextEdit.path : RichTextEdit → List Nat
  | .text path _ | .props path _ | .replace path _ => path

def applyEdit (env : Externals) (styles : List Value) (out : Value) (edit : RichTextEdit) :
    Except PatchError Value :=
  if edit.path.length > maxDepth then .error "path too deep"
  else
    modifyAt (match edit with
      | .replace _ value => fun _ => .ok value
      | .props _ value => applyProps value
      | .text _ ops => applyText env styles ops) edit.path out

def applyPatch (env : Externals) (before : Value) (patch : RichTextPatch) :
    Except PatchError Value :=
  if patch.version ≠ 1 ∨ fingerprint env before ≠ patch.before then
    .error "base/version mismatch"
  else if patch.edits.length > 10000 ∨ patch.styles.length > 10000 then
    .error "too many operations/styles"
  else do
    let out ← patch.edits.foldlM (applyEdit env patch.styles) before
    if fingerprint env out ≠ patch.after then .error "result mismatch" else .ok out

def makePatch (env : Externals) (before after : Value) : Option RichTextPatch :=
  let (styles, edits) := build env before after [] (.empty, [])
  let (edits, compact) := edits.foldl (fun (done, compact) edit =>
    let (edit, compact) := compactEdit env styles.values compact edit
    (done ++ [edit], compact)) ([], Styles.empty)
  let patch : RichTextPatch :=
    { version := 1
      before := fingerprint env before
      after := fingerprint env after
      styles := compact.values
      edits := edits }
  if (applyPatch env before patch).toOption = some after then some patch else none

theorem applyPatch_of_makePatch {env : Externals} {before after : Value} {patch : RichTextPatch}
    (made : makePatch env before after = some patch) : applyPatch env before patch = .ok after := by
  simp only [makePatch] at made
  split at made
  · rename_i checked
    cases made
    cases applied : applyPatch env before _ with
    | error e => simp [applied, Except.toOption] at checked
    | ok out =>
      rw [applied] at checked
      exact congrArg _ (Option.some.inj checked)
  · contradiction

end Dynodoc.RichText
