import Dynodoc.Lib.Text
import Dynodoc.Transparency.Assurance
import Dynodoc.Transparency.Encoding

/-! Signed notes: a text, a blank line and one line for each signature. SHA-256 and Ed25519
are parameters. -/
namespace Dynodoc.Transparency
open Log (utf8 utf8_injective toBeBytes asChars hexDigits hex)
open Loop Text List Except

variable {Pair : Type} {bytes : List UInt8} {c : Char} {lines : List (List Char)}
  {digits message : List Char}

def validKeyName (name : String) : Bool :=
  name ≠ "" && '+' ∉ name.toList && !name.toList.any fun c => isWhitespace c || isControl c

inductive KeyKind where
  | log
  | cosigner
  deriving DecidableEq

def KeyKind.typeByte : KeyKind → UInt8
  | log => 1
  | cosigner => 4

abbrev KeyId := { bytes : List UInt8 // bytes.length = 4 }

/-- SHA-256, and Ed25519 key pairs with what they sign. -/
structure Signing (Pair : Type) where
  sha256 : List UInt8 → Log.Digest
  publicKey : Pair → Log.Digest
  sign : Pair → List UInt8 → { bytes : List UInt8 // bytes.length = 64 }

section Keys

variable (env : Signing Pair)

def keyId (name : String) (kind : KeyKind) (publicKey : Log.Digest) : KeyId :=
  let sum := env.sha256 (utf8 name ++ 10 :: kind.typeByte :: publicKey.1)
  ⟨sum.1.take 4, by rw [length_take, sum.2]; rfl⟩

structure VerifierKey where
  name : String
  kind : KeyKind
  publicKey : Log.Digest
  named : validKeyName name = true

def VerifierKey.keyId (key : VerifierKey) : KeyId :=
  Transparency.keyId env key.name key.kind key.publicKey

def VerifierKey.text (key : VerifierKey) : String :=
  key.name ++ "+" ++ hex (key.keyId env).1 ++ "+" ++ b64 (key.kind.typeByte :: key.publicKey.1)

/-- The type byte and the key after it. -/
def VerifierKey.read : List UInt8 → Except Error (KeyKind × List UInt8)
  | 1 :: rest => .ok (.log, rest)
  | 4 :: rest => .ok (.cosigner, rest)
  | other :: _ => .error (.unsupportedKeyType other)
  | [] => .error (.malformedKey "empty key")

def VerifierKey.parse (vkey : String) : Except Error VerifierKey :=
  match splitOnce '+' vkey.toList with
  | none => .error (.malformedKey "expected name+id+key")
  | some (name, rest) =>
    match splitOnce '+' rest with
    | none => .error (.malformedKey "expected name+id+key")
    | some (id, key) => do
      let raw ← unb64 (String.ofList key)
      let (kind, publicKey) ← VerifierKey.read raw
      if size : publicKey.length = 32 then
        if named : validKeyName (String.ofList name) = true then
          let parsed : VerifierKey := ⟨String.ofList name, kind, ⟨publicKey, size⟩, named⟩
          match unhex (String.ofList id) with
          | .error _ => .error (.malformedKey "key id is 8 hex digits")
          | .ok bytes =>
            if bytes.length ≠ 4 then .error (.malformedKey "key id is 8 hex digits")
            else if bytes ≠ (parsed.keyId env).1 then .error .keyIdMismatch
            else .ok parsed
        else .error .invalidKeyName
      else .error (.malformedKey "an Ed25519 public key is 32 bytes")

end Keys

def Checkpoint.text (checkpoint : Checkpoint Log.Digest) : String :=
  checkpoint.origin ++ "\n" ++ toString checkpoint.size ++ "\n" ++ b64 checkpoint.root.1 ++ "\n"

def stripNewline (chars : List Char) : Option (List Char) :=
  if chars.getLast? = some '\n' then some chars.dropLast else none

def decimal (digits : List Char) : Nat := digits.foldl (fun n c => n * 10 + (c.toNat - 48)) 0

def Checkpoint.parse (text : String) : Except Error (Checkpoint Log.Digest) :=
  match stripNewline text.toList with
  | none => .error (.malformedCheckpoint "must end with a newline")
  | some body =>
    match body.splitOn '\n' with
    | [] | [_] | [_, _] => .error (.malformedCheckpoint "expected origin, size and root lines")
    | _ :: _ :: _ :: _ :: _ => .error .checkpointExtension
    | [origin, size, root] =>
      if origin = [] then .error (.malformedCheckpoint "empty origin")
      else if size = [] ∨ ¬ size.all Char.isDigit ∨ (size.length > 1 ∧ size.head? = some '0') then
        .error (.malformedCheckpoint "size is not a plain decimal")
      else if decimal size ≥ 2 ^ 64 then
        .error (.malformedCheckpoint "size does not fit 64 bits")
      else do
        let bytes ← unb64 (String.ofList root)
        if whole : bytes.length = 32 then
          .ok ⟨String.ofList origin, decimal size, ⟨bytes, whole⟩⟩
        else .error (.malformedCheckpoint "root is not 32 bytes")

/-- One signature line. The bytes after the key id are a signature, or a time and one. -/
@[ext] structure NoteSignature where
  name : String
  keyId : KeyId
  body : List UInt8
  named : validKeyName name = true
  signed : body ≠ []

variable {signature : NoteSignature}

section Signatures

variable (env : Signing Pair)

structure Signer (Pair : Type) where
  name : String
  kind : KeyKind
  pair : Pair
  named : validKeyName name = true

def Signer.line (signer : Signer Pair) (body : List UInt8) (signed : body ≠ []) : NoteSignature :=
  ⟨signer.name, keyId env signer.name signer.kind (env.publicKey signer.pair), body, signer.named, signed⟩

def Signer.signCheckpoint (signer : Signer Pair) (text : String) : Except Error NoteSignature :=
  if signer.kind ≠ .log then .error .wrongSignerKind
  else do
    let checkpoint ← Checkpoint.parse text
    if checkpoint.origin ≠ signer.name then .error (.wrongOrigin signer.name checkpoint.origin)
    else
      let signature := env.sign signer.pair (utf8 text)
      .ok (signer.line env signature.1 (ne_nil_of_length_eq_add_one signature.2))

def cosignatureMessage (text : String) (time : Nat) : List UInt8 :=
  utf8 ("cosignature/v1\ntime " ++ toString time ++ "\n" ++ text)

def Signer.cosignCheckpoint (signer : Signer Pair) (text : String) (time : Nat) :
    Except Error NoteSignature :=
  if signer.kind ≠ .cosigner then .error .wrongSignerKind
  else do
    let _ ← Checkpoint.parse text
    let signature := env.sign signer.pair (cosignatureMessage text time)
    .ok (signer.line env (toBeBytes time ++ signature.1)
      (append_ne_nil_of_right_ne_nil _ (ne_nil_of_length_eq_add_one signature.2)))

end Signatures

/-- An em dash and a blank. -/
def dash : List Char := ['—', ' ']

namespace NoteSignature

def line (signature : NoteSignature) : List Char :=
  dash ++ signature.name.toList ++ ' ' :: (b64 (signature.keyId.1 ++ signature.body)).toList

def encode (signature : NoteSignature) : List Char := signature.line ++ ['\n']

def parse (line : List Char) : Except Error NoteSignature :=
  if ¬ dash.isPrefixOf line then
    .error (.malformedNote "signature line must start with an em dash and a space")
  else
    match splitOnce ' ' (line.drop dash.length) with
    | none => .error (.malformedNote "signature line has no signature field")
    | some (name, encoded) =>
      if named : validKeyName (String.ofList name) = true then do
        let raw ← unb64 (String.ofList encoded)
        if long : 5 ≤ raw.length then
          .ok ⟨String.ofList name, ⟨raw.take 4, by rw [length_take]; omega⟩, raw.drop 4, named,
            length_pos_iff.1 (by rw [length_drop]; omega)⟩
        else .error (.malformedNote "signature field shorter than a key id and a signature")
      else .error (.malformedNote "invalid key name in a signature line")

end NoteSignature

def checkCharacters (chars : List Char) : Except Error Unit :=
  if chars.any fun c => c ≠ '\n' && isControl c then .error (.malformedNote "control character")
  else .ok ()

/-- No two signature lines are of the same name and key id. -/
@[ext] structure Note where
  text : String
  signatures : List NoteSignature
  plain : checkCharacters text.toList = .ok ()
  ended : text.toList.getLast? = some '\n'
  distinct : (signatures.map fun s => (s.name, s.keyId)).Nodup

namespace Note

def new (text : String) : Except Error Note :=
  match plain : checkCharacters text.toList with
  | .error e => .error e
  | .ok () =>
    if ended : text.toList.getLast? = some '\n' then .ok ⟨text, [], plain, ended, .nil⟩
    else .error (.malformedNote "text must end with a newline")

def withSignature (note : Note) (signature : NoteSignature) : Except Error Note :=
  if new : (signature.name, signature.keyId) ∈ note.signatures.map fun s => (s.name, s.keyId) then
    .error (.duplicateSignature signature.name)
  else .ok { note with
    signatures := note.signatures ++ [signature]
    distinct := by simpa using note.distinct.concat new }

def encode (note : Note) : String :=
  String.ofList (note.text.toList ++ '\n' :: note.signatures.flatMap NoteSignature.encode)

/-- The pairs of a name and a key id that have been seen are those of the signatures so far. -/
def addLine (note : Note) (line : List Char) : Except Error Note := do
  let signature ← NoteSignature.parse line
  note.withSignature signature

def parseMessage (message : List Char) : Except Error Note := do
  checkCharacters message
  match rfind ['\n', '\n'] message with
  | none => .error (.malformedNote "no blank line before the signatures")
  | some split =>
    match stripNewline (message.drop (split + 2)) with
    | none => .error (.malformedNote "the signature block must end with a newline")
    | some lines =>
      if lines = [] then .error (.malformedNote "no signature lines")
      else do
        let note ← new (String.ofList (message.take (split + 1)))
        (lines.splitOn '\n').foldlM addLine note

def parse (bytes : List UInt8) : Except Error Note :=
  match String.fromUTF8? ⟨bytes.toArray⟩ with
  | none => .error (.malformedNote "not valid UTF-8")
  | some message => parseMessage message.toList

end Note

theorem mem_name {name : String} (valid : validKeyName name = true) (mem : c ∈ name.toList) :
    isWhitespace c = false ∧ isControl c = false := by
  simp only [validKeyName, Bool.and_eq_true, Bool.not_eq_true', any_eq_false, Bool.or_eq_true,
    not_or, Bool.not_eq_true] at valid
  exact valid.2 c mem

theorem mem_b64 (mem : c ∈ (b64 bytes).toList) : 33 ≤ c.toNat ∧ c.toNat < 127 := by
  rw [b64, String.toList_ofList, asChars] at mem
  obtain ⟨b, inside, rfl⟩ := mem_map.1 mem
  have printable := b64Bytes_printable bytes b inside
  rw [UInt8.le_iff_toNat_le, UInt8.lt_iff_toNat_lt] at printable
  show 33 ≤ b.toUInt32.toNat ∧ b.toUInt32.toNat < 127
  simpa using printable

open NoteSignature

theorem mem_line (mem : c ∈ signature.line) : c ≠ '\n' ∧ isControl c = false := by
  have plain : isControl c = false := by
    simp only [line, dash, mem_append, mem_cons, not_mem_nil, or_false] at mem
    rcases mem with ((rfl | rfl) | inName) | rfl | inText
    · rfl
    · rfl
    · exact (mem_name signature.named inName).2
    · rfl
    · have := mem_b64 inText
      simp [isControl]
      omega
  refine ⟨?_, plain⟩
  rintro rfl
  contradiction

theorem NoteSignature.parse_eq_ok {line : List Char} :
    parse line = .ok signature ↔ signature.line = line := by
  constructor
  · intro parsed
    rw [parse] at parsed
    split at parsed
    · contradiction
    rename_i begins
    obtain ⟨rest, rfl⟩ := isPrefixOf_iff_prefix.1 (not_not.1 begins)
    split at parsed
    · contradiction
    rename_i name encoded found
    obtain ⟨rfl, -⟩ := splitOnce_eq_some.1 found
    split at parsed
    · obtain ⟨raw, decoded, done⟩ := bind_eq_ok.1 parsed
      split at done
      · cases done
        simp [line, take_append_drop, b64_of_unb64 decoded]
      · contradiction
    · contradiction
  · rintro rfl
    have noBlank : ' ' ∉ signature.name.toList := fun mem =>
      absurd (mem_name signature.named mem).1 (by decide)
    have text : signature.line.drop dash.length = signature.name.toList ++
        ' ' :: (b64 (signature.keyId.1 ++ signature.body)).toList := by
      rw [line, append_assoc, drop_left]
    have begins : dash.isPrefixOf signature.line = true := by
      refine isPrefixOf_iff_prefix.2 ?_
      rw [line, append_assoc]
      exact prefix_append _ _
    have long : 5 ≤ (signature.keyId.1 ++ signature.body).length := by
      have := length_pos_iff.2 signature.signed
      rw [length_append, signature.keyId.2]
      omega
    have named : validKeyName (String.ofList signature.name.toList) = true := by
      rw [String.ofList_toList]
      exact signature.named
    rw [NoteSignature.parse, if_neg (not_not.2 begins), text, splitOnce_eq_some.2 ⟨rfl, noBlank⟩]
    dsimp only
    rw [dif_pos named, String.ofList_toList, unb64_b64]
    refine (dif_pos long).trans (congrArg ok (NoteSignature.ext ?_ ?_ ?_))
    · exact String.ofList_toList
    · exact Subtype.ext (take_left' signature.keyId.2)
    · exact drop_left' signature.keyId.2

theorem NoteSignature.line_ne_nil (signature : NoteSignature) : signature.line ≠ [] := by
  simp [line, dash]

theorem flatMap_ended (some : lines ≠ []) :
    lines.flatMap (· ++ ['\n']) = ['\n'].intercalate lines ++ ['\n'] := by
  induction lines with
  | nil => contradiction
  | cons line lines ih =>
    cases lines with
    | nil => simp
    | cons next lines =>
      rw [flatMap_cons, ih (by simp), intercalate_cons_cons]
      simp

theorem infix_of_append {front rest : List Char} (plain : '\n' ∉ front)
    (inside : ['\n', '\n'] <:+: front ++ rest) : ['\n', '\n'] <:+: rest := by
  induction front with
  | nil => exact inside
  | cons c front ih =>
    rw [mem_cons, not_or] at plain
    rw [cons_append, infix_cons_iff] at inside
    rcases inside with here | later
    · exact absurd (cons_prefix_cons.1 here).1 plain.1
    · exact ih plain.2 later

variable (signatures : List NoteSignature)

/-- No blank line comes after the one before the signatures. -/
theorem no_blank_line :
    ¬ ['\n', '\n'] <:+: '\n' :: signatures.flatMap encode := by
  induction signatures with
  | nil =>
    intro inside
    have := inside.length_le
    simp at this
  | cons signature signatures ih =>
    have plain : '\n' ∉ signature.line := fun mem => (mem_line mem).1 rfl
    rw [flatMap_cons, encode, append_assoc, infix_cons_iff]
    rintro (here | later)
    · obtain ⟨first, rest, text⟩ := exists_cons_of_ne_nil signature.line_ne_nil
      rw [text, cons_append] at here
      have same : '\n' = first := (cons_prefix_cons.1 (cons_prefix_cons.1 here).2).1
      exact plain (by rw [text, same]; simp)
    · exact ih (infix_of_append plain later)

namespace Note

variable {note next : Note}

open Note

theorem new_eq_ok {text : String} : new text = .ok note ↔ note.text = text ∧ note.signatures = [] := by
  rw [new]
  constructor
  · intro made
    split at made
    · contradiction
    split at made
    · cases made
      exact ⟨rfl, rfl⟩
    · contradiction
  · rintro ⟨rfl, none⟩
    split
    · rename_i e bad
      rw [note.plain] at bad
      contradiction
    · rw [dif_pos note.ended]
      exact congrArg ok (Note.ext rfl none.symm)

theorem withSignature_eq_ok : note.withSignature signature = .ok next ↔
    next.text = note.text ∧ next.signatures = note.signatures ++ [signature] := by
  rw [withSignature]
  constructor
  · intro added
    split at added
    · contradiction
    cases added
    exact ⟨rfl, rfl⟩
  · rintro ⟨text, signatures⟩
    have distinct := next.distinct
    rw [signatures, map_append, map_singleton, nodup_append'] at distinct
    have new : (signature.name, signature.keyId) ∉ note.signatures.map fun s => (s.name, s.keyId) :=
      fun old => distinct.2.2 old (by simp)
    rw [dif_neg new]
    exact congrArg ok (Note.ext text.symm signatures.symm)

theorem addLine_eq_ok {line : List Char} : note.addLine line = .ok next ↔ ∃ signature : NoteSignature,
    signature.line = line ∧ next.text = note.text ∧ next.signatures = note.signatures ++ [signature] := by
  simp [addLine, bind_eq_ok, parse_eq_ok, withSignature_eq_ok]

theorem foldlM_addLine : lines.foldlM addLine note = .ok next ↔
    ∃ signatures : List NoteSignature, signatures.map line = lines ∧
      next.text = note.text ∧ next.signatures = note.signatures ++ signatures := by
  induction lines generalizing note with
  | nil =>
    constructor
    · rintro ⟨⟩
      exact ⟨[], rfl, rfl, by simp⟩
    · rintro ⟨signatures, none, text, same⟩
      rw [map_eq_nil_iff.1 none, append_nil] at same
      exact congrArg ok (Note.ext text.symm same.symm)
  | cons line lines ih =>
    rw [foldlM_cons, bind_eq_ok]
    simp only [addLine_eq_ok, ih]
    constructor
    · rintro ⟨middle, ⟨signature, first, text, added⟩, signatures, rest, text', added'⟩
      exact ⟨signature :: signatures, by simp [first, rest], text'.trans text,
        by rw [added', added, append_assoc, singleton_append]⟩
    · rintro ⟨all, split, text, added⟩
      obtain ⟨signature, signatures, rfl, first, rest⟩ := map_eq_cons_iff.1 split
      have all : next.signatures = (note.signatures ++ [signature]) ++ signatures := by
        rw [added, append_assoc, singleton_append]
      have before : (note.signatures ++ [signature]).Sublist next.signatures := by
        rw [all]
        exact sublist_append_left _ _
      refine ⟨⟨note.text, note.signatures ++ [signature], note.plain, note.ended,
        (before.map _).nodup next.distinct⟩, ⟨signature, first, rfl, rfl⟩, signatures, rest, text, all⟩

theorem checkCharacters_eq_ok {chars : List Char} :
    checkCharacters chars = .ok () ↔ ∀ c ∈ chars, c = '\n' ∨ isControl c = false := by
  rw [checkCharacters]
  split
  · rename_i bad
    obtain ⟨c, mem, control⟩ := any_eq_true.1 bad
    simp only [reduceCtorEq, false_iff]
    intro all
    have := all c mem
    simp_all
  · rename_i fine
    simp only [true_iff]
    intro c mem
    grind

theorem plain_signatures {signatures : List NoteSignature} :
    ∀ c ∈ signatures.flatMap NoteSignature.encode, c = '\n' ∨ isControl c = false := by
  intro c mem
  obtain ⟨signature, -, inside⟩ := mem_flatMap.1 mem
  rw [NoteSignature.encode, mem_append, mem_singleton] at inside
  exact inside.elim (fun inLine => .inr (mem_line inLine).2) .inl

open String

theorem toList_encode (note : Note) :
    note.encode.toList = note.text.toList ++ '\n' :: note.signatures.flatMap NoteSignature.encode := by
  rw [encode, toList_ofList]

theorem flatMap_encode :
    signatures.flatMap NoteSignature.encode =
      (signatures.map NoteSignature.line).flatMap (· ++ ['\n']) := by
  rw [flatMap_map]
  rfl

theorem stripNewline_eq_some {chars lines : List Char} :
    stripNewline chars = some lines ↔ chars = lines ++ ['\n'] := by
  rw [stripNewline]
  constructor
  · intro stripped
    split at stripped
    · rename_i last
      cases stripped
      exact (dropLast_append_getLast? _ last).symm
    · contradiction
  · rintro rfl
    simp

theorem cut_at_blank {rest : List Char} {split : Nat}
    (blank : ['\n', '\n'] ++ rest = message.drop split) :
    message.take (split + 1) = message.take split ++ ['\n'] ∧ message.drop (split + 2) = rest := by
  have first : message[split]? = some '\n' := by
    rw [← head?_drop, ← blank]
    rfl
  refine ⟨by rw [take_add_one, first]; rfl, ?_⟩
  rw [← drop_drop, ← blank]
  rfl

/-- A message is read as a note with a signature only if it is what the note is written as. -/
theorem parseMessage_eq_ok :
    parseMessage message = .ok note ↔ note.signatures ≠ [] ∧ note.encode.toList = message := by
  constructor
  · intro parsed
    obtain ⟨⟨⟩, -, parsed⟩ := bind_eq_ok.1 parsed
    split at parsed
    · contradiction
    rename_i split found
    split at parsed
    · contradiction
    rename_i lines stripped
    obtain ⟨-, parsed⟩ := guard_eq_ok.1 parsed
    obtain ⟨start, made, folded⟩ := bind_eq_ok.1 parsed
    obtain ⟨text, none⟩ := new_eq_ok.1 made
    obtain ⟨signatures, written, sameText, all⟩ := foldlM_addLine.1 folded
    obtain ⟨⟨rest, blank⟩, -⟩ := rfind_eq_some found
    have cut : message.take (split + 1) = message.take split ++ ['\n'] ∧
        message.drop (split + 2) = rest := cut_at_blank blank
    have block : rest = lines ++ ['\n'] := cut.2 ▸ stripNewline_eq_some.1 stripped
    have some : signatures ≠ [] := by
      rintro rfl
      exact splitOn_ne_nil _ _ written.symm
    rw [none, nil_append] at all
    refine ⟨all ▸ some, ?_⟩
    rw [toList_encode, all, flatMap_encode, written, flatMap_ended (splitOn_ne_nil _ _),
      intercalate_splitOn, ← block, sameText, text, toList_ofList, cut.1]
    calc message.take split ++ ['\n'] ++ '\n' :: rest
        = message.take split ++ (['\n', '\n'] ++ rest) := by simp
      _ = message.take split ++ message.drop split := by rw [blank]
      _ = message := take_append_drop _ _
  · rintro ⟨some, rfl⟩
    obtain ⟨front, text⟩ := getLast?_eq_some_iff.1 note.ended
    have lines : note.signatures.map NoteSignature.line ≠ [] := by simpa using some
    have written := flatMap_encode note.signatures
    have message : note.encode.toList =
        front ++ '\n' :: '\n' :: note.signatures.flatMap NoteSignature.encode := by
      rw [toList_encode, text]
      simp
    have plain : checkCharacters note.encode.toList = .ok () := by
      rw [checkCharacters_eq_ok, toList_encode, forall_mem_append, forall_mem_cons]
      exact ⟨checkCharacters_eq_ok.1 note.plain, .inl rfl, plain_signatures⟩
    have found : rfind ['\n', '\n'] note.encode.toList = Option.some front.length := by
      rw [message]
      exact rfind_append (prefix_append ['\n', '\n'] _) (no_blank_line _)
    have before : note.encode.toList.take (front.length + 1) = note.text.toList := by
      rw [message, text, append_cons]
      exact take_left' (by simp)
    have block : note.encode.toList.drop (front.length + 2) =
        note.signatures.flatMap NoteSignature.encode := by
      rw [message, append_cons, append_cons (front ++ ['\n'])]
      exact drop_left' (by simp)
    have stripped : stripNewline (note.encode.toList.drop (front.length + 2)) =
        Option.some (['\n'].intercalate (note.signatures.map line)) := by
      rw [block, written, flatMap_ended lines]
      exact stripNewline_eq_some.2 rfl
    have start : new (ofList (note.encode.toList.take (front.length + 1))) =
        .ok { note with signatures := [], distinct := .nil } := by
      rw [before, ofList_toList]
      exact new_eq_ok.2 ⟨rfl, rfl⟩
    have separate : ∀ line ∈ note.signatures.map NoteSignature.line, '\n' ∉ line := by
      intro line mem inside
      obtain ⟨signature, -, rfl⟩ := mem_map.1 mem
      exact (mem_line inside).1 rfl
    have folded : (['\n'].intercalate (note.signatures.map line)).splitOn '\n' =
        note.signatures.map line := splitOn_intercalate _ separate lines
    refine bind_eq_ok.2 ⟨(), plain, ?_⟩
    rw [found]
    dsimp only
    rw [stripped]
    dsimp only
    rw [if_neg ?_, start, folded]
    · exact foldlM_addLine.2 ⟨note.signatures, rfl, rfl, rfl⟩
    · intro empty
      rw [empty] at folded
      rw [splitOn_nil, eq_comm, map_eq_singleton_iff] at folded
      obtain ⟨signature, -, blank⟩ := folded
      exact signature.line_ne_nil blank

theorem fromUTF8_eq_some {message : String} :
    fromUTF8? ⟨bytes.toArray⟩ = some message ↔ utf8 message = bytes := by
  rw [fromUTF8?]
  constructor
  · intro found
    split at found
    · cases found
      rfl
    · contradiction
  · rintro rfl
    exact dif_pos message.isValidUTF8

theorem parse_eq_ok : parse bytes = .ok note ↔ note.signatures ≠ [] ∧ utf8 note.encode = bytes := by
  rw [parse]
  split
  · rename_i invalid
    simp only [reduceCtorEq, false_iff]
    rintro ⟨-, rfl⟩
    rw [fromUTF8_eq_some.2 rfl] at invalid
    contradiction
  · rename_i message valid
    obtain rfl := fromUTF8_eq_some.1 valid
    rw [parseMessage_eq_ok, toList_inj]
    exact and_congr_right fun _ => ⟨congrArg utf8, utf8_injective⟩

end Note

section Texts

variable {env : Signing Pair}

open VerifierKey

theorem VerifierKey.read_eq_ok {raw rest : List UInt8} {kind : KeyKind} :
    read raw = .ok (kind, rest) ↔ raw = kind.typeByte :: rest := by
  fun_cases read raw <;> cases kind <;> simp_all [KeyKind.typeByte]

theorem plus_notMem_hex (bytes : List UInt8) : '+' ∉ (hex bytes).toList := by
  intro mem
  rw [hex, String.toList_ofList, asChars] at mem
  obtain ⟨digit, inside, same⟩ := mem_map.1 mem
  obtain ⟨n, small, rfl⟩ := mem_hexBytes inside
  exact (by decide +kernel : ∀ n < 16, Char.ofUInt8 (hexDigits.getD n 0) ≠ '+') n small same

theorem VerifierKey.toList_text (key : VerifierKey) : (key.text env).toList = key.name.toList ++
    '+' :: ((hex (key.keyId env).1).toList ++ '+' ::
    (b64 (key.kind.typeByte :: key.publicKey.1)).toList) := by
  simp [text]

theorem VerifierKey.parse_eq_ok {vkey : String} {key : VerifierKey} :
    parse env vkey = .ok key ↔ key.text env = vkey := by
  constructor
  · intro parsed
    rw [parse] at parsed
    split at parsed
    · contradiction
    rename_i name rest found
    split at parsed
    · contradiction
    rename_i id encoded found'
    obtain ⟨text, -⟩ := splitOnce_eq_some.1 found
    obtain ⟨rfl, -⟩ := splitOnce_eq_some.1 found'
    obtain ⟨raw, decoded, parsed⟩ := bind_eq_ok.1 parsed
    obtain ⟨⟨kind, publicKey⟩, read, made⟩ := bind_eq_ok.1 parsed
    obtain rfl := read_eq_ok.1 read
    dsimp only at made
    split at made
    · split at made
      · split at made
        · contradiction
        rename_i bytes isHex
        obtain ⟨-, made⟩ := guard_eq_ok.1 made
        obtain ⟨same, made⟩ := guard_eq_ok.1 made
        cases made
        apply String.toList_inj.1
        rw [toList_text, text, ← not_not.1 same, unhex_eq_ok.1 isHex, b64_of_unb64 decoded]
        simp
      · contradiction
    · contradiction
  · rintro rfl
    have noPlus : '+' ∉ key.name.toList := by
      have named := key.named
      simp only [validKeyName, Bool.and_eq_true, decide_eq_true_eq] at named
      exact named.1.2
    rw [parse, toList_text, splitOnce_eq_some.2 ⟨rfl, noPlus⟩]
    dsimp only
    rw [splitOnce_eq_some.2 ⟨rfl, plus_notMem_hex _⟩]
    dsimp only
    simp only [String.ofList_toList, unb64_b64, unhex_eq_ok.2 rfl]
    refine bind_eq_ok.2 ⟨_, rfl, bind_eq_ok.2 ⟨_, read_eq_ok.2 rfl, ?_⟩⟩
    rw [dif_pos key.publicKey.2, dif_pos key.named, if_neg (not_not.2 (key.keyId env).2)]
    exact if_neg (not_not.2 rfl)

open Nat (toDigits toDigits_of_lt_base)

theorem digitChar_of_isDigit (isDigit : c.isDigit = true) :
    c.toNat - 48 < 10 ∧ (c.toNat - 48).digitChar = c := by
  simp only [Char.isDigit, Bool.and_eq_true, decide_eq_true_eq, ge_iff_le] at isDigit
  have bounds : 48 ≤ c.toNat ∧ c.toNat ≤ 57 := isDigit
  have small : c.toNat - 48 < 10 := by omega
  refine ⟨small, Char.toNat_inj.1 ?_⟩
  rw [Nat.toNat_digitChar_of_lt_ten small]
  omega

theorem decimal_append (digits : List Char) (c : Char) :
    decimal (digits ++ [c]) = decimal digits * 10 + (c.toNat - 48) := by
  rw [decimal, foldl_append]
  rfl

theorem decimal_toDigits (n : Nat) : decimal (toDigits 10 n) = n := by
  have step : decimal (toDigits 10 n) = Nat.ofDigitChars 10 (toDigits 10 n) 0 := by
    simp only [decimal, Nat.ofDigitChars_eq_foldl, Nat.mul_comm]
    rfl
  rw [step, Nat.ofDigitChars_ten_toDigits]

/-- Digits that do not begin with a zero are those of their number. -/
theorem toDigits_decimal (isDigit : ∀ c ∈ digits, c.isDigit = true)
    (nonempty : digits ≠ []) (leading : digits.head? ≠ some '0') :
    0 < decimal digits ∧ toDigits 10 (decimal digits) = digits := by
  induction digits using List.reverseRecOn with
  | nil => exact absurd rfl nonempty
  | append_singleton front c ih =>
    obtain ⟨small, char⟩ := digitChar_of_isDigit (isDigit c (by simp))
    rw [decimal_append]
    by_cases first : front = []
    · subst first
      have positive : c.toNat - 48 ≠ 0 := by
        intro zero
        rw [zero] at char
        exact leading (by simp [← char])
      have value : decimal [] * 10 + (c.toNat - 48) = c.toNat - 48 := Nat.zero_add _
      rw [value, toDigits_of_lt_base small, char]
      exact ⟨by omega, rfl⟩
    · rw [head?_append_of_ne_nil _ first] at leading
      obtain ⟨positive, digits⟩ := ih (fun c mem => isDigit c (by simp [mem])) first leading
      rw [Nat.mul_comm, ← Nat.toDigits_append_toDigits (by decide) positive small, digits,
        toDigits_of_lt_base small, char]
      exact ⟨by omega, rfl⟩

/-- The sizes that are read are the decimals of their numbers. -/
theorem plain_iff : ¬ (digits = [] ∨ ¬ digits.all Char.isDigit ∨
    (digits.length > 1 ∧ digits.head? = some '0')) ↔ toDigits 10 (decimal digits) = digits := by
  constructor
  · intro plain
    simp only [not_or, not_not, not_and] at plain
    obtain ⟨nonempty, isDigit, short⟩ := plain
    by_cases leading : digits.head? = some '0'
    · obtain ⟨rest, rfl⟩ := head?_eq_some_iff.1 leading
      have last : rest = [] := by
        by_contra more
        exact short (by simpa [length_pos_iff] using more) rfl
      rw [last]
      rfl
    · exact (toDigits_decimal (all_eq_true.1 isDigit) nonempty leading).2
  · rintro same (rfl | other | ⟨long, leading⟩)
    · exact Nat.toDigits_ne_nil same
    · rw [← same, all_eq_true] at other
      exact other fun c mem => Nat.isDigit_of_mem_toDigits (by decide) (by decide) mem
    · rw [← same] at leading long
      rcases Nat.eq_zero_or_pos (decimal digits) with zero | positive
      · rw [zero] at long
        contradiction
      · exact head_toDigits (by decide) positive leading

theorem Checkpoint.toList_text (checkpoint : Checkpoint Log.Digest) : checkpoint.text.toList =
    ['\n'].intercalate [checkpoint.origin.toList, toDigits 10 checkpoint.size,
      (b64 checkpoint.root.1).toList] ++ ['\n'] := by
  simp [Checkpoint.text]

theorem Checkpoint.parse_eq_ok {text : String} {checkpoint : Checkpoint Log.Digest} :
    Checkpoint.parse text = .ok checkpoint ↔ checkpoint.text = text ∧ checkpoint.origin ≠ "" ∧
      '\n' ∉ checkpoint.origin.toList ∧ checkpoint.size < 2 ^ 64 := by
  constructor
  · intro parsed
    rw [Checkpoint.parse] at parsed
    split at parsed
    · contradiction
    rename_i body stripped
    split at parsed
    all_goals try contradiction
    rename_i origin size root lines
    obtain ⟨named, parsed⟩ := guard_eq_ok.1 parsed
    obtain ⟨plain, parsed⟩ := guard_eq_ok.1 parsed
    obtain ⟨small, parsed⟩ := guard_eq_ok.1 parsed
    obtain ⟨bytes, decoded, parsed⟩ := bind_eq_ok.1 parsed
    split at parsed
    · cases parsed
      refine ⟨String.toList_inj.1 ?_, by simpa using named, ?_, Nat.not_le.1 small⟩
      · rw [Checkpoint.toList_text, plain_iff.1 plain, b64_of_unb64 decoded, String.toList_ofList,
          String.toList_ofList, ← lines, intercalate_splitOn, ← Note.stripNewline_eq_some.1 stripped]
      · rw [String.toList_ofList]
        exact notMem_of_mem_splitOn (l := body) (by simp [lines])
    · contradiction
  · rintro ⟨rfl, named, oneLine, small⟩
    have separate : ∀ line ∈ [checkpoint.origin.toList, toDigits 10 checkpoint.size,
        (b64 checkpoint.root.1).toList], '\n' ∉ line := by
      rw [forall_mem_cons, forall_mem_cons, forall_mem_singleton]
      refine ⟨oneLine, fun mem => ?_, fun mem => ?_⟩
      · exact absurd (Nat.isDigit_of_mem_toDigits (by decide) (by decide) mem) (by decide)
      · exact absurd (mem_b64 mem).1 (by decide)
    rw [Checkpoint.parse, Note.stripNewline_eq_some.2 checkpoint.toList_text]
    dsimp only
    rw [splitOn_intercalate _ separate (by simp)]
    dsimp only
    have digits := decimal_toDigits checkpoint.size
    rw [if_neg (by simpa using named), if_neg (plain_iff.2 (by rw [digits])), digits,
      if_neg (Nat.not_le.2 small), String.ofList_toList, String.ofList_toList, unb64_b64]
    exact dif_pos checkpoint.root.2

/-- A text is read as a checkpoint or as a key only if it is what the value is written as. Every
key is read back, and a checkpoint with an origin of one line that is not empty. -/
theorem texts_have_one_spelling {Pair : Type} (env : Signing Pair) (text : String)
    (checkpoint : Checkpoint Log.Digest) (key : VerifierKey) :
    (Checkpoint.parse text = .ok checkpoint ↔ checkpoint.text = text ∧ checkpoint.origin ≠ "" ∧
      '\n' ∉ checkpoint.origin.toList ∧ checkpoint.size < 2 ^ 64) ∧
    (VerifierKey.parse env text = .ok key ↔ key.text env = text) :=
  ⟨Checkpoint.parse_eq_ok, VerifierKey.parse_eq_ok⟩

/-- The fields of a checkpoint are public, so its origin can hold a line feed. -/
theorem checkpoint_not_read_back :
    Checkpoint.parse (Checkpoint.text ⟨"a\nb", 0, Log.sumDigest []⟩) ≠
      .ok ⟨"a\nb", 0, Log.sumDigest []⟩ := by
  intro parsed
  obtain ⟨-, -, oneLine, -⟩ := Checkpoint.parse_eq_ok.1 parsed
  exact oneLine (by simp)

end Texts

section Spelling

variable (env : Signing Pair)

def Signer.Made (signer : Signer Pair) (signature : NoteSignature) : Prop :=
  (∃ text, signer.signCheckpoint env text = .ok signature) ∨
    ∃ text time, signer.cosignCheckpoint env text time = .ok signature

/-- The notes that come from a text by adding signature lines one after the other. -/
inductive Note.Signed : Note → Prop
  | first {text : String} {start note : Note} {signature : NoteSignature} (signer : Signer Pair)
      (begun : Note.new text = .ok start) (made : signer.Made env signature)
      (added : start.withSignature signature = .ok note) : Note.Signed note
  | next {note next : Note} {signature : NoteSignature} (signer : Signer Pair)
      (before : Note.Signed note) (made : signer.Made env signature)
      (added : note.withSignature signature = .ok next) : Note.Signed next

variable {env}

theorem Note.Signed.signatures_ne_nil {note : Note} (signed : note.Signed env) : note.signatures ≠ [] := by
  cases signed with
  | first _ _ _ added => simp [(withSignature_eq_ok.1 added).2]
  | next _ _ _ added => simp [(withSignature_eq_ok.1 added).2]

/-- A note that is read is written as the bytes it was read from, and a note that was signed
is read back from what it is written as. -/
theorem note_has_one_spelling {Pair : Type} (env : Signing Pair) :
    (∀ bytes note, Note.parse bytes = .ok note → utf8 note.encode = bytes) ∧
      ∀ note : Note, note.Signed env → Note.parse (utf8 note.encode) = .ok note :=
  ⟨fun _ _ parsed => (Note.parse_eq_ok.1 parsed).2,
    fun _ signed => Note.parse_eq_ok.2 ⟨signed.signatures_ne_nil, rfl⟩⟩

def sampleSigning : Signing UInt8 where
  sha256 := Log.sumDigest
  publicKey seed := Log.sumDigest [seed]
  sign seed message :=
    ⟨(Log.sumDigest (seed :: message)).1 ++ (Log.sumDigest (message ++ [seed])).1, by
      rw [length_append, (Log.sumDigest _).2, (Log.sumDigest _).2]⟩

def sampleSigner : Signer UInt8 := ⟨"log", .log, 1, by decide +kernel⟩

def sampleCheckpoint : String := Checkpoint.text ⟨"log", 5, Log.sumDigest []⟩

/-- The text has blank lines itself, and a line that looks like a signature. -/
theorem note_with_blank_lines_is_read_back :
    ∃ note : Note, note.text = "a\n\n— log AAAAAAAA\n\n" ∧ note.Signed sampleSigning ∧
      Note.parse (utf8 note.encode) = .ok note := by
  obtain ⟨signature, signed⟩ := Option.isSome_iff_exists.1
    (show (sampleSigner.signCheckpoint sampleSigning sampleCheckpoint).toOption.isSome by decide +kernel)
  have plain : checkCharacters "a\n\n— log AAAAAAAA\n\n".toList = .ok () := by decide +kernel
  have ended : "a\n\n— log AAAAAAAA\n\n".toList.getLast? = some '\n' := by decide +kernel
  let start : Note := ⟨"a\n\n— log AAAAAAAA\n\n", [], plain, ended, .nil⟩
  let note : Note := { start with signatures := [signature], distinct := by simp }
  have isSigned : note.Signed sampleSigning :=
    .first sampleSigner (Note.new_eq_ok.2 ⟨rfl, rfl⟩)
      (.inl ⟨sampleCheckpoint, toOption_eq_some.1 signed⟩)
      (Note.withSignature_eq_ok.2 ⟨rfl, rfl⟩ : start.withSignature signature = .ok note)
  exact ⟨note, rfl, isSigned, (note_has_one_spelling sampleSigning).2 note isSigned⟩

end Spelling

end Dynodoc.Transparency
