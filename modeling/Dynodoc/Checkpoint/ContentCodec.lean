import Dynodoc.Checkpoint.Content

/-! The encodings of content objects: what is written is read back, and what is read
successfully is what would be written. -/
namespace Dynodoc.Checkpoint.Content
open List BigEndian Nat

variable {children : List Reference} {bytes : List UInt8} {height : Nat} {child : Reference}

theorem putReference_length (child : Reference) : (putReference child).length = 40 := by
  rw [putReference, length_append, child.address.2, encode_length]

theorem toAddress_val (a : Address) : toAddress a.1 = a := by
  rw [toAddress, dif_pos a.2]

theorem val_toAddress (exact : bytes.length = 32) : (toAddress bytes).1 = bytes := by
  rw [toAddress, dif_pos exact]

theorem reference_putReference (small : child.length < 2 ^ 64) :
    reference (putReference child) = child := by
  rw [reference, putReference, take_left' child.address.2, drop_left' child.address.2,
    take_of_length_le (le_of_eq (encode_length 8 _)), toAddress_val,
    decode_encode small]

theorem putReference_reference (length : bytes.length = 40) :
    putReference (reference bytes) = bytes := by
  have front : (bytes.take 32).length = 32 := length_take_of_le (by omega)
  have back : ((bytes.drop 32).take 8).length = 8 :=
    length_take_of_le (by rw [length_drop]; omega)
  have number := encode_decode ((bytes.drop 32).take 8)
  rw [back] at number
  have rest : (bytes.drop 32).take 8 = bytes.drop 32 :=
    take_of_length_le (by rw [length_drop]; omega)
  rw [putReference, reference, val_toAddress front, number, rest, take_append_drop]

theorem splitReferences_flatMap (small : ∀ child ∈ children, child.length < 2 ^ 64) :
    splitReferences (children.flatMap putReference) = children := by
  induction children with
  | nil =>
    rw [splitReferences]
    rfl
  | cons child rest ih =>
    have length := putReference_length child
    rw [flatMap_cons, splitReferences, if_pos (by rw [length_append]; omega),
      take_left' length, drop_left' length,
      reference_putReference (small child mem_cons_self),
      ih fun other mem => small other (mem_cons_of_mem child mem)]

theorem flatMap_splitReferences {count : Nat} (length : bytes.length = count * 40) :
    (splitReferences bytes).flatMap putReference = bytes ∧
      (splitReferences bytes).length = count := by
  induction count generalizing bytes with
  | zero =>
    rw [splitReferences, length_eq_zero_iff.1 length]
    exact ⟨rfl, rfl⟩
  | succ count ih =>
    obtain ⟨bytes_eq, length_eq⟩ := @ih (bytes.drop 40) (by rw [length_drop]; omega)
    rw [splitReferences, if_pos (by omega), flatMap_cons, bytes_eq,
      putReference_reference (length_take_of_le (by omega)), take_append_drop,
      length_cons, length_eq]
    exact ⟨rfl, rfl⟩

theorem length_le_of_packed {maximum : Nat}
    (tight : packed maximum children = true) : ∀ child ∈ children, child.length ≤ maximum := by
  fun_induction packed maximum children with
  | case1 => simp
  | case2 last => simpa using (Bool.and_eq_true_iff.1 tight).2
  | case3 child rest more ih =>
    simp only [Bool.and_eq_true, beq_iff_eq] at tight
    intro other mem
    rcases mem_cons.1 mem with rfl | mem
    · exact Nat.le_of_eq tight.1.2
    · exact ih tight.2 other mem

theorem capacity_pos (height : Nat) : 0 < capacity height :=
  Nat.mul_pos (by decide) (Nat.pow_pos (by decide))

theorem capacity_succ (height : Nat) : capacity (height + 1) = capacity height * fanout := by
  rw [capacity, capacity, Nat.pow_succ, Nat.mul_assoc]

theorem capacity_mono {low high : Nat} (le : low ≤ high) : capacity low ≤ capacity high :=
  Nat.mul_le_mul_left _ (Nat.pow_le_pow_right (by decide) le)

theorem capacity_lt (le : height ≤ maxHeight) : capacity height < 2 ^ 64 :=
  Nat.lt_of_le_of_lt (capacity_mono le) (by decide)

theorem heightFor_eq {length : Nat} (le : height ≤ maxHeight) (fits : length ≤ capacity height)
    (least : height = 0 ∨ capacity (height - 1) < length) : heightFor length = .ok height := by
  have found : (List.range (maxHeight + 1)).find? (fun h => length ≤ capacity h) = some height := by
    rw [find?_range_eq_some]
    refine ⟨by simpa using fits, by rw [mem_range]; omega, fun low below => ?_⟩
    have under : capacity low ≤ capacity (height - 1) := capacity_mono (by omega)
    simp only [Bool.not_eq_true', decide_eq_false_iff_not]
    omega
  rw [heightFor, found]

theorem of_heightFor {length : Nat} (found : heightFor length = .ok height) :
    height ≤ maxHeight ∧ length ≤ capacity height := by
  rw [heightFor] at found
  split at found
  · rename_i h first
    cases found
    have mem := mem_of_find?_eq_some first
    rw [mem_range] at mem
    exact ⟨by omega, by simpa using find?_some first⟩
  · contradiction

section Codec

variable {sha256 : List UInt8 → Address}
variable {rest : List UInt8} {object : Object}

theorem decode_header {tag : UInt8} (short : rest.length ≤ chunkBytes) :
    decode sha256 (address sha256 (header tag ++ rest)) (header tag ++ rest) =
      if tag = 1 then .ok (.chunk rest)
      else if tag = 2 ∧ 11 ≤ rest.length then decodeBranch (header tag ++ rest)
      else if tag = 3 ∧ rest.length = 41 then decodeRoot (header tag ++ rest)
      else .error (.invalid "content object kind or size") := by
  have length : (header tag ++ rest).length = 10 + rest.length := by
    rw [length_append]
    rfl
  have start : (header tag ++ rest).take 8 = magic := rfl
  have version : (header tag ++ rest).getD 8 0 = 1 := rfl
  have kind : (header tag ++ rest).getD 9 0 = tag := rfl
  have data : (header tag ++ rest).drop headerBytes = rest := rfl
  have branchLength : 21 ≤ 10 + rest.length ↔ 11 ≤ rest.length := by omega
  have rootLength : 10 + rest.length = 51 ↔ rest.length = 41 := by omega
  rw [decode, length, if_neg (by rw [headerBytes]; omega),
    if_neg (by rw [start, version, headerBytes]; simp), if_neg (not_not.2 rfl), kind, data]
  simp [branchLength, rootLength]

theorem decode_chunk {data : List UInt8} (short : data.length ≤ chunkBytes) :
    decode sha256 (address sha256 (chunkObject data)) (chunkObject data) = .ok (.chunk data) := by
  rw [chunkObject, decode_header short, if_pos rfl]

theorem toNat_ofNat_height (le : height ≤ maxHeight) : (UInt8.ofNat height).toNat = height := by
  have small : maxHeight < 256 := by decide
  rw [UInt8.toNat_ofNat']
  omega

theorem decode_branch (positive : 0 < height)
    (le : height ≤ maxHeight) (some : children ≠ []) (few : children.length ≤ fanout)
    (tight : packed (capacity (height - 1)) children = true)
    (total : totalLength children < 2 ^ 64) :
    decode sha256 (address sha256 (branchObject height children)) (branchObject height children) =
      .ok (.branch height children) := by
  have count := length_pos_iff.2 some
  have few' : children.length ≤ 128 := few
  have references : (children.flatMap putReference).length = children.length * 40 :=
    Chunks.length_flatMap putReference_length children
  have small : ∀ child ∈ children, child.length < 2 ^ 64 := fun child mem =>
    lt_of_le_of_lt (length_le_of_packed tight child mem) (capacity_lt (by omega))
  have length : (encode 8 (totalLength children) ++ (encode 2 children.length ++
      children.flatMap putReference)).length = 10 + children.length * 40 := by
    simp only [length_append, encode_length, references]
    omega
  have wide : 128 * 40 + 11 ≤ chunkBytes := by decide
  have kind : (branchObject height children).getD 10 0 = UInt8.ofNat height := rfl
  have tail : (branchObject height children).drop 11 = encode 8 (totalLength children) ++
      (encode 2 children.length ++ children.flatMap putReference) := rfl
  have counted : (branchObject height children).drop 19 =
      encode 2 children.length ++ children.flatMap putReference := by
    rw [← drop_drop (i := 8) (j := 11), tail, drop_left' (encode_length 8 _)]
  have body : (branchObject height children).drop 21 = children.flatMap putReference := by
    rw [← drop_drop (i := 2) (j := 19), counted, drop_left' (encode_length 2 _)]
  have whole : (branchObject height children).length = 21 + children.length * 40 := by
    rw [branchObject, length_append, length_append, length]
    change 10 + (1 + _) = _
    omega
  have isBranch : decode sha256 (address sha256 (branchObject height children))
    (branchObject height children) =
      decodeBranch (branchObject height children) := by
    rw [branchObject, decode_header (by rw [length_append, length, length_singleton]; omega),
      if_neg (by decide), if_pos ⟨rfl, by rw [length_append, length, length_singleton]; omega⟩]
  have totalRead := @BigEndian.decode_encode 8 _ total
  have countRead := @BigEndian.decode_encode 2 children.length (by omega)
  rw [isBranch, decodeBranch, kind, tail, counted, body, whole, toNat_ofNat_height le,
    take_left' (encode_length 8 _), take_left' (encode_length 2 _),
    totalRead, countRead, splitReferences_flatMap small]
  have bounds : ¬ (height = 0 ∨ maxHeight < height ∨ children.length = 0 ∨
      fanout < children.length) := by omega
  simp only [ne_eq, not_true_eq_false, or_false, if_neg bounds, tight, Bool.true_eq_false,
    if_false]

theorem decode_root (own : heightFor child.length = .ok height) :
    decode sha256 (address sha256 (rootObject height child)) (rootObject height child) =
      .ok (.root height child) := by
  obtain ⟨le, fits⟩ := of_heightFor own
  have small : child.length < 2 ^ 64 := lt_of_le_of_lt fits (capacity_lt le)
  have length : (encode 8 child.length ++ child.address.1).length = 40 := by
    rw [length_append, encode_length, child.address.2]
  have kind : (rootObject height child).getD 10 0 = UInt8.ofNat height := rfl
  have tail : (rootObject height child).drop 11 = encode 8 child.length ++ child.address.1 := rfl
  have body : (rootObject height child).drop 19 = child.address.1 := by
    rw [← drop_drop (i := 8) (j := 11), tail, drop_left' (encode_length 8 _)]
  have short : ([UInt8.ofNat height] ++ (encode 8 child.length ++
      child.address.1)).length ≤ chunkBytes := by
    rw [length_append, length, length_singleton]
    decide
  have isRoot : decode sha256 (address sha256 (rootObject height child)) (rootObject height child) =
      decodeRoot (rootObject height child) := by
    rw [rootObject, decode_header short, if_neg (by decide),
      if_neg (fun both => absurd both.1 (by decide)), if_pos ⟨rfl, by rw [length_append, length]; rfl⟩]
  rw [isRoot, decodeRoot, kind, tail, body, toNat_ofNat_height le, take_left' (encode_length 8 _),
    decode_encode small, toAddress_val]
  simp only [own, ne_eq, not_true_eq_false, if_false]

inductive Decoded : List UInt8 → Object → Prop where
  | chunk (data : List UInt8) : Decoded (chunkObject data) (.chunk data)
  | branch {height : Nat} {children : List Reference} (positive : 0 < height)
      (le : height ≤ maxHeight) (some : children ≠ [])
      (tight : packed (capacity (height - 1)) children = true) :
      Decoded (branchObject height children) (.branch height children)
  | root {height : Nat} {child : Reference} (own : heightFor child.length = .ok height) :
      Decoded (rootObject height child) (.root height child)

theorem drop_eq_getD_cons {l : List UInt8} {i : Nat} (below : i < l.length) :
    l.drop i = l.getD i 0 :: l.drop (i + 1) := by
  rw [drop_eq_getElem_cons below, getD_eq_getElem?_getD,
    getElem?_eq_getElem below, Option.getD_some]

theorem eq_header_append (long : 10 ≤ bytes.length)
    (start : bytes.take 8 = magic) (version : bytes.getD 8 0 = 1) :
    bytes = header (bytes.getD 9 0) ++ bytes.drop 10 := by
  calc bytes = bytes.take 8 ++ bytes.drop 8 := (take_append_drop 8 bytes).symm
    _ = header (bytes.getD 9 0) ++ bytes.drop 10 := by
      rw [start, drop_eq_getD_cons (by omega), drop_eq_getD_cons (by omega), version, header,
        append_assoc]
      rfl

theorem eq_fields (long : 9 ≤ rest.length) :
    rest = [rest.getD 0 0] ++ (BigEndian.encode 8 (BigEndian.decode ((rest.drop 1).take 8)) ++
      rest.drop 9) := by
  have number := BigEndian.encode_decode ((rest.drop 1).take 8)
  rw [length_take_of_le (by rw [length_drop]; omega)] at number
  rw [number, ← drop_drop (i := 8) (j := 1), take_append_drop]
  exact drop_eq_getD_cons (i := 0) (by omega)

theorem of_decodeBranch (long : 11 ≤ rest.length)
    (read : decodeBranch (header 2 ++ rest) = .ok object) : Decoded (header 2 ++ rest) object := by
  have kind : (header 2 ++ rest).getD 10 0 = rest.getD 0 0 := by cases rest <;> rfl
  have drop11 : (header 2 ++ rest).drop 11 = rest.drop 1 := rfl
  have drop19 : (header 2 ++ rest).drop 19 = rest.drop 9 := rfl
  have drop21 : (header 2 ++ rest).drop 21 = rest.drop 11 := rfl
  have length : (header 2 ++ rest).length = 10 + rest.length := by
    rw [length_append]
    rfl
  simp only [decodeBranch, kind, drop11, drop19, drop21, length] at read
  split at read
  · contradiction
  rename_i bounds
  split at read
  · contradiction
  rename_i tight
  split at read
  · contradiction
  rename_i total
  cases read
  simp only [not_or, not_not, not_lt, ne_eq] at bounds
  obtain ⟨positive, le, count, few, size⟩ := bounds
  have references : (rest.drop 11).length = BigEndian.decode ((rest.drop 9).take 2) * 40 := by
    rw [length_drop]
    omega
  obtain ⟨body, counted⟩ := flatMap_splitReferences references
  have some : splitReferences (rest.drop 11) ≠ [] := by
    intro none
    rw [none] at counted
    exact count counted.symm
  have bytes : header 2 ++ rest =
      branchObject (rest.getD 0 0).toNat (splitReferences (rest.drop 11)) := by
    have fields := eq_fields (show 9 ≤ rest.length by omega)
    have number := BigEndian.encode_decode ((rest.drop 9).take 2)
    rw [length_take_of_le (by rw [length_drop]; omega), ← counted] at number
    rw [branchObject, UInt8.ofNat_toNat, not_not.1 total, number, body,
      ← drop_drop (i := 2) (j := 9), take_append_drop]
    exact congrArg (header 2 ++ ·) fields
  rw [bytes]
  exact .branch (pos_of_ne_zero positive) le some (by simpa using tight)

theorem of_decodeRoot (length : rest.length = 41)
    (read : decodeRoot (header 3 ++ rest) = .ok object) : Decoded (header 3 ++ rest) object := by
  have kind : (header 3 ++ rest).getD 10 0 = rest.getD 0 0 := by cases rest <;> rfl
  have drop11 : (header 3 ++ rest).drop 11 = rest.drop 1 := rfl
  have drop19 : (header 3 ++ rest).drop 19 = rest.drop 9 := rfl
  simp only [decodeRoot, kind, drop11, drop19] at read
  split at read
  · contradiction
  rename_i height found
  split at read
  · contradiction
  rename_i same
  cases read
  have bytes : header 3 ++ rest = rootObject (rest.getD 0 0).toNat
      ⟨toAddress (rest.drop 9), BigEndian.decode ((rest.drop 1).take 8)⟩ := by
    rw [rootObject, UInt8.ofNat_toNat, val_toAddress (by rw [length_drop]; omega)]
    exact congrArg (header 3 ++ ·) (eq_fields (by omega))
  rw [bytes]
  exact .root (not_not.1 same ▸ found)

/-- What is read is what would be written, at the address it was asked for. -/
theorem of_decode {expected : Address} (read : decode sha256 expected bytes = .ok object) :
    address sha256 bytes = expected ∧ Decoded bytes object := by
  simp only [decode] at read
  split at read
  · contradiction
  split at read
  · contradiction
  rename_i head
  split at read
  · contradiction
  rename_i own
  rw [not_or, not_or, not_not, not_not, not_lt] at head
  obtain ⟨long, start, version⟩ := head
  refine ⟨not_not.1 own, ?_⟩
  have parts := eq_header_append long start version
  generalize kind : bytes.getD 9 0 = tag at read parts
  generalize bytes.drop 10 = rest at parts
  subst parts
  have length : (header tag ++ rest).length = 10 + rest.length := by
    rw [length_append]
    rfl
  split at read
  · rename_i one
    cases read
    rw [one]
    exact .chunk rest
  · split at read
    · rename_i two
      rw [two.1] at read ⊢
      exact of_decodeBranch (by omega) read
    · split at read
      · rename_i three
        rw [three.1] at read ⊢
        exact of_decodeRoot (by omega) read
      · contradiction

end Codec

end Dynodoc.Checkpoint.Content
