import Dynodoc.Checkpoint.ContentWrite

/-! The reader accepts the tree of a byte string and no other tree over the same bytes. -/
namespace Dynodoc.Checkpoint.Content

open Chunks (pieces Piece)
open List Chunks

variable {data : List UInt8} {height : Nat} {parts : List (List UInt8)}

def visits : Nat → List UInt8 → Nat
  | 0, _ => 1
  | height + 1, data => ((pieces (capacity height) data).map (visits height)).sum + 1

theorem visits_pos (height : Nat) (data : List UInt8) : 0 < visits height data := by
  cases height with
  | zero => exact Nat.one_pos
  | succ height => exact Nat.succ_pos _

theorem chunkCount_pos (some : data ≠ []) : 0 < chunkCount data := by
  rw [chunkCount_step some]
  exact Nat.succ_pos _

/-- Whole chunks in front are counted for themselves. -/
theorem chunkCount_cut (count : Nat) (data : List UInt8) :
    chunkCount (data.take (chunkBytes * count)) + chunkCount (data.drop (chunkBytes * count)) =
      chunkCount data := by
  rw [chunkCount, chunkCount, chunkCount, length_take, length_drop, chunkBytes]
  omega

theorem sum_chunkCount (count : Nat) (positive : 0 < count) (data : List UInt8) :
    ((pieces (chunkBytes * count) data).map chunkCount).sum = chunkCount data := by
  have wide : 0 < chunkBytes * count := Nat.mul_pos (by decide) positive
  fun_induction pieces (chunkBytes * count) data with
  | case1 data none =>
    rw [none.resolve_left (by omega)]
    rfl
  | case2 data more ih =>
    rw [map_cons, sum_cons, ih, chunkCount_cut]

theorem sum_visits_le {bound : Nat} (each : ∀ x ∈ parts, visits height x ≤ bound * chunkCount x) :
    (parts.map (visits height)).sum ≤ bound * (parts.map chunkCount).sum := by
  induction parts with
  | nil => exact Nat.zero_le _
  | cons x rest ih =>
    have first := each x mem_cons_self
    have later := ih fun y mem => each y (mem_cons_of_mem x mem)
    rw [map_cons, sum_cons, map_cons, sum_cons, Nat.mul_add]
    omega

theorem visits_le (some : data ≠ []) : visits height data ≤ (height + 1) * chunkCount data := by
  induction height generalizing data with
  | zero =>
    rw [Nat.one_mul]
    exact chunkCount_pos some
  | succ height ih =>
    have each (x : List UInt8) (mem : x ∈ pieces (capacity height) data) :
        visits height x ≤ (height + 1) * chunkCount x :=
      ih (piece_of_mem (capacity_pos height) mem).some
    have below := sum_visits_le each
    have whole : ((pieces (capacity height) data).map chunkCount).sum = chunkCount data :=
      sum_chunkCount (fanout ^ height) (Nat.pow_pos (by decide)) data
    have positive := chunkCount_pos some
    rw [whole] at below
    rw [visits, Nat.succ_mul (height + 1)]
    omega

section Complete

variable (sha256 : List UInt8 → Address) (store : Store)

/-- The tree of a given height over a byte string is in the store. -/
structure Tree (part : Nat × List UInt8) : Prop where
  le : part.1 ≤ maxHeight
  short : part.2.length ≤ capacity part.1
  filled : part.2 ≠ [] ∨ part.1 = 0
  stored : Stored sha256 (fun a bytes => store.objects a = some bytes) part.1 part.2

def entry (part : Nat × List UInt8) : Nat × Reference := (part.1, node sha256 part.1 part.2)

def cost (parts : List (Nat × List UInt8)) : Nat := (parts.map fun p => visits p.1 p.2).sum

theorem cost_append (parts rest : List (Nat × List UInt8)) :
    cost (parts ++ rest) = cost parts + cost rest := by
  rw [cost, map_append, sum_append]
  rfl

theorem length_le_cost (parts : List (Nat × List UInt8)) : parts.length ≤ cost parts := by
  induction parts with
  | nil => exact Nat.zero_le _
  | cons part rest ih =>
    have positive := visits_pos part.1 part.2
    change rest.length + 1 ≤ visits part.1 part.2 + cost rest
    omega

def below (height : Nat) (data : List UInt8) : List (Nat × List UInt8) :=
  (pieces (capacity height) data).map fun x => (height, x)

theorem map_entry_below (height : Nat) (data : List UInt8) :
    (below height data).map (entry sha256) =
      ((pieces (capacity height) data).map (node sha256 height)).map fun child =>
        (height, child) := by
  rw [below, map_map, map_map]
  rfl

theorem flatten_below (height : Nat) (data : List UInt8) :
    ((below height data).map Prod.snd).flatten = data := by
  rw [below]
  simp [flatten_pieces (capacity_pos height)]

theorem visits_succ (height : Nat) (data : List UInt8) :
    visits (height + 1) data = cost (below height data) + 1 := by
  rw [cost, below, map_map]
  rfl

variable {sha256 store}

theorem Tree.get {part : Nat × List UInt8} (tree : Tree sha256 store part) :
    store.get (entry sha256 part).2.address = .ok (objectOf sha256 part.1 part.2) := by
  obtain ⟨height, data⟩ := part
  have stored := tree.stored
  cases height with
  | zero =>
    change store.get (address sha256 (chunkObject data)) = _
    rw [Store.get, stored]
    rfl
  | succ height =>
    change store.get (address sha256 (objectOf sha256 (height + 1) data)) = _
    rw [Store.get, stored.1]

theorem Tree.below (tree : Tree sha256 store (height + 1, data)) :
    ∀ part ∈ below height data, Tree sha256 store part := by
  intro part mem
  obtain ⟨x, piece, rfl⟩ := mem_map.1 mem
  have place := piece_of_mem (capacity_pos height) piece
  exact ⟨Nat.le_of_lt tree.le, place.length_le, .inl place.some, tree.stored.2 x piece⟩

/-- The reader of stored trees writes their bytes, and fails only for lack of budget. -/
theorem readLoop_ends {parts : List (Nat × List UInt8)}
    (trees : ∀ part ∈ parts, Tree sha256 store part) (maxObjects maxBytes : Nat)
    (output : List UInt8) :
    Effect.Ends (readLoop sha256 store maxObjects maxBytes (parts.map (entry sha256)) output)
      (fun _ output' => output' = output ++ (parts.map Prod.snd).flatten)
      (fun _ => ¬ Limits.Affords objectSize (cost parts) ⟨maxObjects, maxBytes⟩) := by
  induction maxObjects generalizing parts maxBytes output with
  | zero =>
    cases parts with
    | nil => exact (append_nil output).symm
    | cons part rest =>
      intro affords
      have few := length_le_cost (part :: rest)
      have room := affords.objects
      dsimp only [length_cons] at few room
      omega
  | succ maxObjects ih =>
    cases parts with
    | nil => exact (append_nil output).symm
    | cons part rest =>
      obtain ⟨height, data⟩ := part
      have tree := trees (height, data) mem_cons_self
      have later := fun p mem => trees p (mem_cons_of_mem (height, data) mem)
      have get := tree.get
      -- what is left after this object, if there was enough before it
      have left {deeper : Nat} (count : visits height data = deeper + 1)
          (affords : Limits.Affords objectSize (cost ((height, data) :: rest))
            ⟨maxObjects + 1, maxBytes⟩) := by
        have split : cost ((height, data) :: rest) = visits height data + cost rest := rfl
        rw [split, count, Nat.add_right_comm] at affords
        have size : (objectOf sha256 height data).length ≤ objectSize :=
          objectOf_length sha256 tree.short
        exact affords.visit size
      rw [map_cons, entry, readLoop]
      dsimp only [entry] at get ⊢
      rw [get]
      dsimp only
      by_cases broke : maxBytes < (objectOf sha256 height data).length
      · rw [if_pos broke]
        intro affords
        have paid := (left (Nat.succ_pred_eq_of_pos (visits_pos height data)).symm affords).1
        omega
      rw [if_neg broke]
      cases height with
      | zero =>
        have read : decode sha256 (node sha256 0 data).address (objectOf sha256 0 data) =
            .ok (.chunk data) := decode_chunk tree.short
        rw [read]
        dsimp only
        rw [if_pos ⟨rfl, rfl⟩]
        refine (ih later _ (output ++ data)).mono ?_ ?_
        · rintro _ _ rfl
          rw [map_cons, flatten_cons, append_assoc]
        · intro _ broke affords
          exact broke (Limits.Affords.mono (left rfl affords).2 (by omega))
      | succ height =>
        have read : decode sha256 (node sha256 (height + 1) data).address
            (objectOf sha256 (height + 1) data) =
            .ok (.branch (height + 1) ((pieces (capacity height) data).map (node sha256 height))) :=
          decode_objectOf_succ sha256 tree.le
            (tree.filled.resolve_right (Nat.succ_ne_zero height)) tree.short
        have total : totalLength ((pieces (capacity height) data).map (node sha256 height)) =
            (node sha256 (height + 1) data).length := by
          rw [totalLength_nodes height _ (capacity_pos height), node_length]
        have enough (affords : Limits.Affords objectSize (cost ((height + 1, data) :: rest))
            ⟨maxObjects + 1, maxBytes⟩) := (left (visits_succ height data) affords).2
        rw [← cost_append] at enough
        rw [read]
        dsimp only
        rw [if_pos ⟨Nat.succ_pos height, rfl⟩, if_neg (not_not.2 total), Nat.add_sub_cancel,
          ← map_entry_below, ← map_append]
        by_cases many : maxObjects < (rest.map (entry sha256)).length +
            ((pieces (capacity height) data).map (node sha256 height)).length
        · rw [if_pos many]
          intro affords
          have room := (enough affords).objects
          have few := length_le_cost (below height data ++ rest)
          rw [length_append, below, length_map] at few
          rw [length_map, length_map] at many
          dsimp only [below] at room
          omega
        · rw [if_neg many]
          refine (ih ?_ _ output).mono ?_ fun _ broke affords => broke (enough affords)
          · intro p mem
            rcases mem_append.1 mem with mem | mem
            · exact tree.below p mem
            · exact later p mem
          · rintro _ _ rfl
            rw [map_append, flatten_append, flatten_below, map_cons,
              flatten_cons]

theorem visits_treeHeight_le (fits : data.length ≤ capacity maxHeight) :
    visits (treeHeight data.length) data ≤ 5 * chunkCount data + 5 := by
  obtain ⟨le, -⟩ := of_heightFor (heightFor_treeHeight fits)
  by_cases none : data = []
  · subst none
    decide
  · have bound : visits (treeHeight data.length) data ≤ _ := visits_le none
    have factor := Nat.mul_le_mul_right (chunkCount data) (Nat.succ_le_succ le)
    have five : Nat.succ maxHeight = 5 := rfl
    rw [five] at factor
    change (treeHeight data.length + 1) * chunkCount data ≤ _ at factor
    omega

theorem readInto_ends (fits : data.length ≤ capacity maxHeight)
    (root : store.objects (contentRoot sha256 data) = some (rootOf sha256 data))
    (stored : Stored sha256 (fun a bytes => store.objects a = some bytes)
      (treeHeight data.length) data) (limits : Limits) (output : List UInt8) :
    Effect.Ends (readInto sha256 store (contentRoot sha256 data) limits output)
      (fun length output' => length = data.length ∧ output' = output ++ data)
      (fun _ => ¬ Limits.Enough limits data) := by
  obtain ⟨le, short⟩ := of_heightFor (heightFor_treeHeight fits)
  have filled : data ≠ [] ∨ treeHeight data.length = 0 := by
    by_cases none : data = []
    · subst none
      exact .inr rfl
    · exact .inl none
  have tree : ∀ part ∈ [(treeHeight data.length, data)], Tree sha256 store part := by
    intro part mem
    rw [mem_singleton.1 mem]
    exact ⟨le, short, filled, stored⟩
  have get : store.get (contentRoot sha256 data) = .ok (rootOf sha256 data) := by
    rw [Store.get, root]
  have read : decode sha256 (contentRoot sha256 data) (rootOf sha256 data) =
      .ok (.root (treeHeight data.length) (node sha256 (treeHeight data.length) data)) :=
    decode_root (by rw [node_length]; exact heightFor_treeHeight fits)
  rw [readInto]
  by_cases empty : limits.maxObjects = 0
  · rw [if_pos empty]
    intro enough
    have objects := enough.objects
    omega
  rw [if_neg empty, get]
  dsimp only
  cases paid : limits.consume (rootOf sha256 data).length with
  | error e =>
    intro enough
    obtain ⟨rest, consumed, -⟩ := enough.consume (rootOf_length sha256 data)
    rw [paid] at consumed
    contradiction
  | ok limits' =>
    have affords (enough : Limits.Enough limits data) :
        limits'.Affords objectSize (5 * chunkCount data + 5) := by
      obtain ⟨rest, consumed, affords⟩ := enough.consume (rootOf_length sha256 data)
      rw [paid] at consumed
      cases consumed
      exact affords
    rw [read]
    dsimp only
    rw [node_length]
    by_cases narrow : limits'.maxBytes < data.length
    · rw [if_pos narrow]
      intro enough
      have room := (affords enough).bytes
      have size : objectSize = 65546 := rfl
      have count : chunkCount data = (data.length + 65535) / 65536 := rfl
      rw [size] at room
      omega
    · rw [if_neg narrow]
      refine Effect.Ends.bind ((readLoop_ends tree limits'.maxObjects limits'.maxBytes
        output).mono (fun _ _ => id) fun _ broke enough => broke ?_) ?_
      · exact (affords enough).mono (visits_treeHeight_le fits)
      · rintro _ _ rfl
        refine ⟨rfl, ?_⟩
        rw [map_singleton, flatten_singleton]

end Complete

section Sound

variable {sha256 : List UInt8 → Address} {store : Store}

theorem pieces_of_packed
    (tight : packed (capacity height) (parts.map (node sha256 height)) = true) :
    pieces (capacity height) parts.flatten = parts := by
  induction parts with
  | nil => exact pieces_nil _
  | cons x rest ih =>
    have positive := capacity_pos height
    cases rest with
    | nil =>
      simp only [map_cons, map_nil, packed, node_length, Bool.and_eq_true,
        decide_eq_true_eq] at tight
      rw [flatten_singleton]
      exact pieces_single positive (length_pos_iff.1 (by omega)) tight.2
    | cons y rest =>
      simp only [map_cons, packed, node_length, Bool.and_eq_true, beq_iff_eq] at tight ih
      have some : x ≠ [] := length_pos_iff.1 (by omega)
      rw [flatten_cons, pieces_cons positive some _ (.inl tight.1.2), ih tight.2]

theorem eq_node_of_children {children : List Reference} {child : Reference}
    {front : List (Nat × List UInt8)}
    (entries : front.map (entry sha256) = children.map fun c => (height, c))
    (tight : packed (capacity height) children = true)
    (own : address sha256 (branchObject (height + 1) children) = child.address)
    (total : totalLength children = child.length) :
    child = node sha256 (height + 1) (front.map Prod.snd).flatten := by
  have level : ∀ part ∈ front, part.1 = height := by
    intro part mem
    have found : entry sha256 part ∈ children.map fun c => (height, c) :=
      entries ▸ mem_map_of_mem mem
    obtain ⟨c, -, same⟩ := mem_map.1 found
    exact (congrArg Prod.fst same).symm
  have nodes : children = (front.map Prod.snd).map (node sha256 height) := by
    calc children = (children.map fun c => (height, c)).map Prod.snd := by
          rw [map_map]
          exact (map_id children).symm
      _ = (front.map (entry sha256)).map Prod.snd := by rw [entries]
      _ = (front.map Prod.snd).map (node sha256 height) := by
        rw [map_map, map_map]
        refine map_congr_left fun part mem => ?_
        change node sha256 part.1 part.2 = node sha256 height part.2
        rw [level part mem]
  have cut : pieces (capacity height) (front.map Prod.snd).flatten = front.map Prod.snd :=
    pieces_of_packed (nodes ▸ tight)
  have length : totalLength ((pieces (capacity height) (front.map Prod.snd).flatten).map
      (node sha256 height)) = (front.map Prod.snd).flatten.length :=
    totalLength_nodes height _ (capacity_pos height) _
  rw [cut, ← nodes, total] at length
  rw [node, cut, ← nodes, own, ← length]

variable {output output' : List UInt8}

theorem of_readLoop {maxObjects maxBytes : Nat} {stack : List (Nat × Reference)}
    (ok : readLoop sha256 store maxObjects maxBytes stack output = .ok () output') :
    ∃ parts : List (Nat × List UInt8), stack = parts.map (entry sha256) ∧
      output' = output ++ (parts.map Prod.snd).flatten := by
  induction maxObjects generalizing maxBytes stack output with
  | zero =>
    cases stack with
    | nil =>
      cases ok
      exact ⟨[], rfl, (append_nil output').symm⟩
    | cons top stack => cases ok
  | succ maxObjects ih =>
    cases stack with
    | nil =>
      cases ok
      exact ⟨[], rfl, (append_nil output').symm⟩
    | cons top stack =>
      obtain ⟨height, child⟩ := top
      rw [readLoop] at ok
      rcases found : store.get child.address with e | bytes <;> rw [found] at ok
      · cases ok
      dsimp only at ok
      split at ok
      · cases ok
      rcases read : decode sha256 child.address bytes with e | object <;> rw [read] at ok
      · cases ok
      obtain ⟨own, decoded⟩ := of_decode read
      cases decoded with
      | chunk data =>
        dsimp only at ok
        split at ok
        · rename_i exact_
          obtain ⟨rfl, length⟩ := exact_
          obtain ⟨parts, rfl, rfl⟩ := ih ok
          refine ⟨(0, data) :: parts, ?_, ?_⟩
          · rw [map_cons, entry, node, own, length]
          · rw [map_cons, flatten_cons, append_assoc]
        · cases ok
      | branch positive le some tight =>
        dsimp only at ok
        split at ok
        · rename_i exact_
          obtain ⟨-, rfl⟩ := exact_
          split at ok
          · cases ok
          rename_i total
          split at ok
          · cases ok
          obtain ⟨parts, both, rfl⟩ := ih ok
          obtain ⟨front, back, rfl, entries, rfl⟩ := map_eq_append_iff.1 both.symm
          obtain ⟨height, rfl⟩ := Nat.exists_eq_succ_of_ne_zero (Nat.ne_of_gt positive)
          rw [Nat.succ_sub_one] at entries tight
          refine ⟨(height + 1, (front.map Prod.snd).flatten) :: back, ?_, ?_⟩
          · rw [map_cons, entry,
              ← eq_node_of_children entries tight own (not_not.1 total)]
          · rw [map_append, flatten_append, map_cons, flatten_cons]
        · cases ok
      | root _ => cases ok

theorem of_readInto {root : Address} {limits : Limits} {length : Nat}
    (ok : readInto sha256 store root limits output = .ok length output') :
    ∃ data, output' = output ++ data ∧ length = data.length ∧
      data.length ≤ capacity maxHeight ∧ root = contentRoot sha256 data := by
  rw [readInto] at ok
  split at ok
  · cases ok
  rcases found : store.get root with e | bytes <;> rw [found] at ok
  · cases ok
  dsimp only at ok
  rcases paid : limits.consume bytes.length with e | limits' <;> rw [paid] at ok
  · cases ok
  rcases read : decode sha256 root bytes with e | object <;> rw [read] at ok
  · cases ok
  obtain ⟨rfl, decoded⟩ := of_decode read
  cases decoded with
  | chunk data => cases ok
  | branch positive le some tight => cases ok
  | @root height child own =>
    dsimp only at ok
    split at ok
    · cases ok
    simp only [bind, EStateM.bind] at ok
    split at ok
    · rename_i loop
      cases ok
      obtain ⟨parts, single, rfl⟩ := of_readLoop loop
      obtain ⟨⟨height', data⟩, rfl, same⟩ := map_eq_singleton_iff.1 single.symm
      cases same
      rw [node_length] at own
      refine ⟨data, by simp, node_length _ _, ?_, ?_⟩
      · obtain ⟨le, short⟩ := of_heightFor own
        exact Nat.le_trans short (capacity_mono le)
      · rw [contentRoot, rootOf, treeHeight_eq own]
    · cases ok

end Sound

/-- What a reader returns in turn until it has returned all of `data`. -/
structure Splits (data : List UInt8) (input : Input) : Prop where
  portions : ∀ portion ∈ input, portion ≠ []
  whole : input.flatten = data

/-- There is one tree for a byte string. Writing the bytes gives its root, however the input
is split, and the root is read back as these bytes; either fails only for lack of budget.
A root that is read as some bytes is the root of these bytes. No two objects of the tree may
have one address, and the store may have no other object at their addresses. -/
theorem content_has_one_tree (sha256 : List UInt8 → Address)
    (other : Address → List UInt8 → Except Error Unit) :
    (∀ data input, data.length ≤ capacity maxHeight → CollisionFree sha256 data →
      Splits data input → ∀ store limits, store.Agrees (IsObject sha256 data) →
      Effect.Ends (write sha256 other store input limits)
        (fun result w => result.1 = contentRoot sha256 data ∧
          ∀ limits' output, Effect.Ends (readInto sha256 w.store result.1 limits' output)
            (fun length output' => length = data.length ∧ output' = output ++ data)
            (fun _ => ¬ Limits.Enough limits' data))
        (fun _ => ¬ Limits.Enough limits data)) ∧
    ∀ store root limits length data, readInto sha256 store root limits [] = .ok length data →
      data.length ≤ capacity maxHeight ∧ root = contentRoot sha256 data := by
  constructor
  · intro data input fits distinct splits store limits agrees
    refine (write_ends fits distinct splits.portions splits.whole agrees limits).mono ?_
      fun _ => id
    rintro ⟨_, stats⟩ w ⟨rfl, root, stored⟩
    exact ⟨rfl, readInto_ends fits root stored⟩
  · intro store root limits length data ok
    obtain ⟨_, rfl, -, fits, rfl⟩ := of_readInto ok
    exact ⟨fits, rfl⟩

/-- A hash that tells a few small objects apart. -/
def toyHash (bytes : List UInt8) : Address :=
  ⟨UInt8.ofNat bytes.length :: bytes.getD 29 0 :: List.replicate 30 0, rfl⟩

theorem toyHash_collisionFree : CollisionFree toyHash [1, 2, 3] := by
  unfold CollisionFree
  decide +kernel

theorem three_bytes_come_back :
    ∃ result w, write toyHash (fun _ _ => .error .hashMismatch) .empty [[1], [2, 3]]
        ⟨11, 11 * 65546⟩ = .ok result w ∧
      readInto toyHash w.store result.1 ⟨11, 11 * 65546⟩ [] = .ok 3 [1, 2, 3] ∧
      result.1 = contentRoot toyHash [1, 2, 3] := by
  obtain ⟨writes, reads⟩ := content_has_one_tree toyHash fun _ _ => .error .hashMismatch
  have enough : Limits.Enough ⟨11, 11 * 65546⟩ [1, 2, 3] := ⟨by decide, by decide⟩
  obtain ⟨result, w, wrote, -, back⟩ := (writes [1, 2, 3] [[1], [2, 3]] (by decide)
    toyHash_collisionFree ⟨by decide, rfl⟩ .empty ⟨11, 11 * 65546⟩
    (fun a bytes bytes' _ found => nomatch found)).of_not_fail fun _ => not_not.2 enough
  obtain ⟨_, _, read, rfl, rfl⟩ := (back ⟨11, 11 * 65546⟩ []).of_not_fail fun _ =>
    not_not.2 enough
  exact ⟨result, w, wrote, read, (reads w.store result.1 _ _ _ read).2⟩

end Dynodoc.Checkpoint.Content
