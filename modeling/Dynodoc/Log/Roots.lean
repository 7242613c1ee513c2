import Dynodoc.Lib.PaddedTree
import Dynodoc.Log.Chain

/-! The root over the events of a log, which is kept while they come, and the root over the nodes of
a state. -/
namespace Dynodoc.Log
open Std List

section Tree

variable (sha256 : List UInt8 → Digest)

def leaf (content : List UInt8) : Digest := sha256 (0 :: content)

def parent (left right : Digest) : Digest := sha256 (1 :: (left.1 ++ right.1))

theorem length_zeroHash : zeroHash.length = 32 := length_replicate

def eventTree : PaddedTree Digest := ⟨parent sha256, zeroHash, length_zeroHash⟩

abbrev Accumulator := List (Option Digest)

def Accumulator.push (tree : Accumulator) (content : List UInt8) : Accumulator :=
  (eventTree sha256).carry (leaf sha256 content) tree

def Accumulator.root (tree : Accumulator) : Digest := (eventTree sha256).frontierRoot tree

theorem frontier_of_pushes (contents : List (List UInt8)) :
    (eventTree sha256).Frontier (contents.map (leaf sha256))
    (contents.foldl (Accumulator.push sha256) []) := by
  induction contents using List.reverseRecOn with
  | nil => exact .nil
  | append_singleton contents content ih =>
    rw [map_append, foldl_append]
    exact ih.carry (leaf sha256 content)

/-- Events pushed one after the other have the root of the tree that is built from all of them. -/
theorem streamed_root_is_layered (contents : List (List UInt8)) :
    Accumulator.root sha256 (contents.foldl (Accumulator.push sha256) []) =
      (eventTree sha256).root (contents.map (leaf sha256)) :=
  PaddedTree.foldl_join_none (frontier_of_pushes sha256 contents) 0 0

end Tree

section Nodes

/-- A number as it is in memory: the two zeros of a float are equal to `==`, but not in their texts. -/
inductive StoredNumber where
  | plain (value : Number)
  | negativeZero
  deriving DecidableEq

structure StoredNode where
  id : NodeId
  parentId : Option NodeId
  nodeType : String
  pos : String
  currentFields : Json StoredNumber
  varName : Option String
  deleted : Bool
  deriving DecidableEq

def StoredNode.toJson (n : StoredNode) : Json StoredNumber :=
  .fields [("id", .str n.id), ("parent_id", .ofOption n.parentId), ("type", .str n.nodeType),
    ("pos", .str n.pos), ("current_fields", n.currentFields), ("var_name", .ofOption n.varName),
    ("deleted", .bool n.deleted)]

theorem StoredNode.toJson_injective {a b : StoredNode} (same : a.toJson = b.toJson) : a = b := by
  have member (key : String) : a.toJson.get? key = b.toJson.get? key := by rw [same]
  have text {o o' : Option String} (same : (.ofOption o : Json StoredNumber) = .ofOption o') : o = o' := by
    simpa using congrArg Json.asStr same
  have id := member "id"
  have parent := member "parent_id"
  have type := member "type"
  have pos := member "pos"
  have fields := member "current_fields"
  have name := member "var_name"
  have deleted := member "deleted"
  simp only [toJson, Json.get?_fields_cons] at id parent type pos fields name deleted
  simp at id parent type pos fields name deleted
  have parent := text parent
  have name := text name
  cases a
  cases b
  simp_all

variable (env : Hashing) (numberText : StoredNumber → String)

def canonicalNode (node : StoredNode) : List UInt8 :=
  utf8 (node.toJson.canonical numberText env.text.stringText)

def hashNode (node : StoredNode) : Digest := leaf env.sha256 (canonicalNode env numberText node)

variable (nodes : ExtTreeMap NodeId StoredNode)

def nodeValues : List StoredNode := nodes.toList.map Prod.snd

def merkleRoot : Digest :=
  (eventTree env.sha256).root ((nodeValues nodes).map (hashNode env numberText))

/-- Everything that is hashed for the root of some nodes. -/
def rootInputs : List (List UInt8) :=
  (nodeValues nodes).map (fun node => 0 :: canonicalNode env numberText node) ++
    ((eventTree env.sha256).combined ((nodeValues nodes).map (hashNode env numberText))).map
      fun p => 1 :: (p.1.1 ++ p.2.1)

/-- Every node is stored under its own id. -/
def OwnKeys : Prop := ∀ (id : NodeId) (n : StoredNode), nodes[id]? = some n → n.id = id

variable {nodes}

theorem toList_eq_values (keyed : OwnKeys nodes) :
    nodes.toList = (nodeValues nodes).map fun node => (node.id, node) := by
  rw [nodeValues, map_map]
  refine (map_id _).symm.trans (map_congr_left fun entry mem => ?_)
  have own := keyed entry.1 entry.2 (ExtTreeMap.mem_toList_iff_getElem?_eq_some.1 mem)
  exact Prod.ext own.symm rfl

theorem eq_of_map_eq {α β : Type} {f : α → β} {l l' : List α}
    (inj : ∀ a ∈ l, ∀ b ∈ l', f a = f b → a = b) (same : l.map f = l'.map f) : l = l' := by
  induction l generalizing l' with
  | nil => exact (map_eq_nil_iff.1 same.symm).symm
  | cons a l ih => cases l' <;> grind

/-- The root settles the nodes, the sign of every zero included, if nothing that is hashed for two
states collides or hashes to zeros and no two nodes of theirs have one canonical text. -/
theorem node_root_binds (env : Hashing) (numberText : StoredNumber → String)
    (nodes nodes' : ExtTreeMap NodeId StoredNode) (keyed : OwnKeys nodes) (keyed' : OwnKeys nodes')
    (distinct : ∀ x ∈ rootInputs env numberText nodes ++ rootInputs env numberText nodes',
      ∀ y ∈ rootInputs env numberText nodes ++ rootInputs env numberText nodes',
        env.sha256 x = env.sha256 y → x = y)
    (nonzero : ∀ x ∈ rootInputs env numberText nodes ++ rootInputs env numberText nodes',
      (env.sha256 x).1 ≠ zeroHash)
    (readable : ∀ n ∈ nodeValues nodes, ∀ n' ∈ nodeValues nodes',
      canonicalNode env numberText n = canonicalNode env numberText n' → n.toJson = n'.toJson) :
    merkleRoot env numberText nodes = merkleRoot env numberText nodes' ↔ nodes = nodes' := by
  constructor
  · intro same
    let known := (eventTree env.sha256).combined ((nodeValues nodes).map (hashNode env numberText)) ++
      (eventTree env.sha256).combined ((nodeValues nodes').map (hashNode env numberText))
    have leaf_mem : ∀ n ∈ nodeValues nodes ++ nodeValues nodes',
        0 :: canonicalNode env numberText n ∈
          rootInputs env numberText nodes ++ rootInputs env numberText nodes' := by
      simp only [rootInputs]
      grind
    have pair_mem : ∀ p ∈ known, 1 :: (p.1.1 ++ p.2.1) ∈
        rootInputs env numberText nodes ++ rootInputs env numberText nodes' := by
      simp only [rootInputs]
      grind
    have binding : (eventTree env.sha256).Binding
        (fun a => ∃ n ∈ nodeValues nodes ++ nodeValues nodes', hashNode env numberText n = a) known := by
      refine ⟨fun p mem q mem' same => ?_, fun p mem => ⟨fun zero => ?_, ?_⟩, ?_⟩
      · have inputs := distinct _ (pair_mem p mem) _ (pair_mem q mem') same
        obtain ⟨left, right⟩ := append_inj (cons.inj inputs).2 (by rw [p.1.2, q.1.2])
        exact Prod.ext (Subtype.ext left) (Subtype.ext right)
      · exact nonzero _ (pair_mem p mem) (congrArg Subtype.val zero)
      · rintro ⟨n, inside, same⟩
        cases distinct _ (leaf_mem n inside) _ (pair_mem p mem) same
      · rintro _ ⟨n, inside, rfl⟩ zero
        exact nonzero _ (leaf_mem n inside) (congrArg Subtype.val zero)
    have hashes := binding.root_injective (by simp; grind) (by simp; grind) (subset_append_left _ _)
      (subset_append_right _ _) same
    have values : nodeValues nodes = nodeValues nodes' := by
      refine eq_of_map_eq (fun n mem n' mem' same => ?_) hashes
      have inputs := distinct _ (leaf_mem n (mem_append_left _ mem)) _
        (leaf_mem n' (mem_append_right _ mem')) same
      exact StoredNode.toJson_injective (readable n mem n' mem' (cons.inj inputs).2)
    rw [← ExtTreeMap.toList_inj, toList_eq_values keyed, toList_eq_values keyed', values]
  · intro same
    rw [merkleRoot, nodeValues, same]
    rfl

def signedText : StoredNumber → String
  | .plain n => if n = .float 0 then "0.0" else exponentText n
  | .negativeZero => "-0.0"

def storedUnderIds (nodes : List StoredNode) : ExtTreeMap NodeId StoredNode :=
  nodes.foldr (fun n rest => rest.insert n.id n) ∅

theorem ownKeys_storedUnderIds (nodes : List StoredNode) : OwnKeys (storedUnderIds nodes) := by
  induction nodes with
  | nil => simp [OwnKeys, storedUnderIds]
  | cons n nodes ih =>
    intro id m stored
    simp only [storedUnderIds, foldr_cons, ExtTreeMap.getElem?_insert] at stored
    split at stored
    · rename_i same
      cases stored
      exact Std.compare_eq_iff_eq.1 same
    · exact ih id m stored

/-- Three nodes, so that a layer is padded; the second has a weight. -/
def weighed (weight : StoredNumber) : ExtTreeMap NodeId StoredNode :=
  storedUnderIds ([("a", []), ("b", [("weight", .num weight)]), ("c", [])].map fun (id, fields) =>
    ⟨id, none, "form", id, Json.fields fields, none, false⟩)

theorem negative_zero_has_another_root : merkleRoot sumHashing signedText (weighed (.plain (.float 0))) ≠
    merkleRoot sumHashing signedText (weighed .negativeZero) := by
  have binds := node_root_binds sumHashing signedText (weighed (.plain (.float 0))) (weighed .negativeZero)
    (ownKeys_storedUnderIds _) (ownKeys_storedUnderIds _) (by decide +kernel) (by decide +kernel)
    (by decide +kernel)
  rw [ne_eq, binds]
  decide +kernel

end Nodes

end Dynodoc.Log
