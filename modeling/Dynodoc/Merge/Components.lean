import Dynodoc.Merge.Pointwise

/-! The merge of one node, component by component. -/
namespace Dynodoc.Merge
open Loop Diff List

variable {key : String} {n : MaterializedNode}

/-- Fields that are decided by a choice of their own: not the mirrors of the name, and
not the label of a content block. -/
def ownField (b t d : MaterializedNode) (key : String) : Prop :=
  key ≠ "var_name" ∧ key ≠ "varName" ∧ ¬ (key = "label" ∧ isContentBlock b t d)

instance (b t d : MaterializedNode) (key : String) : Decidable (ownField b t d key) :=
  inferInstanceAs (Decidable (_ ∧ _))

section Choices

variable (env : Externals) (resolutions : Resolutions) (id : NodeId) (b t d : MaterializedNode)

def fieldChoice (key : String) : Value × List Conflict :=
  choose env resolutions ⟨id, t.nodeType, key⟩ (b.currentFields.index key)
    (t.currentFields.index key) (d.currentFields.index key)

def locationChoice : Value × List Conflict :=
  choose env resolutions ⟨id, t.nodeType, "$location"⟩ (location b) (location t) (location d)

def nameChoice : Value × List Conflict :=
  choose env resolutions ⟨id, t.nodeType, "var_name"⟩ (.ofOption b.varName) (.ofOption t.varName)
    (.ofOption d.varName)

end Choices

/-- Two versions of a node that differ in their fields at most. -/
def SameShell (n m : MaterializedNode) : Prop :=
  m = { n with currentFields := m.currentFields }

variable {m : MaterializedNode}

theorem setField_ok {v : Value} (assigned : setField n key v = .ok m) :
    SameShell n m ∧ ∀ other, m.currentFields.index other =
      if other = key then v else n.currentFields.index other := by
  simp only [setField] at assigned
  split at assigned
  · rename_i fields written
    cases assigned
    exact ⟨rfl, Json.index_setIndex written⟩
  · contradiction

variable {env : Externals} {resolutions : Resolutions} {id : NodeId} {b t d : MaterializedNode}
  {p q : Progress Unit}

/-- What a field of the merged node reads as, when it is not the mirror of the name. -/
theorem mergeField_ok
    (merged : mergeField (direct env) resolutions id b t d (n, p) key = .ok (m, q)) :
    SameShell n m ∧ (∀ other, other ≠ "var_name" → m.currentFields.index other =
      if other = key ∧ ownField b t d key then (fieldChoice env resolutions id b t d key).1
      else n.currentFields.index other) ∧ q.conflicts = p.conflicts ++
      if ownField b t d key then (fieldChoice env resolutions id b t d key).2 else [] := by
  simp only [mergeField, pick_direct] at merged
  split at merged
  · rename_i mirror
    have notOwn : ¬ ownField b t d key := fun own => by
      rcases mirror with rfl | rfl
      · exact own.1 rfl
      · exact own.2.1 rfl
    simp only [notOwn, and_false, if_false, append_nil]
    split at merged
    · obtain ⟨m', written, same⟩ := map_eq_ok.1 merged
      cases same
      obtain ⟨shell, reads⟩ := setField_ok written
      refine ⟨shell, fun other different => ?_, rfl⟩
      rw [reads, if_neg different]
    · cases merged
      exact ⟨rfl, fun _ _ => rfl, rfl⟩
  · rename_i notMirror
    rw [not_or] at notMirror
    split at merged
    · rename_i derived
      have notOwn : ¬ ownField b t d key := fun own => own.2.2 derived
      simp only [notOwn, and_false, if_false, append_nil]
      cases merged
      exact ⟨rfl, fun _ _ => rfl, rfl⟩
    · rename_i notDerived
      have own : ownField b t d key := ⟨notMirror.1, notMirror.2, notDerived⟩
      simp only [own, and_true]
      split at merged
      · obtain ⟨m', written, same⟩ := map_eq_ok.1 merged
        cases same
        obtain ⟨shell, reads⟩ := setField_ok written
        exact ⟨shell, fun other _ => reads other, rfl⟩
      · rename_i skipped
        cases merged
        refine ⟨rfl, fun other _ => ?_, rfl⟩
        split
        · rename_i same
          subst same
          simp only [not_or, not_not, Bool.not_eq_true, Option.isSome_eq_false_iff,
            Option.isNone_iff_eq_none] at skipped
          simp only [Json.index, skipped.2]
          exact skipped.1.symm
        · rfl
theorem SameShell.trans {m l : MaterializedNode} (first : SameShell n m) (second : SameShell m l) :
    SameShell n l := by
  simp only [SameShell] at *
  rw [second, first]

theorem foldlM_mergeField {keys : List String} (distinct : keys.Nodup)
    (merged : keys.foldlM (mergeField (direct env) resolutions id b t d) (n, p) = .ok (m, q)) :
    SameShell n m ∧ (∀ other, other ≠ "var_name" → m.currentFields.index other =
      if other ∈ keys ∧ ownField b t d other then (fieldChoice env resolutions id b t d other).1
      else n.currentFields.index other) ∧ ∀ c, c ∈ q.conflicts ↔ c ∈ p.conflicts ∨
      ∃ key ∈ keys, ownField b t d key ∧ c ∈ (fieldChoice env resolutions id b t d key).2 := by
  induction keys generalizing n p with
  | nil =>
    cases merged
    exact ⟨rfl, by simp, by simp⟩
  | cons key keys ih =>
    rw [foldlM_cons, bind_eq_ok] at merged
    obtain ⟨⟨l, r⟩, first, rest⟩ := merged
    rw [nodup_cons] at distinct
    obtain ⟨shell, reads, added⟩ := mergeField_ok first
    obtain ⟨shell', reads', added'⟩ := ih distinct.2 rest
    refine ⟨shell.trans shell', fun other different => ?_, fun c => ?_⟩
    · rw [reads' other different, reads other different]
      by_cases same : other = key
      · subst same
        simp [distinct.1]
      · simp [same]
    · rw [added', added]
      by_cases own : ownField b t d key
      · simp [or_assoc]
      · simp [own]

theorem relabel_ok (labelled : relabel b t d n = .ok m) :
    SameShell n m ∧ ∀ key, ¬ (key = "label" ∧ isContentBlock b t d) →
      m.currentFields.index key = n.currentFields.index key := by
  simp only [relabel] at labelled
  split at labelled
  · rename_i block
    obtain ⟨shell, reads⟩ := setField_ok labelled
    refine ⟨shell, fun key other => ?_⟩
    rw [reads, if_neg fun same => other ⟨same, block⟩]
  · cases labelled
    exact ⟨rfl, fun _ _ => rfl⟩

structure Merged (env : Externals) (resolutions : Resolutions) (id : NodeId)
    (b t d n : MaterializedNode) (conflicts : List Conflict) : Prop where
  nodeType : n.nodeType = t.nodeType
  nodeId : n.id = t.id
  deleted : n.deleted = t.deleted
  parentId : n.parentId = ((locationChoice env resolutions id b t d).1.index "parent_id").asStr
  pos : n.pos = ((locationChoice env resolutions id b t d).1.index "pos").asStr.getD t.pos
  varName : n.varName = (nameChoice env resolutions id b t d).1.asStr
  fields : ∀ key, key ≠ "var_name" → ¬ (key = "label" ∧ isContentBlock b t d) →
    n.currentFields.index key =
      if key ∈ unionKeys b.currentFields d.currentFields ∧ ownField b t d key then
        (fieldChoice env resolutions id b t d key).1
      else t.currentFields.index key
  conflicts : ∀ c, c ∈ conflicts ↔ c ∈ (locationChoice env resolutions id b t d).2 ∨
    c ∈ (nameChoice env resolutions id b t d).2 ∨
    ∃ key ∈ unionKeys b.currentFields d.currentFields, ownField b t d key ∧
      c ∈ (fieldChoice env resolutions id b t d key).2

theorem mergeComponents_merged {q : Progress Unit}
    (merged : mergeComponents (direct env) resolutions id b t d clear = .ok (n, q)) :
    Merged env resolutions id b t d n q.conflicts := by
  simp only [mergeComponents, mergeLocation, mergeName, pick_direct, mergeFields, bind_eq_ok,
    Prod.exists] at merged
  obtain ⟨m, r, folded, tail⟩ := merged
  obtain ⟨shell, reads, added⟩ := foldlM_mergeField (nodup_unionKeys _ _) folded
  obtain ⟨l, labelled, same⟩ := map_eq_ok.1 tail
  cases same
  have outer := relabel_ok labelled
  have all := shell.trans outer.1
  refine ⟨by rw [all], by rw [all], by rw [all], by rw [all]; rfl, by rw [all]; rfl,
    by rw [all]; rfl, fun key notMirror notLabel => ?_, fun c => ?_⟩
  · rw [outer.2 key notLabel, reads key notMirror]
  · rw [added]
    simp only [clear, nil_append, mem_append, or_assoc]
    rfl

end Dynodoc.Merge
