import Dynodoc.Merge.Components
import Dynodoc.Merge.Passes

/-! A merge without conflicts and without resolutions loses no update. -/
namespace Dynodoc.Merge
open Std (ExtTreeMap ExtTreeSet)
open Loop Diff MaterializedNode Json Option

variable {env : Externals} {d : MaterializedNode} {id : NodeId} {buildEventPlan : Bool}

variable {merges : Prop} {α : Type}

/-- The parts of a node that can change on their own. -/
inductive Component where
  | presence
  | deleted
  | nodeType
  | location
  | varName
  | field (key : String)
  deriving DecidableEq

def Component.read (n : MaterializedNode) : Component → Value
  | presence => .null
  | deleted => .bool n.deleted
  | nodeType => .str n.nodeType
  | location => Merge.location n
  | varName => .ofOption n.varName
  | field key => n.currentFields.index key

/-- A component in a state, none when the node is not there. A removed choice reads as
deleted, a missing field as null. -/
def observe (s : DocumentState) (id : NodeId) (c : Component) : Option Value :=
  s.canonical.nodes[id]?.map fun n => c.read n

/-- Content that is an object in all three versions. -/
def ContentBlock (base team draft : DocumentState) (id : NodeId) : Prop :=
  ∀ s ∈ [base, team, draft], (observe s id (.field "content")).any isObject

/-- Components that follow another one: the mirrors of the name, and the label of a
content block. -/
def Derived (base team draft : DocumentState) (id : NodeId) (c : Component) : Prop :=
  c = .field "var_name" ∨ c = .field "varName" ∨
    (c = .field "label" ∧ ContentBlock base team draft id)

/-- The merged value `m` keeps the updates of both sides: a value that one side alone
changed is that side's, a value on which the sides agree stays, and the sides disagree
only where `merges` holds. -/
structure Keeps {α : Type} (merges : Prop) (b t d m : α) : Prop where
  draft : t = b → m = d
  team : d = b → m = t
  agreed : t = d → m = t
  disagreed : t ≠ b → d ≠ b → t ≠ d → merges

def Component.MergesContent (c : Component) : Prop := c = .field "content" ∨ c = .field "page_setup"

theorem Keeps.of_team {b t d : α} (unchanged : d = b) : Keeps merges b t d t :=
  ⟨fun h => h.trans unchanged.symm, fun _ => rfl, fun _ => rfl, fun _ h => absurd unchanged h⟩

theorem Keeps.of_draft {b t d : α} (unchanged : t = b) : Keeps merges b t d d :=
  ⟨fun _ => rfl, fun h => h.trans unchanged.symm, fun h => h.symm, fun h => absurd unchanged h⟩

theorem Keeps.of_agreed {b t d : α} (same : d = t) : Keeps merges b t d t :=
  ⟨fun _ => same.symm, fun _ => rfl, fun _ => rfl, fun _ _ h => absurd same.symm h⟩

theorem Keeps.map {α β : Type} {b t d m : α} (f : α → β)
    (keeps : Keeps False b t d m) : Keeps merges (f b) (f t) (f d) (f m) := by
  by_cases team : t = b
  · rw [keeps.draft team]
    exact .of_draft (congrArg f team)
  by_cases draft : d = b
  · rw [keeps.team draft]
    exact .of_team (congrArg f draft)
  by_cases agreed : t = d
  · rw [keeps.agreed agreed]
    exact .of_agreed (congrArg f agreed.symm)
  exact (keeps.disagreed team draft agreed).elim

theorem Keeps.some {b t d m : α} (keeps : Keeps merges b t d m) :
    Keeps merges (some b) (some t) (some d) (some m) :=
  ⟨fun h => congrArg _ (keeps.draft (some.inj h)),
    fun h => congrArg _ (keeps.team (some.inj h)),
    fun h => congrArg _ (keeps.agreed (some.inj h)),
    fun h h' h'' => keeps.disagreed (fun e => h (congrArg _ e)) (fun e => h' (congrArg _ e))
      fun e => h'' (congrArg _ e)⟩

theorem choose_keeps {at_ : At} {b t d : Value} (clean : (choose env ∅ at_ b t d).2 = []) :
    Keeps (at_.field = "content" ∨ at_.field = "page_setup") b t d (choose env ∅ at_ b t d).1 := by
  obtain ⟨-, ⟨h, v⟩ | ⟨h, v⟩ | ⟨h, v⟩ | ⟨draft, team, apart, open_⟩⟩ :=
    select_clean clean (Prod.mk.eta (p := choose env ∅ at_ b t d)).symm
  · rw [v]
    exact .of_team h
  · rw [v]
    exact .of_agreed h
  · rw [v]
    exact .of_draft h
  · exact ⟨fun h => absurd h team, fun h => absurd h draft, fun h => absurd h.symm apart,
      fun _ _ _ => open_⟩

theorem location_read (n : MaterializedNode) :
    ((location n).index "parent_id").asStr = n.parentId ∧
      ((location n).index "pos").asStr = some n.pos := by
  simp [location]

theorem eq_some_of_nodeValue {o : Option MaterializedNode}
    (same : d.toJson = nodeValue o) : o = some d := by
  cases o with
  | none => exact absurd same d.toJson_ne_null
  | some n => rw [toJson_injective same]

theorem nodeValue_injective {a b : Option MaterializedNode} (same : nodeValue a = nodeValue b) :
    a = b := by
  cases b with
  | none =>
    cases a with
    | none => rfl
    | some n => exact absurd same n.toJson_ne_null
  | some n => exact eq_some_of_nodeValue same.symm

theorem wholeNode_keeps {b t : Option MaterializedNode} (changed : b ≠ some d)
    (clean : (choose env ∅ ⟨id, d.nodeType, "$node"⟩ (nodeValue b) (nodeValue t) d.toJson).2 = []) :
    Keeps False b t (some d) ((ofJson
      (choose env ∅ ⟨id, d.nodeType, "$node"⟩ (nodeValue b) (nodeValue t) d.toJson).1).or t) := by
  have keeps := choose_keeps clean
  by_cases team : t = b
  · rw [keeps.draft (congrArg nodeValue team), ofJson_toJson]
    exact .of_draft team
  by_cases agreed : t = some d
  · rw [keeps.agreed (congrArg nodeValue agreed), agreed]
    simp only [nodeValue, ofJson_toJson]
    exact .of_agreed rfl
  have open_ := keeps.disagreed (fun h => team (nodeValue_injective h))
    (fun h => changed (eq_some_of_nodeValue h)) (fun h => agreed (eq_some_of_nodeValue h.symm))
  simp at open_

section Nodes

variable {b t n : MaterializedNode}

section Clean

variable (merged : Merged env ∅ id b t d n [])

include merged

theorem location_keeps :
    Keeps False (location b) (location t) (location d) (location n) := by
  have clean : (locationChoice env ∅ id b t d).2 = [] :=
    List.eq_nil_iff_forall_not_mem.2 fun c mem => by simpa using (merged.conflicts c).2 (.inl mem)
  have keeps := choose_keeps clean
  have read (m : MaterializedNode) (taken : (locationChoice env ∅ id b t d).1 = location m) :
      location n = location m := by
    obtain ⟨parent, pos⟩ := location_read m
    rw [location, merged.parentId, merged.pos, taken, parent, pos]
    rfl
  refine ⟨fun h => read d (keeps.draft h), fun h => read t (keeps.team h),
    fun h => read t (keeps.agreed h), fun team draft apart => ?_⟩
  have open_ := keeps.disagreed team draft apart
  simp at open_

theorem name_keeps :
    Keeps False (ofOption b.varName : Value) (.ofOption t.varName) (.ofOption d.varName)
      (.ofOption n.varName) := by
  have clean : (nameChoice env ∅ id b t d).2 = [] :=
    List.eq_nil_iff_forall_not_mem.2 fun c mem => by
      simpa using (merged.conflicts c).2 (.inr (.inl mem))
  have keeps := choose_keeps clean
  have read (o : Option String) (taken : (nameChoice env ∅ id b t d).1 = .ofOption o) :
      (ofOption n.varName : Value) = .ofOption o := by
    rw [merged.varName, taken, asStr_ofOption]
  refine ⟨fun h => read _ (keeps.draft h), fun h => read _ (keeps.team h),
    fun h => read _ (keeps.agreed h), fun team draft apart => ?_⟩
  have open_ := keeps.disagreed team draft apart
  simp at open_

theorem field_keeps {key : String}
    (own : ownField b t d key) :
    Keeps (Component.field key).MergesContent (b.currentFields.index key)
      (t.currentFields.index key) (d.currentFields.index key) (n.currentFields.index key) := by
  rw [merged.fields key own.1 own.2.2]
  split
  · rename_i visited
    have clean : (fieldChoice env ∅ id b t d key).2 = [] :=
      List.eq_nil_iff_forall_not_mem.2 fun c mem => by
        simpa using (merged.conflicts c).2 (.inr (.inr ⟨key, visited.1, own, mem⟩))
    have keeps := choose_keeps clean
    exact ⟨keeps.draft, keeps.team, keeps.agreed, fun h h' h'' => by
      simpa [Component.MergesContent] using keeps.disagreed h h' h''⟩
  · rename_i unvisited
    -- Neither the base nor the draft has the field.
    have absent : key ∉ b.currentFields.keys ∧ key ∉ d.currentFields.keys := by
      rw [← not_or, ← mem_unionKeys]
      exact fun mem => unvisited ⟨mem, own⟩
    apply Keeps.of_team
    rw [index_eq_null_of_not_mem_keys absent.1, index_eq_null_of_not_mem_keys absent.2]

end Clean

end Nodes

/-- What the merge of one node keeps. The type is compared only when the merge is to be
expressed as events. -/
theorem nodeMerge_keeps {b t n : Option MaterializedNode}
    (merged : nodeMerge env ∅ buildEventPlan id b t d = .ok (n, ⟨(), []⟩)) {c : Component}
    (typed : c = .nodeType → buildEventPlan = true)
    (notMirror : c ≠ .field "var_name" ∧ c ≠ .field "varName")
    (notLabel : c = .field "label" → ∀ b' t', b = some b' → t = some t' →
      isContentBlock b' t' d = false) :
    Keeps c.MergesContent (b.map c.read) (t.map c.read) (some (c.read d))
      ((n.or t).map c.read) := by
  simp only [nodeMerge, mergeNode] at merged
  split at merged
  · rename_i unchanged
    cases merged
    subst unchanged
    exact .of_team rfl
  · rename_i changed
    split at merged
    · rw [pick_direct] at merged
      simp only [Except.ok.injEq, Prod.mk.injEq, Progress.mk.injEq, true_and] at merged
      obtain ⟨rfl, clean⟩ := merged
      exact (wholeNode_keeps changed clean).map (Option.map c.read)
    · rename_i inside
      cases b with
      | none => simp [crossesNode] at inside
      | some b =>
        cases t with
        | none => simp [crossesNode] at inside
        | some t =>
          obtain ⟨⟨m, q⟩, components, same⟩ := map_eq_ok.1 merged
          cases same
          have parts := mergeComponents_merged components
          simp only [crossesNode, Bool.not_eq_true, decide_eq_false_iff_not, not_or, not_not,
            not_and] at inside
          simp only [map_some, some_or]
          cases c with
          | presence => exact .of_team rfl
          | deleted =>
            simp only [Component.read, parts.deleted]
            exact .of_team (by rw [inside.1])
          | nodeType =>
            simp only [Component.read, parts.nodeType]
            exact .of_team (by rw [inside.2.1 (typed rfl)])
          | location => exact (location_keeps parts).map some
          | varName => exact (name_keeps parts).map some
          | field key =>
            have own : ownField b t d key := by
              refine ⟨fun h => notMirror.1 (h ▸ rfl), fun h => notMirror.2 (h ▸ rfl), fun h => ?_⟩
              have := notLabel (h.1 ▸ rfl) b t rfl rfl
              simp [h.2] at this
            exact (field_keeps parts own).some

theorem canonical_retainRemoved (s : DocumentState) : (retainRemoved s).canonical.nodes = s.nodes := by
  apply ExtTreeMap.ext_getElem?
  intro id
  rw [getElem?_canonical]
  change s.nodes[id]?.map _ = s.nodes[id]?
  cases found : s.nodes[id]? with
  | none => rfl
  | some n =>
    rw [map_some]
    split
    · rename_i removed
      obtain ⟨-, deleted⟩ := mem_retainRemoved.1 removed
      rw [found, any_some] at deleted
      rw [← deleted]
    · rfl

theorem mergeDirect_ok {fuel : Nat} {base team draft : DocumentState}
    {resolutions : Resolutions} {plan : MergePlan}
    (merged : mergeDirect env fuel base team draft resolutions buildEventPlan false = .ok plan) :
    ∃ nodes q conflicts,
      let resolved := (if buildEventPlan then
        resolveUnsupportedNodes team.canonical draft resolutions else draft).canonical
      mergeNodes (direct env) resolutions buildEventPlan base.canonical team.canonical resolved
        clear = .ok (nodes, q) ∧
      validateMergedTree fuel base.canonical team.canonical resolved resolutions
        (retainRemoved { team.canonical with nodes := nodes }) q.conflicts =
          .ok (plan.state, conflicts) ∧
      conflicts ⊆ plan.conflicts ∧ (buildEventPlan = false → conflicts = plan.conflicts) := by
  simp only [mergeDirect, map_eq_ok, mergeWith, bind_eq_ok, Prod.exists] at merged
  obtain ⟨plan', u, ⟨nodes, q, merged, out, conflicts, valid, rest⟩, rfl⟩ := merged
  refine ⟨nodes, q, conflicts, merged, ?_⟩
  cases buildEventPlan with
  | false =>
    cases rest
    exact ⟨valid, fun _ mem => mem, fun _ => rfl⟩
  | true =>
    simp only [if_true, bind_eq_ok, Prod.exists] at rest
    obtain ⟨ops, later, planned, same⟩ := rest
    cases same
    exact ⟨valid, diffForMerge_subset planned, nofun⟩

theorem mem_canonical {s : DocumentState} : id ∈ s.canonical.nodes ↔ id ∈ s.nodes := by
  simp [DocumentState.canonical]

/-- A merge without conflicts and without resolutions keeps every update, and its tree
needed no repair. -/
theorem merge_loses_no_update {env : Externals} {fuel : Nat} {base team draft : DocumentState}
    {plan : MergePlan} (complete : ∀ id, id ∈ base.nodes → id ∈ draft.nodes)
    (merged : merge env fuel base team draft ∅ = .ok plan) (clean : plan.conflicts = []) :
    (∀ id c, ¬ Derived base team draft id c →
      Keeps c.MergesContent (observe base id c) (observe team id c) (observe draft id c)
        (observe plan.state id c)) ∧
    ∃ nodes q, mergeNodes (direct env) ∅ true base.canonical team.canonical draft.canonical clear =
        .ok (nodes, q) ∧ plan.state = retainRemoved { team.canonical with nodes := nodes } := by
  obtain ⟨nodes, q, conflicts, visited, valid, sub, -⟩ := mergeDirect_ok merged
  have resolved : resolveUnsupportedNodes team.canonical draft ∅ = draft := by
    simp [resolveUnsupportedNodes]
  simp only [resolved] at visited valid
  obtain rfl : conflicts = [] := List.subset_nil.1 (clean ▸ sub)
  obtain ⟨same, silent⟩ := repair_clean valid
  refine ⟨fun id c own => ?_, nodes, q, visited, same⟩
  have points := mergeNodes_pointwise _ _ _ visited
  simp only [observe, same, canonical_retainRemoved]
  cases found : draft.canonical.nodes[id]? with
  | none =>
    -- A node that the draft does not have is not in the base either.
    have absent : base.canonical.nodes[id]? = none := by
      rw [OrderedMap.getElem?_eq_none_iff, mem_canonical] at found ⊢
      exact fun mem => found (complete id mem)
    rw [absent, points.kept id fun d mem => by
      simp [found] at mem]
    exact .of_team rfl
  | some d =>
    obtain ⟨n, reported, alone, result, sub⟩ :=
      points.merged id d (ExtTreeMap.mem_toList_iff_getElem?_eq_some.2 found)
    rw [silent, List.subset_nil] at sub
    subst sub
    rw [result]
    refine nodeMerge_keeps alone (fun _ => rfl)
      ⟨fun h => own (.inl h), fun h => own (.inr (.inl h))⟩ fun h b t hb ht => ?_
    by_contra block
    rw [Bool.not_eq_false] at block
    refine own (.inr (.inr ⟨h, ?_⟩))
    simp only [isContentBlock, decide_eq_true_eq] at block
    simp [ContentBlock, observe, hb, ht, found, Component.read, block]

def sampleNode (title : String) (varName : Option String) : MaterializedNode :=
  ⟨"q", none, "form", "a0", .fields [("title", .str title)], varName, false⟩

theorem merge_keeps_title_and_name : ∃ plan,
    merge plainExternals 8 (.ofNodes [sampleNode "Old" none]) (.ofNodes [sampleNode "New" none])
      (.ofNodes [sampleNode "Old" (some "age")]) ∅ = .ok plan ∧ plan.conflicts = [] ∧
    observe plan.state "q" (.field "title") = some (.str "New") ∧
    observe plan.state "q" .varName = some (.str "age") := by
  have run : (merge plainExternals 8 (.ofNodes [sampleNode "Old" none])
      (.ofNodes [sampleNode "New" none]) (.ofNodes [sampleNode "Old" (some "age")]) ∅).toOption.map
      MergePlan.conflicts = some [] := by decide +kernel
  obtain ⟨plan, merged, clean⟩ := map_eq_some_iff.1 run
  rw [toOption_eq_some] at merged
  have keeps := (merge_loses_no_update (by simp [DocumentState.mem_ofNodes, sampleNode]) merged
    clean).1 "q"
  refine ⟨plan, merged, clean, ?_, ?_⟩
  · rw [(keeps (.field "title") (by simp [Derived])).team (by decide +kernel)]
    decide +kernel
  · rw [(keeps .varName (by simp [Derived])).draft (by decide +kernel)]
    decide +kernel

end Dynodoc.Merge
