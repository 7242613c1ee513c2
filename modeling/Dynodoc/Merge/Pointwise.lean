import Dynodoc.Merge.Merge

/-! The plain merge decides every node on its own: a choice looks at the conflicts
reported before it only to add its own. The result is therefore known node by node. -/
namespace Dynodoc.Merge
open Std (ExtTreeMap ExtTreeSet)
open Loop

variable {nodes : ExtTreeMap NodeId MaterializedNode}

def clear : Progress Unit := ⟨(), []⟩

/-- A step that only appends to the conflicts. -/
def Appends {α : Type} (f : Progress Unit → Run (α × Progress Unit)) : Prop :=
  ∀ p, f p = (f clear).map fun (a, q) => (a, ⟨(), p.conflicts ++ q.conflicts⟩)

section Appending

variable {α β : Type}
variable {f : Progress Unit → Run (α × Progress Unit)}

theorem Appends.ok (a : α) : Appends fun p => .ok (a, p) := by
  intro p
  simp [clear, Except.map]

theorem Appends.error (h : Halt) : Appends fun _ => (.error h : Run (α × Progress Unit)) := by
  intro p
  rfl

theorem Appends.bind {g : α → Progress Unit → Run (β × Progress Unit)} (first : Appends f)
    (second : ∀ a, Appends (g a)) : Appends fun p => f p >>= fun (a, p) => g a p := by
  intro p
  simp only [first p]
  cases f clear with
  | error h => rfl
  | ok r =>
    obtain ⟨a, q⟩ := r
    change g a ⟨(), p.conflicts ++ q.conflicts⟩ = (g a q).map _
    rw [second a ⟨(), p.conflicts ++ q.conflicts⟩, second a q]
    cases g a clear with
    | error h => rfl
    | ok r => simp [Except.map]

theorem Appends.map (first : Appends f)
    (g : α → β) : Appends fun p => (f p).map fun (a, p) => (g a, p) := by
  intro p
  simp only [first p]
  cases f clear <;> simp [Except.map]

/-- Reporting before the step is the same as reporting ahead of it. -/
theorem Appends.shift (only : Appends f)
    (reported : List Conflict) : Appends fun p => f ⟨(), p.conflicts ++ reported⟩ := by
  intro p
  change f ⟨(), p.conflicts ++ reported⟩ = (f ⟨(), clear.conflicts ++ reported⟩).map _
  rw [only ⟨(), p.conflicts ++ reported⟩, only ⟨(), clear.conflicts ++ reported⟩]
  cases f clear <;> simp [clear, Except.map]

theorem Appends.foldlM {f : β × Progress Unit → α → Run (β × Progress Unit)} {l : List α}
    (each : ∀ b, ∀ a ∈ l, Appends fun p => f (b, p) a) (b : β) :
    Appends fun p => l.foldlM f (b, p) := by
  induction l generalizing b with
  | nil => exact Appends.ok b
  | cons a l ih =>
    exact Appends.bind (each b a (by simp)) fun b' => ih (fun b a mem => each b a (by simp [mem])) b'

end Appending

variable (env : Externals) (resolutions : Resolutions) (buildEventPlan : Bool) (id : NodeId)

theorem select_append (field : String) (b t d : Value) (conflicts : List Conflict) :
    select env id field b t d resolutions conflicts =
      ((select env id field b t d resolutions []).1,
        conflicts ++ (select env id field b t d resolutions []).2) := by
  simp only [select]
  split
  · simp
  split
  · simp
  split
  · simp
  split
  · simp
  split
  · simp
  split
  · simp
  · split <;> simp

/-- The value chosen for one component and what is reported about it. -/
def choose (at_ : At) (b t d : Value) : Value × List Conflict :=
  select env at_.id at_.field b t d resolutions []

theorem pick_direct (at_ : At) (b t d : Value) (p : Progress Unit) :
    pick (direct env) resolutions at_ b t d p =
      ((choose env resolutions at_ b t d).1,
        ⟨(), p.conflicts ++ (choose env resolutions at_ b t d).2⟩) := by
  simp only [pick, direct, choose]
  rw [select_append]

theorem mergeField_appends (b t d n : MaterializedNode) (key : String) :
    Appends fun p => mergeField (direct env) resolutions id b t d (n, p) key := by
  intro p
  simp only [mergeField, pick_direct]
  split
  · split
    · cases setField n "var_name" (.ofOption n.varName) <;> simp [clear, Except.map]
    · simp [clear, Except.map]
  · split
    · simp [clear, Except.map]
    · split
      · cases setField n key _ <;> simp [clear, Except.map]
      · simp [clear, Except.map]

theorem mergeFields_appends (b t d n : MaterializedNode) :
    Appends (mergeFields (direct env) resolutions id b t d n) := by
  have fields := Appends.foldlM (fun n key (_ : key ∈ Diff.unionKeys b.currentFields d.currentFields) =>
    mergeField_appends env resolutions id b t d n key) n
  refine Appends.bind (g := fun n p => (relabel b t d n).map fun n => (n, p)) fields fun n => ?_
  cases relabel b t d n with
  | error h => exact Appends.error h
  | ok n => exact Appends.ok n

theorem mergeComponents_appends (b t d : MaterializedNode) :
    Appends (mergeComponents (direct env) resolutions id b t d) := by
  unfold mergeComponents
  simp only [mergeLocation, mergeName, pick_direct, List.append_assoc]
  exact (mergeFields_appends env resolutions id b t d _).shift _

theorem mergeNode_appends (b t : Option MaterializedNode) (d : MaterializedNode) :
    Appends (mergeNode (direct env) resolutions buildEventPlan id b t d) := by
  unfold mergeNode
  split
  · exact Appends.ok none
  · split
    · intro p
      simp [pick_direct, clear, Except.map]
    · split
      · exact Appends.map (mergeComponents_appends env resolutions id _ _ d) some
      · exact Appends.error .panic

/-- The merge of one node with no conflict before it: the version to put in place and
the conflicts it reports. -/
def nodeMerge (id : NodeId) (b t : Option MaterializedNode) (d : MaterializedNode) :
    Run (Option MaterializedNode × Progress Unit) :=
  mergeNode (direct env) resolutions buildEventPlan id b t d clear

variable {base team : DocumentState}

theorem mergeEntry_ok {id : NodeId} {d : MaterializedNode}
    {nodes' : ExtTreeMap NodeId MaterializedNode} {p p' : Progress Unit}
    (merged : mergeEntry (direct env) resolutions buildEventPlan base team (nodes, p) (id, d) =
      .ok (nodes', p')) :
    ∃ n reported, nodeMerge env resolutions buildEventPlan id base.nodes[id]? team.nodes[id]? d =
        .ok (n, ⟨(), reported⟩) ∧
      p'.conflicts = p.conflicts ++ reported ∧
      nodes'[id]? = n.or nodes[id]? ∧ ∀ other, other ≠ id → nodes'[other]? = nodes[other]? := by
  simp only [mergeEntry, bind_eq_ok, Prod.exists] at merged
  obtain ⟨n, q, one, rest⟩ := merged
  have alone := mergeNode_appends env resolutions buildEventPlan id base.nodes[id]?
    team.nodes[id]? d p
  simp only [one] at alone
  cases single : nodeMerge env resolutions buildEventPlan id base.nodes[id]? team.nodes[id]? d with
  | error h =>
    simp only [nodeMerge] at single
    simp [single, Except.map] at alone
  | ok r =>
    obtain ⟨n', q'⟩ := r
    simp only [nodeMerge] at single
    simp only [single, Except.map] at alone
    obtain ⟨rfl, rfl⟩ := alone
    obtain ⟨rfl, rfl⟩ := rest
    refine ⟨n, q'.conflicts, rfl, rfl, ?_, ?_⟩
    · cases n <;> simp
    · intro other different
      cases n <;> simp [different]
structure Pointwise (base team : DocumentState) (entries : List (NodeId × MaterializedNode))
    (before nodes : ExtTreeMap NodeId MaterializedNode) (reported conflicts : List Conflict) :
    Prop where
  kept : ∀ id, (∀ d, (id, d) ∉ entries) → nodes[id]? = before[id]?
  merged : ∀ id d, (id, d) ∈ entries → ∃ n own,
    nodeMerge env resolutions buildEventPlan id base.nodes[id]? team.nodes[id]? d =
      .ok (n, ⟨(), own⟩) ∧ nodes[id]? = n.or before[id]? ∧ own ⊆ conflicts
  grows : reported ⊆ conflicts
  origin : ∀ c ∈ conflicts, c ∈ reported ∨ ∃ id d n own, (id, d) ∈ entries ∧
    nodeMerge env resolutions buildEventPlan id base.nodes[id]? team.nodes[id]? d =
      .ok (n, ⟨(), own⟩) ∧ c ∈ own

theorem foldlM_mergeEntry {entries : List (NodeId × MaterializedNode)}
    (distinct : entries.Pairwise fun a b => a.1 ≠ b.1)
    {before : ExtTreeMap NodeId MaterializedNode} {p q : Progress Unit}
    (merged : entries.foldlM (mergeEntry (direct env) resolutions buildEventPlan base team)
      (before, p) = .ok (nodes, q)) :
    Pointwise env resolutions buildEventPlan base team entries before nodes p.conflicts
      q.conflicts := by
  induction entries generalizing before p with
  | nil =>
    cases merged
    exact ⟨by simp, by simp, fun _ h => h, fun _ h => .inl h⟩
  | cons e entries ih =>
    obtain ⟨id, d⟩ := e
    rw [List.foldlM_cons, bind_eq_ok] at merged
    obtain ⟨⟨middle, r⟩, first, rest⟩ := merged
    obtain ⟨n, own, alone, appended, here, elsewhere⟩ := mergeEntry_ok _ _ _ first
    rw [List.pairwise_cons] at distinct
    have tail := ih distinct.2 rest
    have absent : ∀ d', (id, d') ∉ entries := fun d' mem => distinct.1 _ mem rfl
    have own_sub : own ⊆ q.conflicts := fun c mem => tail.grows (by simp [appended, mem])
    refine ⟨?_, ?_, fun c mem => tail.grows (by simp [appended, mem]), ?_⟩
    · intro other missing
      have different : other ≠ id := by
        rintro rfl
        exact missing d (by simp)
      rw [tail.kept other fun d' mem => missing d' (by simp [mem]), elsewhere other different]
    · intro other d' mem
      rcases List.mem_cons.1 mem with same | later
      · cases same
        exact ⟨n, own, alone, by rw [tail.kept id absent, here], own_sub⟩
      · have different : other ≠ id := by
          rintro rfl
          exact absent d' later
        obtain ⟨m, own', alone', found, sub⟩ := tail.merged other d' later
        exact ⟨m, own', alone', by rw [found, elsewhere other different], sub⟩
    · intro c mem
      rcases tail.origin c mem with old | ⟨other, d', m, own', mem', alone', inOwn⟩
      · rw [appended, List.mem_append] at old
        rcases old with old | new
        · exact .inl old
        · exact .inr ⟨id, d, n, own, by simp, alone, new⟩
      · exact .inr ⟨other, d', m, own', by simp [mem'], alone', inOwn⟩

theorem mergeNodes_pointwise {base team draft : DocumentState} {q : Progress Unit}
    (merged : mergeNodes (direct env) resolutions buildEventPlan base team draft clear =
      .ok (nodes, q)) :
    Pointwise env resolutions buildEventPlan base team draft.nodes.toList team.nodes nodes []
      q.conflicts := by
  refine foldlM_mergeEntry env resolutions buildEventPlan ?_ merged
  exact ExtTreeMap.distinct_keys_toList.imp fun {a b} distinct same => distinct (by simp [same])

end Dynodoc.Merge
