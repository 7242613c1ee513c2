import Mathlib.Data.List.Basic

/-! Computations that change a state and may fail half way; what was changed before a
failure stays changed. Rules for pre- and postconditions, with a postcondition for
failures. -/
namespace Effect

variable {ε σ α β : Type}
variable {fail : σ → Prop} {m : EStateM ε σ α}

variable {post middle : α → σ → Prop} {result : EStateM.Result ε σ α} {f : α → EStateM ε σ β}
  {pre : σ → Prop} {a : α}

theorem get_bind (f : σ → EStateM ε σ β) (s : σ) : (get >>= f) s = f s s := rfl

theorem bind_of_ok {s s' : σ} (ok : m s = .ok a s')
    (f : α → EStateM ε σ β) : (m >>= f) s = f a s' := by
  simp [bind, EStateM.bind, ok]

/-- The result of a computation, whichever way it ends. -/
def Ends (result : EStateM.Result ε σ α) (post : α → σ → Prop) (fail : σ → Prop) : Prop :=
  match result with
  | .ok a s => post a s
  | .error _ s => fail s

variable {post' : α → σ → Prop}

theorem Ends.mono
    {fail fail' : σ → Prop} (ends : Ends result post fail) (after : ∀ a s, post a s → post' a s)
    (failed : ∀ s, fail s → fail' s) : Ends result post' fail' := by
  cases result with
  | ok a s => exact after a s ends
  | error e s => exact failed s ends

theorem Ends.of_not_fail (ends : Ends result post fail) (never : ∀ s, ¬ fail s) :
    ∃ a s, result = .ok a s ∧ post a s := by
  cases result with
  | ok a s => exact ⟨a, s, rfl, ends⟩
  | error e s => exact absurd ends (never s)

theorem Ends.bind {s : σ} {post : β → σ → Prop} (first : Ends (m s) middle fail)
    (second : ∀ a s', middle a s' → Ends (f a s') post fail) : Ends ((m >>= f) s) post fail := by
  simp only [Bind.bind, EStateM.bind]
  cases result : m s with
  | ok a s' =>
    rw [result] at first
    exact second a s' first
  | error e s' =>
    rw [result] at first
    exact first

def Triple (pre : σ → Prop) (m : EStateM ε σ α) (post : α → σ → Prop) (fail : σ → Prop) : Prop :=
  ∀ s, pre s → Ends (m s) post fail

theorem Triple.pure
    (holds : ∀ s, pre s → post a s) : Triple pre (pure a : EStateM ε σ α) post fail :=
  fun s start => holds s start

theorem Triple.bind {post : β → σ → Prop}
    (first : Triple pre m middle fail) (second : ∀ a, Triple (middle a) (f a) post fail) :
    Triple pre (m >>= f) post fail :=
  fun s start => (first s start).bind second

theorem Triple.conseq {pre' : σ → Prop}
    (triple : Triple pre m post fail) (before : ∀ s, pre' s → pre s)
    (after : ∀ a s, post a s → post' a s) : Triple pre' m post' fail :=
  fun s start => (triple s (before s start)).mono after fun _ => id

/-- A loop keeps what each of its rounds keeps, given the elements before. -/
theorem Triple.forM {f : α → EStateM ε σ Unit} {l : List α} (inv : List α → σ → Prop)
    (each : ∀ done a rest, l = done ++ a :: rest →
      Triple (inv done) (f a) (fun _ => inv (done ++ [a])) fail) :
    Triple (inv []) (l.forM f) (fun _ => inv l) fail := by
  have go : ∀ (rest done : List α), l = done ++ rest →
      Triple (inv done) (rest.forM f) (fun _ => inv l) fail := by
    intro rest
    induction rest with
    | nil =>
      intro done split
      rw [List.append_nil] at split
      exact Triple.pure fun s held => split ▸ held
    | cons a rest ih =>
      intro done split
      exact Triple.bind (each done a rest split) fun _ => ih (done ++ [a]) (by simp [split])
  exact go l [] rfl

end Effect
