import Mathlib.Data.List.Forall2
import Mathlib.Data.String.Basic
import Mathlib.Tactic.Ring

/-! Loops without a static bound, run on fuel. A computation that needs fuel is a
function of it; it settles when every large enough amount gives one and the same
result, and that result is not the lack of fuel. A panic is a result. -/
namespace Loop
open List Except

variable {ε : Type}

inductive Halt where
  | panic
  | outOfFuel
  deriving DecidableEq

abbrev Run (α : Type) := Except Halt α

variable {σ α β : Type}

variable {l : List α} {step : σ → Run (σ ⊕ α)} {r : α → β → Prop} {f : Nat → Run α} {a : α} {b : β}
  {s : σ} {m : List β} {x : Except ε α}

section

variable {f : α → Except ε β}

theorem bind_eq_ok :
    (x >>= f) = .ok b ↔ ∃ a, x = .ok a ∧ f a = .ok b := by
  cases x <;> simp [bind, Except.bind]

variable {e : ε}

theorem bind_eq_error :
    (x >>= f) = .error e ↔ x = .error e ∨ ∃ a, x = .ok a ∧ f a = .error e := by
  cases x <;> simp [bind, Except.bind]

theorem error_after (failed : (x >>= f) = .error e)
    (other : x ≠ .error e) : ∃ a, f a = .error e := by
  obtain ⟨a, -, later⟩ := (bind_eq_error.1 failed).resolve_left other
  exact ⟨a, later⟩

theorem guard_eq_ok {c : Prop} [Decidable c] :
    (if c then .error e else x) = .ok a ↔ ¬ c ∧ x = .ok a := by
  split <;> simp [*]

theorem map_eq_ok {f : α → β} : x.map f = .ok b ↔ ∃ a, x = .ok a ∧ f a = b := by
  cases x <;> simp [Except.map]

theorem map_eq_error {f : α → β} : x.map f = .error e ↔ x = .error e := by
  cases x <;> simp [Except.map]

theorem toOption_eq_some : x.toOption = some a ↔ x = .ok a := by
  cases x <;> simp [Except.toOption]

theorem exists_left_of_mem (related : List.Forall₂ r l m) (mem : b ∈ m) : ∃ a ∈ l, r a b := by
  induction related with
  | nil => simp at mem
  | cons head tail ih =>
    rename_i a b' l m
    rcases mem_cons.1 mem with rfl | mem
    · exact ⟨a, by simp, head⟩
    · obtain ⟨a', inL, holds⟩ := ih mem
      exact ⟨a', by simp [inL], holds⟩

theorem exists_right_of_mem (related : List.Forall₂ r l m) (mem : a ∈ l) : ∃ b ∈ m, r a b :=
  exists_left_of_mem related.flip mem

theorem forall₂_filterMap {f : α → Option β}
    (each : ∀ a ∈ l, ∃ b, f a = some b ∧ r a b) : List.Forall₂ r l (l.filterMap f) := by
  induction l with
  | nil => exact .nil
  | cons a l ih =>
    obtain ⟨b, found, related⟩ := each a (by simp)
    rw [filterMap_cons_some found]
    exact .cons related (ih fun a mem => each a (mem_cons_of_mem _ mem))

theorem mapM_eq_ok {results : List β} :
    l.mapM f = .ok results ↔ List.Forall₂ (fun a b => f a = .ok b) l results := by
  induction l generalizing results with
  | nil =>
    rw [forall₂_nil_left_iff]
    exact ⟨fun same => (ok.inj same).symm, fun same => same ▸ rfl⟩
  | cons a l ih =>
    rw [mapM_cons, bind_eq_ok, forall₂_cons_left_iff]
    constructor
    · rintro ⟨b, first, rest⟩
      obtain ⟨bs, mapped, same⟩ := bind_eq_ok.1 rest
      exact ⟨b, bs, first, ih.1 mapped, (ok.inj same).symm⟩
    · rintro ⟨b, bs, first, related, rfl⟩
      exact ⟨b, first, bind_eq_ok.2 ⟨bs, ih.2 related, rfl⟩⟩

theorem mapM_succeeds :
    (∃ results, l.mapM f = .ok results) ↔ ∀ a ∈ l, ∃ b, f a = .ok b := by
  constructor
  · rintro ⟨results, mapped⟩ a mem
    obtain ⟨b, -, found⟩ := exists_right_of_mem (mapM_eq_ok.1 mapped) mem
    exact ⟨b, found⟩
  · intro each
    induction l with
    | nil => exact ⟨[], rfl⟩
    | cons a l ih =>
      obtain ⟨b, first⟩ := each a (by simp)
      obtain ⟨results, rest⟩ := ih fun a mem => each a (by simp [mem])
      exact ⟨b :: results, mapM_eq_ok.2 (.cons first (mapM_eq_ok.1 rest))⟩

end

theorem forM_eq_ok {f : α → Except ε Unit} : l.forM f = .ok () ↔ ∀ a ∈ l, f a = .ok () := by
  induction l with
  | nil => simp [pure, Except.pure]
  | cons a l ih =>
    rw [List.forM, bind_eq_ok, forall_mem_cons, ← ih]
    exact ⟨fun ⟨_, first, rest⟩ => ⟨first, rest⟩, fun ⟨first, rest⟩ => ⟨(), first, rest⟩⟩

theorem forM_eq_error {f : α → Except ε Unit}
    (failed : l.forM f = .error e) : ∃ a ∈ l, f a = .error e := by
  induction l with
  | nil => contradiction
  | cons a l ih =>
    rcases bind_eq_error.1 failed with here | ⟨_, _, later⟩
    · exact ⟨a, by simp, here⟩
    · obtain ⟨b, mem, found⟩ := ih later
      exact ⟨b, by simp [mem], found⟩

theorem foldlM_eq_error {f : β → α → Except ε β} {start : β} (failed : l.foldlM f start = .error e) :
    ∃ done a rest acc, l = done ++ a :: rest ∧ done.foldlM f start = .ok acc ∧ f acc a = .error e := by
  induction l generalizing start with
  | nil => contradiction
  | cons a l ih =>
    rcases bind_eq_error.1 failed with here | ⟨next, first, later⟩
    · exact ⟨[], a, l, start, rfl, rfl, here⟩
    · obtain ⟨done, b, rest, acc, rfl, passed, found⟩ := ih later
      exact ⟨a :: done, b, rest, acc, rfl, bind_eq_ok.2 ⟨next, first, passed⟩, found⟩

/-- `loop`, `while` and `while let`: a step either goes on with the next state or
breaks with a result. -/
def loop (step : σ → Run (σ ⊕ α)) : Nat → σ → Run α
  | 0, _ => .error .outOfFuel
  | fuel + 1, s =>
    match step s with
    | .error e => .error e
    | .ok (.inl next) => loop step fuel next
    | .ok (.inr result) => .ok result

/-- What every step keeps, and every break turns into the postcondition, holds of
what the loop returns. -/
theorem loop_post (inv : σ → Prop) (post : α → Prop)
    (keeps : ∀ s next, inv s → step s = .ok (.inl next) → inv next)
    (ends : ∀ s result, inv s → step s = .ok (.inr result) → post result)
    {fuel : Nat} (start : inv s) {result : α}
    (returned : loop step fuel s = .ok result) : post result := by
  induction fuel generalizing s with
  | zero => simp [loop] at returned
  | succ fuel ih =>
    simp only [loop] at returned
    split at returned
    · contradiction
    · rename_i next taken
      exact ih (keeps s next start taken) returned
    · rename_i broke
      cases returned
      exact ends s result start broke

/-- What holds before a fold and what every element keeps, given the elements before it,
holds of the result. -/
theorem foldlM_post {f : β → α → Except ε β} (inv : List α → β → Prop)
    (keeps : ∀ done a b b', a ∈ l → inv done b → f b a = .ok b' → inv (done ++ [a]) b')
    {result : β} (start : inv [] b) (returned : l.foldlM f b = .ok result) : inv l result := by
  have go : ∀ (rest done : List α) (b : β), (∀ a ∈ rest, a ∈ l) → inv done b →
      rest.foldlM f b = .ok result → inv (done ++ rest) result := by
    intro rest
    induction rest with
    | nil =>
      intro done b _ here run
      cases run
      rwa [append_nil]
    | cons a rest ih =>
      intro done b within here run
      rw [foldlM_cons, bind_eq_ok] at run
      obtain ⟨next, first, run⟩ := run
      have after := keeps done a b next (within a (by simp)) here first
      have all := ih (done ++ [a]) next (fun x mem => within x (by simp [mem])) after run
      rwa [append_assoc] at all
  exact go l [] b (fun a mem => mem) start returned

theorem loop_stuck (again : step s = .ok (.inl s)) (fuel : Nat) :
    loop step fuel s = .error .outOfFuel := by
  induction fuel with
  | zero => rfl
  | succ fuel ih => simp only [loop, again, ih]

def Settles (f : Nat → Run α) : Prop :=
  ∃ result bound, result ≠ .error .outOfFuel ∧ ∀ fuel ≥ bound, f fuel = result

theorem Settles.const {r : Run α} (known : r ≠ .error .outOfFuel) : Settles fun _ => r :=
  ⟨r, 0, known, fun _ _ => rfl⟩

open Settles

theorem Settles.ok (a : α) : Settles fun _ => (.ok a : Run α) :=
  const (by simp)

/-- A computation that settles may be followed by any that settles on what the
first one returns. -/
theorem Settles.bind {g : Nat → α → Run β} (first : Settles f)
    (second : ∀ a, (∃ fuel, f fuel = .ok a) → Settles fun fuel => g fuel a) :
    Settles fun fuel => f fuel >>= g fuel := by
  obtain ⟨result, bound, known, stable⟩ := first
  cases result with
  | error e =>
    refine ⟨.error e, bound, by simpa using known, fun fuel enough => ?_⟩
    simp [stable fuel enough, Bind.bind, Except.bind]
  | ok a =>
    obtain ⟨last, bound', known', stable'⟩ := second a ⟨bound, stable bound (Nat.le_refl _)⟩
    refine ⟨last, max bound bound', known', fun fuel enough => ?_⟩
    have enough₁ : fuel ≥ bound := le_trans (Nat.le_max_left ..) enough
    have enough₂ : fuel ≥ bound' := le_trans (Nat.le_max_right ..) enough
    simp [stable fuel enough₁, stable' fuel enough₂, Bind.bind, Except.bind]

theorem loop_mono {fuel more : Nat} (le : fuel ≤ more)
    (done : loop step fuel s ≠ .error .outOfFuel) : loop step more s = loop step fuel s := by
  induction fuel generalizing more s with
  | zero => simp [loop] at done
  | succ fuel ih =>
    obtain ⟨more, rfl⟩ : ∃ m, more = m + 1 := ⟨more - 1, by omega⟩
    simp only [loop] at done ⊢
    split at done <;> simp_all

/-- A loop whose steps neither run out of fuel nor fail to lower a measure settles. -/
theorem Settles.loop (inv : σ → Prop) (μ : σ → Nat)
    (total : ∀ s, inv s → step s ≠ .error .outOfFuel)
    (keeps : ∀ s next, inv s → step s = .ok (.inl next) → inv next ∧ μ next < μ s) (start : inv s) :
    Settles fun fuel => loop step fuel s := by
  have enough : ∀ fuel s, inv s → μ s < fuel → Loop.loop step fuel s ≠ .error .outOfFuel := by
    intro fuel
    induction fuel with
    | zero => intro s _ below; omega
    | succ fuel ih =>
      intro s held below
      simp only [Loop.loop]
      split
      · rename_i e failed
        intro same
        cases same
        exact total s held failed
      · rename_i next taken
        obtain ⟨held', lower⟩ := keeps s next held taken
        exact ih next held' (by omega)
      · simp
  refine ⟨_, μ s + 1, enough _ s start (Nat.lt_succ_self _), fun fuel above => ?_⟩
  exact loop_mono above (enough _ s start (Nat.lt_succ_self _))

theorem loop_ne_panic (safe : ∀ s, step s ≠ .error .panic) (fuel : Nat)
    (s : σ) : loop step fuel s ≠ .error .panic := by
  induction fuel generalizing s with
  | zero => simp [loop]
  | succ fuel ih =>
    simp only [loop]
    split
    · rename_i e failed
      intro same
      cases same
      exact safe s failed
    · exact ih _
    · simp

theorem foldlM_ne_panic {f : β → α → Run β} (safe : ∀ b a, f b a ≠ .error .panic) (l : List α)
    (b : β) : l.foldlM f b ≠ .error .panic := by
  induction l generalizing b with
  | nil => simp [pure, Except.pure]
  | cons a l ih =>
    rw [foldlM_cons]
    cases first : f b a with
    | error e =>
      intro same
      cases same
      exact safe b a first
    | ok next => exact ih next

theorem Settles.returns (settles : Settles f)
    (safe : ∀ fuel, f fuel ≠ .error .panic) : ∃ a bound, ∀ fuel ≥ bound, f fuel = .ok a := by
  obtain ⟨result, bound, known, stable⟩ := settles
  cases result with
  | ok a => exact ⟨a, bound, stable⟩
  | error halt =>
    cases halt with
    | panic => exact absurd (stable bound (Nat.le_refl _)) (safe bound)
    | outOfFuel => exact absurd rfl known

variable {p q : α → Bool}

/-- Measures for loops that use up the elements of a list. -/
theorem sum_filter_le (f : α → Nat) (fewer : ∀ x, q x = true → p x = true) :
    ((l.filter q).map f).sum ≤ ((l.filter p).map f).sum := by
  induction l with
  | nil => simp
  | cons x l ih =>
    simp only [filter_cons]
    split <;> split
    all_goals simp_all
    omega

theorem sum_filter_add_le (f : α → Nat) (mem : a ∈ l)
    (used : q a = false) (unused : p a = true) (fewer : ∀ x, q x = true → p x = true) :
    ((l.filter q).map f).sum + f a ≤ ((l.filter p).map f).sum := by
  induction l with
  | nil => simp at mem
  | cons x l ih =>
    rcases mem_cons.1 mem with rfl | mem
    · have rest := sum_filter_le f (l := l) fewer
      simp only [filter_cons, used, unused, if_true, Bool.false_eq_true, if_false,
        map_cons, sum_cons]
      omega
    · have rest := ih mem
      simp only [filter_cons]
      split <;> split
      all_goals simp_all
      all_goals omega

theorem countP_lt (mem : a ∈ l) (used : q a = false)
    (unused : p a = true) (fewer : ∀ x ∈ l, q x = true → p x = true) : l.countP q < l.countP p := by
  induction l with
  | nil => simp at mem
  | cons x l ih =>
    simp only [countP_cons]
    have rest : l.countP q ≤ l.countP p :=
      countP_mono_left fun y inList => fewer y (by simp [inList])
    rcases mem_cons.1 mem with rfl | mem
    · simp only [used, unused, if_true, Bool.false_eq_true, if_false]
      omega
    · have below := ih mem fun y inList => fewer y (by simp [inList])
      have here := fewer x (by simp)
      split
      · simp only [here ‹_›, if_true]
        omega
      · omega

/-- A `for` loop over a list settles when each of its iterations does. -/
theorem Settles.foldlM {f : Nat → β → α → Run β} (inv : β → Prop)
    (each : ∀ b a, inv b → a ∈ l → Settles fun fuel => f fuel b a)
    (keeps : ∀ fuel b a next, inv b → a ∈ l → f fuel b a = .ok next → inv next) (start : inv b) :
    Settles fun fuel => l.foldlM (f fuel) b := by
  induction l generalizing b with
  | nil => exact ok b
  | cons a l ih =>
    refine bind (each b a start (by simp)) fun next returned => ?_
    obtain ⟨fuel, returned⟩ := returned
    apply ih
    · intro b a held mem
      exact each b a held (by simp [mem])
    · intro fuel b a next held mem returned
      exact keeps fuel b a next held (by simp [mem]) returned
    · exact keeps fuel b a next start (by simp) returned

theorem Settles.map (first : Settles f) (g : α → β) : Settles fun fuel => (f fuel).map g := by
  obtain ⟨result, bound, known, stable⟩ := first
  refine ⟨result.map g, bound, ?_, fun fuel enough => congrArg _ (stable fuel enough)⟩
  cases result <;> simp_all [Except.map]

theorem Settles.mapM {f : Nat → α → Run β}
    (each : ∀ a ∈ l, Settles fun fuel => f fuel a) : Settles fun fuel => l.mapM (f fuel) := by
  induction l with
  | nil => exact ok []
  | cons a l ih =>
    simp only [mapM_cons]
    refine bind (each a (by simp)) fun b _ => ?_
    refine bind (ih fun a mem => each a (by simp [mem])) fun bs _ => ?_
    exact ok (b :: bs)

end Loop
