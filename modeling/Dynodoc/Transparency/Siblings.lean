import Dynodoc.Transparency.Consistency

/-! The hashes beside the way from a position to the root, level by level. Provers list
them from the top and verifiers use them up from the bottom. -/
namespace Dynodoc.Transparency
open List Walk

variable {Hash : Type} {level index size : Nat}

section Siblings

variable (H : Hasher Hash)

def siblingOf (index : Nat) : Nat := if index % 2 = 1 then index - 1 else index + 1

/-- The hash beside a position; beside the last position of a level there may be none. -/
def sibling (leaves : List Hash) (level index : Nat) : List Hash :=
  if siblingOf index * 2 ^ level < leaves.length then [nodeAt H leaves level (siblingOf index)]
  else []

def siblings (leaves : List Hash) : Nat → Nat → Nat → List Hash
  | 0, _, _ => []
  | count + 1, level, index =>
    sibling H leaves level index ++ siblings leaves count (level + 1) (index / 2)

variable {H} {leaves : List Hash}

theorem sibling_right (odd : index % 2 = 1) (starts : index * 2 ^ level < leaves.length) :
    sibling H leaves level index = [nodeAt H leaves level (index - 1)] := by
  have before : (index - 1) * 2 ^ level < leaves.length :=
    Nat.lt_of_le_of_lt (Nat.mul_le_mul_right _ (Nat.sub_le index 1)) starts
  rw [sibling, siblingOf, if_pos odd, if_pos before]

theorem sibling_left (even : index % 2 = 0) (starts : (index + 1) * 2 ^ level < leaves.length) :
    sibling H leaves level index = [nodeAt H leaves level (index + 1)] := by
  have next : siblingOf index = index + 1 := if_neg (by omega)
  rw [sibling, next, if_pos starts]

theorem sibling_none (even : index % 2 = 0)
    (ends : leaves.length ≤ (index + 1) * 2 ^ level) : sibling H leaves level index = [] := by
  have next : siblingOf index = index + 1 := if_neg (by omega)
  rw [sibling, next, if_neg (Nat.not_lt.2 ends)]

theorem siblings_root {count : Nat} (covers : leaves.length ≤ 2 ^ level) :
    siblings H leaves count level 0 = [] := by
  induction count generalizing level with
  | zero => rfl
  | succ count ih =>
    have above : leaves.length ≤ 2 ^ (level + 1) :=
      covers.trans (Nat.pow_le_pow_right (by decide) (Nat.le_succ level))
    rw [siblings, sibling_none rfl (by simpa using covers), ih above]
    rfl

variable (count level index : Nat)

theorem siblings_snoc :
    siblings H leaves (count + 1) level index =
      siblings H leaves count level index ++ sibling H leaves (level + count) (index / 2 ^ count) := by
  induction count generalizing level index with
  | zero => simp [siblings]
  | succ count ih =>
    have place : index / 2 / 2 ^ count = index / 2 ^ (count + 1) := by
      rw [Nat.div_div_eq_div_mul, Nat.pow_succ']
    rw [siblings, ih, siblings, append_assoc, place, Nat.add_right_comm, Nat.add_assoc level]

theorem siblings_length :
    (siblings H leaves count level index).length ≤ count := by
  induction count generalizing level index with
  | zero => simp [siblings]
  | succ count ih =>
    have one : (sibling H leaves level index).length ≤ 1 := by
      rw [sibling]
      split <;> simp
    have rest := ih (level + 1) (index / 2)
    rw [siblings, length_append]
    omega

/-- What stands beside a position, when `last` is the last one of its level. -/
inductive Beside (H : Hasher Hash) (leaves : List Hash) (level index last : Nat) : Prop where
  | top (index_zero : index = 0) (last_zero : last = 0) (covers : leaves.length ≤ 2 ^ level)
  | right (odd : index % 2 = 1)
      (beside : sibling H leaves level index = [nodeAt H leaves level (index - 1)])
      (parent : nodeAt H leaves (level + 1) (index / 2) =
        H.nodeHash (nodeAt H leaves level (index - 1)) (nodeAt H leaves level index))
  | left (even : index % 2 = 0) (inner : index < last)
      (beside : sibling H leaves level index = [nodeAt H leaves level (index + 1)])
      (parent : nodeAt H leaves (level + 1) (index / 2) =
        H.nodeHash (nodeAt H leaves level index) (nodeAt H leaves level (index + 1)))
  | edge (even : index % 2 = 0) (same : index = last) (nonzero : last ≠ 0)
      (beside : sibling H leaves level index = [])
      (parent : nodeAt H leaves (level + 1) (index / 2) = nodeAt H leaves level index)

theorem beside {level index last : Nat} (here : Last leaves.length level last) (le : index ≤ last) :
    Beside H leaves level index last := by
  by_cases zero : last = 0
  · exact .top (by omega) zero (by simpa [zero] using here.ends)
  have starts : index * 2 ^ level < leaves.length :=
    Nat.lt_of_le_of_lt (Nat.mul_le_mul_right _ le) here.starts
  rcases Nat.mod_two_eq_zero_or_one index with even | odd
  · have half : 2 * (index / 2) = index := by omega
    rcases Nat.lt_or_eq_of_le le with inner | same
    · have next : (index + 1) * 2 ^ level < leaves.length :=
        Nat.lt_of_le_of_lt (Nat.mul_le_mul_right _ inner) here.starts
      have parent := nodeAt_pair H leaves level (index / 2) (by rwa [half])
      exact .left even inner (sibling_left even next) (by rwa [half] at parent)
    · have none : leaves.length ≤ (index + 1) * 2 ^ level := same ▸ here.ends
      have parent := nodeAt_single H leaves level (index / 2) (by rwa [half])
      exact .edge even same zero (sibling_none even none) (by rwa [half] at parent)
  · have half : 2 * (index / 2) + 1 = index := by omega
    have before : 2 * (index / 2) = index - 1 := by omega
    have parent := nodeAt_pair H leaves level (index / 2) (by rwa [half])
    exact .right odd (sibling_right odd starts) (by rwa [half, before] at parent)

/-- The last position of a prefix has a left sibling that the prefix shares, or none. -/
theorem prefix_parent {first level index : Nat} (le : first ≤ leaves.length)
    (here : Last first level index) :
    nodeAt H (leaves.take first) (level + 1) (index / 2) =
      if index % 2 = 1 then
        H.nodeHash (nodeAt H leaves level (index - 1)) (nodeAt H (leaves.take first) level index)
      else nodeAt H (leaves.take first) level index := by
  have len : (leaves.take first).length = first := by
    rw [length_take]
    omega
  split
  · have half : 2 * (index / 2) + 1 = index := by omega
    have before : 2 * (index / 2) = index - 1 := by omega
    have shared := nodeAt_take H leaves first level (index - 1)
      (by rw [Nat.sub_add_cancel (by omega)]; exact Nat.le_of_lt here.starts)
    have parent := nodeAt_pair H (leaves.take first) level (index / 2)
      (by rw [half, len]; exact here.starts)
    rw [parent, half, before, shared]
  · have half : 2 * (index / 2) = index := by omega
    have parent := nodeAt_single H (leaves.take first) level (index / 2)
      (by rw [half, len]; exact here.ends)
    rw [parent, half]

end Siblings

section Walk

variable (H : Hasher Hash) {proof : List Hash}

/-- At the right edge a left child has no sibling, and the verifier passes over its level. -/
theorem run_edge {w : Walk Hash} (same : w.fnode = w.snode) (even : w.fnode % 2 = 0)
    (nonzero : w.snode ≠ 0) (some : proof ≠ []) :
    w.run H proof = run H { w with fnode := w.fnode / 2, snode := w.snode / 2 } proof := by
  have skip : skipEven w.fnode w.snode = skipEven (w.fnode / 2) (w.snode / 2) := by
    rw [skipEven, if_pos ⟨even, by omega⟩]
  have half : w.fnode / 2 = w.snode / 2 := by rw [same]
  cases proof with
  | nil => contradiction
  | cons s rest =>
    simp only [run, step]
    rw [if_neg nonzero, if_pos (.inr same), if_neg (by omega), if_pos (.inr half), skip]

theorem step_right {w : Walk Hash} (odd : w.fnode % 2 = 1) (le : w.fnode ≤ w.snode) (s : Hash) :
    w.step H s = .ok {
      fnode := w.fnode / 2
      snode := w.snode / 2
      firstHash := H.nodeHash s w.firstHash
      secondHash := H.nodeHash s w.secondHash } := by
  have stay : skipEven w.fnode w.snode = (w.fnode, w.snode) := by
    rw [skipEven, if_neg (by omega)]
  simp only [step]
  rw [if_neg (by omega), if_pos (.inl odd), stay]

theorem step_left {w : Walk Hash} (even : w.fnode % 2 = 0) (inner : w.fnode < w.snode) (s : Hash) :
    w.step H s = .ok {
      fnode := w.fnode / 2
      snode := w.snode / 2
      firstHash := w.firstHash
      secondHash := H.nodeHash w.secondHash s } := by
  rw [step, if_neg (by omega), if_neg (by omega)]

/-- What a walk ends with when it has found the roots of the leaves and of their prefix. -/
structure Walk.Arrived (leaves : List Hash) (first : Nat) (final : Walk Hash) : Prop where
  ended : final.snode = 0
  firstRoot : final.firstHash = treeHash H (leaves.take first)
  secondRoot : final.secondHash = treeHash H leaves

/-- The verifier uses up the siblings of the last position of the first tree, and arrives
at both roots. -/
theorem run_complete {leaves : List Hash} {first : Nat} (le : first ≤ leaves.length)
    {count level : Nat} {w : Walk Hash} (hf : Last first level w.fnode)
    (hs : Last leaves.length level w.snode) (covers : leaves.length ≤ 2 ^ (level + count))
    (firstHash : w.firstHash = nodeAt H (leaves.take first) level w.fnode)
    (secondHash : w.secondHash = nodeAt H leaves level w.fnode) :
    ∃ final, w.run H (siblings H leaves count level w.fnode) = .ok final ∧
      final.Arrived H leaves first := by
  have arrived {level : Nat} {w : Walk Hash} (zero : w.fnode = 0) (top : w.snode = 0)
      (all : leaves.length ≤ 2 ^ level)
      (firstHash : w.firstHash = nodeAt H (leaves.take first) level w.fnode)
      (secondHash : w.secondHash = nodeAt H leaves level w.fnode) : w.Arrived H leaves first := by
    have part : (leaves.take first).length ≤ 2 ^ level := by
      rw [length_take]
      omega
    rw [zero] at firstHash secondHash
    exact ⟨top, firstHash.trans (nodeAt_root H _ level part),
      secondHash.trans (nodeAt_root H _ level all)⟩
  induction count generalizing level w with
  | zero =>
    have top := hs.eq_zero covers
    have order := hf.le hs le
    exact ⟨w, rfl, arrived (by omega) top covers firstHash secondHash⟩
  | succ count ih =>
    have order := hf.le hs le
    have parent := @prefix_parent _ H leaves _ _ _ le hf
    have covers' : leaves.length ≤ 2 ^ (level + 1 + count) := by
      rwa [Nat.add_right_comm, Nat.add_assoc]
    cases @beside _ H leaves _ _ _ hs order with
    | top zero top all =>
      refine ⟨w, ?_, arrived zero top all firstHash secondHash⟩
      rw [zero, siblings_root all]
      rfl
    | right odd beside pair =>
      rw [if_pos odd] at parent
      rw [siblings, beside, singleton_append, run, step_right H odd order]
      exact ih hf.up hs.up covers' (by rw [firstHash, parent]) (by rw [secondHash, pair])
    | left even inner beside pair =>
      rw [if_neg (by omega)] at parent
      rw [siblings, beside, singleton_append, run, step_left H even inner]
      exact ih hf.up hs.up covers' (by rw [firstHash, parent]) (by rw [secondHash, pair])
    | edge even same nonzero beside single =>
      rw [if_neg (by omega)] at parent
      obtain ⟨final, walked, result⟩ :=
        @ih (level + 1) { w with fnode := w.fnode / 2, snode := w.snode / 2 } hf.up hs.up covers'
          (by rw [firstHash, parent]) (by rw [secondHash, single])
      refine ⟨final, ?_, result⟩
      rw [siblings, beside, nil_append, run_edge H same even nonzero ?_, walked]
      -- Some level above has a sibling: the walk has not ended yet.
      intro none
      have ended := result.ended
      simp only [none, run, Except.ok.injEq] at walked
      simp only [← walked] at ended
      omega

theorem run_top {w final : Walk Hash} (top : w.snode = 0)
    (walked : w.run H proof = .ok final) : proof = [] ∧ final = w := by
  cases proof with
  | nil => exact ⟨rfl, (Except.ok.inj walked).symm⟩
  | cons s rest => simp [run, step, top, Except.bind] at walked

theorem run_inner {w final : Walk Hash} (inner : w.snode ≠ 0)
    (walked : w.run H proof = .ok final) (ended : final.snode = 0) : ∃ s rest, proof = s :: rest := by
  cases proof with
  | nil =>
    cases walked
    contradiction
  | cons s rest => exact ⟨s, rest, rfl⟩

/-- A walk that arrives at the root of the leaves started at a node of theirs and was led
by its siblings. -/
theorem run_unique (injective : ∀ a b c d, H.nodeHash a b = H.nodeHash c d → a = c ∧ b = d)
    {leaves : List Hash} {count level : Nat} {w final : Walk Hash}
    (order : w.fnode ≤ w.snode) (hs : Last leaves.length level w.snode)
    (covers : leaves.length ≤ 2 ^ (level + count)) (walked : w.run H proof = .ok final)
    (ended : final.snode = 0) (root : final.secondHash = treeHash H leaves) :
    w.secondHash = nodeAt H leaves level w.fnode ∧
      proof = siblings H leaves count level w.fnode := by
  have arrived {level : Nat} {w : Walk Hash} {proof : List Hash} (zero : w.fnode = 0)
      (top : w.snode = 0) (all : leaves.length ≤ 2 ^ level) (walked : w.run H proof = .ok final) :
      w.secondHash = nodeAt H leaves level w.fnode ∧ proof = [] := by
    obtain ⟨none, rfl⟩ := run_top H top walked
    exact ⟨by rw [root, zero, nodeAt_root H leaves level all], none⟩
  induction count generalizing level w proof with
  | zero =>
    have top := hs.eq_zero covers
    exact arrived (by omega) top covers walked
  | succ count ih =>
    have covers' : leaves.length ≤ 2 ^ (level + 1 + count) := by
      rwa [Nat.add_right_comm, Nat.add_assoc]
    have order' : w.fnode / 2 ≤ w.snode / 2 := Nat.div_le_div_right order
    cases @beside _ H leaves _ _ _ hs order with
    | top zero top all =>
      rw [zero, siblings_root all, ← zero]
      exact arrived zero top all walked
    | right odd beside pair =>
      obtain ⟨s, rest, rfl⟩ := run_inner H (by omega) walked ended
      rw [run, step_right H odd order] at walked
      obtain ⟨here, path⟩ := ih order' hs.up covers' walked
      obtain ⟨own, mine⟩ := injective _ _ _ _ (here.trans pair)
      exact ⟨mine, by rw [siblings, beside, own, path]; rfl⟩
    | left even inner beside pair =>
      obtain ⟨s, rest, rfl⟩ := run_inner H (by omega) walked ended
      rw [run, step_left H even inner] at walked
      obtain ⟨here, path⟩ := ih order' hs.up covers' walked
      obtain ⟨mine, own⟩ := injective _ _ _ _ (here.trans pair)
      exact ⟨mine, by rw [siblings, beside, own, path]; rfl⟩
    | edge even same nonzero beside single =>
      obtain ⟨s, rest, rfl⟩ := run_inner H nonzero walked ended
      rw [run_edge H same even nonzero (cons_ne_nil s rest)] at walked
      obtain ⟨here, path⟩ := ih order' hs.up covers' walked
      exact ⟨here.trans single, by rw [siblings, beside, nil_append, path]⟩

end Walk

section Ranges

def width (size level index : Nat) : Nat := min (2 ^ level) (size - index * 2 ^ level)

/-- How a prover divides a position that reaches past its middle. -/
structure Divided (size level index : Nat) : Prop where
  several : 1 < width size (level + 1) index
  cut : split (width size (level + 1) index) = 2 ^ level
  left : width size level (2 * index) = 2 ^ level
  right : width size (level + 1) index - 2 ^ level = width size level (2 * index + 1)
  start : index * 2 ^ (level + 1) = 2 * index * 2 ^ level
  middle : 2 * index * 2 ^ level + 2 ^ level = (2 * index + 1) * 2 ^ level

theorem divided (right : (2 * index + 1) * 2 ^ level < size) : Divided size level index := by
  have start : index * 2 ^ (level + 1) = 2 * index * 2 ^ level := by ring
  have middle : 2 * index * 2 ^ level + 2 ^ level = (2 * index + 1) * 2 ^ level := by ring
  have positive : 0 < 2 ^ level := Nat.two_pow_pos level
  refine ⟨?_, split_eq ?_ (Nat.min_le_left _ _), ?_, ?_, start, middle⟩ <;>
  · simp only [width]
    omega

theorem width_single (none : size ≤ (2 * index + 1) * 2 ^ level) :
    width size (level + 1) index = width size level (2 * index) := by
  have start : index * 2 ^ (level + 1) = 2 * index * 2 ^ level := by ring
  have middle : 2 * index * 2 ^ level + 2 ^ level = (2 * index + 1) * 2 ^ level := by ring
  have positive : 0 < 2 ^ level := Nat.two_pow_pos level
  have short : size - 2 * index * 2 ^ level ≤ 2 ^ level := by omega
  rw [width, width, start, Nat.min_eq_right short, Nat.min_eq_right (by omega)]

theorem child_cases {leaf : Nat} (above : leaf / 2 ^ (level + 1) = index) :
    leaf / 2 ^ level = 2 * index ∧ leaf < (2 * index + 1) * 2 ^ level ∨
      leaf / 2 ^ level = 2 * index + 1 ∧ (2 * index + 1) * 2 ^ level ≤ leaf := by
  have positive : 0 < 2 ^ level := Nat.two_pow_pos level
  have half : leaf / 2 ^ level / 2 = index := by
    rw [Nat.div_div_eq_div_mul, ← Nat.pow_succ, above]
  rw [← Nat.div_lt_iff_lt_mul positive, ← Nat.le_div_iff_mul_le positive]
  omega

variable {H : Hasher Hash} {source : HashSource Hash} {stored : List Hash}

theorem rangeHash_nodeAt (stores : source.Stores H stored) (inside : size ≤ stored.length)
    {level index : Nat} (starts : index * 2 ^ level < size) :
    rangeHash H source (index * 2 ^ level) (width size level index) =
      .ok (nodeAt H (stored.take size) level index) := by
  have positive : 0 < 2 ^ level := Nat.two_pow_pos level
  rw [width, rangeHash_eq H stores _ _ (by omega) (by omega), nodeAt, segment, drop_take,
    take_take]

end Ranges

end Dynodoc.Transparency
