import Beacon.Proofs.Merkle.Levels
import Mathlib.Algebra.Order.Group.Nat

/-
  Every leaf has a path that verifies. The path of a place takes one step for each level
  below the root (`length_pathFrom`), at step `k` from the place halved `k` times, which
  is a place of level `k` (`div_lt_length`). One step leads from a node to the node above
  (`getElem?_levelUp_div`), whether the node is on the left, on the right, or its own
  sibling; so all of them lead to the root (`climb_path`).
-/

namespace Beacon

namespace Merkle

variable {level below : List Word} {i k : Nat} {node : Word}

def stepAt (level : List Word) (i : Nat) : MerkleStep :=
  { sibling := siblingAt level i, isRight := i % 2 = 0 }

theorem pathFrom_of_lt (h : 1 < level.length) (i : Nat) :
    pathFrom (levels level) i = stepAt level i :: pathFrom (levels (levelUp level)) (i / 2) := by
  obtain ⟨top, rest, htop⟩ := List.exists_cons_of_ne_nil (levels_ne_nil (levelUp level))
  rw [levels_of_lt h, htop]
  rfl

theorem pathFrom_of_le (h : level.length ≤ 1) (i : Nat) : pathFrom (levels level) i = [] := by
  rw [levels_of_le h]
  rfl

theorem length_pathFrom (level : List Word) (i : Nat) :
    (pathFrom (levels level) i).length + 1 = (levels level).length := by
  induction level using levels.induct generalizing i with
  | case1 level hlt ih =>
    rw [pathFrom_of_lt hlt, levels_of_lt hlt, List.length_cons, ih, List.length_cons]
  | case2 level hle =>
    have hle := Nat.le_of_not_lt hle
    rw [pathFrom_of_le hle, levels_of_le hle]
    rfl

/-- The steps of a path, one from each level at the place halved as often. -/
theorem getElem?_pathFrom {step : MerkleStep} (h : (pathFrom (levels level) i)[k]? = some step) :
    ∃ below, (levels level)[k]? = some below ∧ step = stepAt below (i / 2 ^ k) := by
  induction level using levels.induct generalizing i k with
  | case1 level hlt ih =>
    rw [pathFrom_of_lt hlt] at h
    rw [levels_of_lt hlt]
    cases k with
    | zero =>
      obtain rfl := Option.some.inj h
      exact ⟨level, rfl, by rw [pow_zero, Nat.div_one]⟩
    | succ k =>
      obtain ⟨below, hbelow, hstep⟩ := ih h
      exact ⟨below, hbelow, by rw [hstep, pow_succ', Nat.div_div_eq_div_mul]⟩
  | case2 level hle =>
    rw [pathFrom_of_le (Nat.le_of_not_lt hle)] at h
    cases h

theorem isRight_stepAt (level : List Word) (i k : Nat) :
    (stepAt level (i / 2 ^ k)).isRight = !i.testBit k := by
  rw [stepAt, Nat.testBit_eq_decide_div_mod_eq, ← decide_not]
  exact decide_eq_decide.mpr Nat.mod_two_ne_one.symm

theorem div_lt_length (hi : i < level.length) (h : (levels level)[k]? = some below) :
    i / 2 ^ k < below.length := by
  induction k generalizing below with
  | zero =>
    obtain rfl := Option.some.inj ((getElem?_levels_zero level).symm.trans h)
    rwa [pow_zero, Nat.div_one]
  | succ k ih =>
    obtain ⟨last, hlast⟩ : ∃ last, (levels level)[k]? = some last := by
      have hk := (List.getElem?_eq_some_iff.mp h).1
      exact ⟨_, List.getElem?_eq_getElem (Nat.lt_of_succ_lt hk)⟩
    rw [getElem?_levels_succ hlast] at h
    split at h
    · obtain rfl := Option.some.inj h
      have := ih hlast
      rw [length_levelUp, pow_succ, ← Nat.div_div_eq_div_mul]
      omega
    · cases h

theorem getElem?_levelUp_div (h : level[i]? = some node) :
    (levelUp level)[i / 2]? = some (climb node (stepAt level i)) := by
  have hnode : nodeAt level i = node := by rw [nodeAt, List.getD_eq_getElem?_getD, h]; rfl
  rw [getElem?_levelUp]
  rcases Nat.mod_two_eq_zero_or_one i with heven | hodd
  · rw [show 2 * (i / 2) = i by omega, h]
    simp [stepAt, siblingAt, climb, heven, hnode]
  · -- A node on the right has a sibling on the left, since the level begins on the left.
    obtain ⟨left, hleft⟩ : ∃ left, level[i - 1]? = some left := by
      have hi := (List.getElem?_eq_some_iff.mp h).1
      exact ⟨_, List.getElem?_eq_getElem (by omega)⟩
    rw [show 2 * (i / 2) = i - 1 by omega, hleft, show i - 1 + 1 = i by omega, h]
    simp [stepAt, siblingAt, climb, hodd, hleft]

/-- The path of a place leads from its node to the root. -/
theorem climb_path (h : level[i]? = some node) :
    (pathFrom (levels level) i).foldl climb node = MerkleTree.root ⟨levels level⟩ := by
  induction level using levels.induct generalizing i node with
  | case1 level hlt ih =>
    rw [pathFrom_of_lt hlt, List.foldl_cons, root_of_lt hlt]
    exact ih (getElem?_levelUp_div h)
  | case2 level hle =>
    have hi := (List.getElem?_eq_some_iff.mp h).1
    obtain ⟨a, rfl⟩ := List.length_eq_one_iff.mp (show level.length = 1 by omega)
    obtain rfl : i = 0 := by simpa using hi
    obtain rfl := Option.some.inj h
    rw [pathFrom_of_le (Nat.le_of_not_lt hle), root_singleton]
    rfl

/-! ## Trees -/

variable {leaves : List Word}

theorem leafCount_levels (leaves : List Word) :
    MerkleTree.leafCount ⟨levels leaves⟩ = leaves.length := by
  rw [MerkleTree.leafCount, List.headD_eq_head?_getD, List.head?_eq_getElem?,
    getElem?_levels_zero, Option.getD_some]

theorem proof?_levels (leaves : List Word) (i : Nat) :
    MerkleTree.proof? ⟨levels leaves⟩ i =
      if i < leaves.length then some ⟨i, pathFrom (levels leaves) i⟩ else none := by
  rw [MerkleTree.proof?, leafCount_levels]

/-- There is a tree over any leaves but none. Each of its levels is half as long as the
one below, rounded up, and the last holds the root alone. The leaves, and no other places,
have a path: one step for each level below the root, at step `k` from the place halved `k`
times, with the sibling on the right exactly if bit `k` of the place is zero. It verifies. -/
theorem every_leaf_included (h : leaves ≠ []) :
    ∃ t, MerkleTree.ofWords leaves = .ok t ∧ t.levels.head? = some leaves ∧
      (∀ (k : Nat) below above, t.levels[k]? = some below → t.levels[k + 1]? = some above →
        above.length = (below.length + 1) / 2) ∧
      t.levels.getLast? = some [t.root] ∧
      (∀ i, (t.proof? i).isSome ↔ i < leaves.length) ∧
      ∀ i leaf, leaves[i]? = some leaf → ∃ p, t.proof? i = some p ∧ p.leafIndex = i ∧
        p.siblings.length + 1 = t.levels.length ∧
        (∀ (k : Nat) step, p.siblings[k]? = some step →
          step.isRight = !i.testBit k ∧ ∃ level, t.levels[k]? = some level ∧
            i / 2 ^ k < level.length ∧ step.sibling = siblingAt level (i / 2 ^ k)) ∧
        p.verifies t.root leaf = true := by
  refine ⟨⟨levels leaves⟩, ofWords_eq_ok.mpr ⟨h, rfl⟩, ?_, ?_, getLast?_levels h, ?_, ?_⟩
  · rw [List.head?_eq_getElem?, getElem?_levels_zero]
  · intro k below above hbelow habove
    rw [getElem?_levels_succ hbelow] at habove
    split at habove
    · rw [← Option.some.inj habove, length_levelUp]
    · cases habove
  · intro i
    rw [proof?_levels]
    split <;> simp_all
  · intro i leaf hleaf
    have hi : i < leaves.length := (List.getElem?_eq_some_iff.mp hleaf).1
    refine ⟨⟨i, pathFrom (levels leaves) i⟩, ?_, rfl, length_pathFrom leaves i, ?_, ?_⟩
    · rw [proof?_levels, if_pos hi]
    · intro k step hstep
      obtain ⟨level, hlevel, rfl⟩ := getElem?_pathFrom hstep
      exact ⟨isRight_stepAt level i k, level, hlevel, div_lt_length hi hlevel, rfl⟩
    · rw [MerkleProof.verifies, climb_path hleaf]
      exact beq_self_eq_true _

/-- The last of five leaves is its own sibling twice over. -/
theorem every_leaf_included_five :
    ∃ (leaves : List Word) (t : MerkleTree) (p : MerkleProof), leaves.length = 5 ∧ leaves ≠ [] ∧
      MerkleTree.ofWords leaves = .ok t ∧ t.levels.map List.length = [5, 3, 2, 1] ∧
      t.proof? 4 = some p ∧ p.siblings.map (·.isRight) = [true, true, false] ∧
      p.verifies t.root (Word.ofUInt64 5) = true := by
  let leaves := [1, 2, 3, 4, 5].map Word.ofUInt64
  obtain ⟨t, ht, -, -, -, -, hincluded⟩ := every_leaf_included (show leaves ≠ [] from nofun)
  obtain ⟨p, hp, -, hlength, hsteps, hverifies⟩ := hincluded 4 (Word.ofUInt64 5) rfl
  have hlevels : t.levels.map List.length = [5, 3, 2, 1] := by
    obtain ⟨-, rfl⟩ := ofWords_eq_ok.mp ht
    simp [leaves, levels_of_lt, levels_singleton, levelUp]
  have hfour : t.levels.length = 4 := by simpa using congrArg List.length hlevels
  obtain ⟨s, s', s'', hsiblings⟩ := List.length_eq_three.mp (show p.siblings.length = 3 by omega)
  refine ⟨leaves, t, p, rfl, nofun, ht, hlevels, hp, ?_, hverifies⟩
  simp only [hsiblings] at hsteps ⊢
  rw [List.map_cons, List.map_cons, List.map_singleton, (hsteps 0 s rfl).1, (hsteps 1 s' rfl).1,
    (hsteps 2 s'' rfl).1]
  rfl

end Merkle

end Beacon
