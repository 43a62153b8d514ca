import Beacon.Merkle
import Mathlib.Data.List.Basic

/-
  The levels of a tree. Each is made by hashing the pairs of the level below
  (`levelUp_eq_map`), so a node stands above the two nodes of its pair
  (`getElem?_levelUp`), of which an odd last node is both. From any level on, the levels
  of a tree are the levels over that one (`drop_levels`), and the last holds the root
  alone (`getLast?_levels`).
-/

namespace Beacon

namespace Merkle

variable {level below : List Word} {i k : Nat}

/-! ## One level up -/

/-- The pairs hashed to make the level above; an odd last node is paired with itself. -/
def pairs : List Word → List (Word × Word)
  | [] => []
  | [a] => [(a, a)]
  | a :: b :: rest => (a, b) :: pairs rest

theorem levelUp_eq_map : (level : List Word) →
    levelUp level = (pairs level).map fun p => sha3Pair p.1 p.2
  | [] => rfl
  | [_] => rfl
  | a :: b :: rest => by rw [levelUp, levelUp_eq_map rest, pairs, List.map_cons]

theorem getElem?_pairs : (level : List Word) → (i : Nat) →
    (pairs level)[i]? = level[2 * i]?.map fun a => (a, (level[2 * i + 1]?).getD a)
  | [], i => by simp [pairs]
  | [a], 0 => rfl
  | [a], i + 1 => by simp [pairs]
  | a :: b :: rest, 0 => rfl
  | a :: b :: rest, i + 1 => by
    rw [pairs, List.getElem?_cons_succ, getElem?_pairs rest i, Nat.mul_succ]
    rfl

theorem getElem?_levelUp (level : List Word) (i : Nat) :
    (levelUp level)[i]? =
      level[2 * i]?.map fun a => sha3Pair a ((level[2 * i + 1]?).getD a) := by
  rw [levelUp_eq_map, List.getElem?_map, getElem?_pairs, Option.map_map]
  rfl

theorem levelUp_ne_nil (h : level ≠ []) : levelUp level ≠ [] := by
  have hpos := List.length_pos_iff.mpr h
  apply List.ne_nil_of_length_pos
  rw [length_levelUp]
  omega

/-! ## All levels -/

theorem levels_of_lt (h : 1 < level.length) : levels level = level :: levels (levelUp level) := by
  rw [levels, dif_pos h]

theorem levels_of_le (h : level.length ≤ 1) : levels level = [level] := by
  rw [levels, dif_neg (Nat.not_lt.mpr h)]

theorem levels_singleton (a : Word) : levels [a] = [[a]] :=
  levels_of_le (Nat.le_of_eq List.length_singleton)

theorem levels_ne_nil (level : List Word) : levels level ≠ [] := by
  by_cases h : 1 < level.length
  · rw [levels_of_lt h]
    exact List.cons_ne_nil _ _
  · rw [levels_of_le (Nat.le_of_not_lt h)]
    exact List.cons_ne_nil _ _

theorem getElem?_levels_zero (level : List Word) : (levels level)[0]? = some level := by
  by_cases h : 1 < level.length
  · rw [levels_of_lt h, List.getElem?_cons_zero]
  · rw [levels_of_le (Nat.le_of_not_lt h), List.getElem?_cons_zero]

/-- What holds of a single node, and of a level whenever it holds of the level above,
holds of every level that has a node. -/
theorem induct_up {motive : List Word → Prop} (single : ∀ a, motive [a])
    (up : ∀ level, 1 < level.length → motive (levelUp level) → motive level)
    (h : level ≠ []) : motive level := by
  induction level using levels.induct with
  | case1 level hlt ih => exact up level hlt (ih (levelUp_ne_nil h))
  | case2 level hle =>
    have hpos := List.length_pos_iff.mpr h
    obtain ⟨a, rfl⟩ := List.length_eq_one_iff.mp (show level.length = 1 by omega)
    exact single a

theorem drop_levels (h : (levels level)[k]? = some below) :
    (levels level).drop k = levels below := by
  induction level using levels.induct generalizing k with
  | case1 level hlt ih =>
    rw [levels_of_lt hlt] at h ⊢
    cases k with
    | zero =>
      obtain rfl := Option.some.inj h
      rw [List.drop_zero, levels_of_lt hlt]
    | succ k => exact ih h
  | case2 level hle =>
    have hle := Nat.le_of_not_lt hle
    rw [levels_of_le hle] at h ⊢
    cases k with
    | zero =>
      obtain rfl := Option.some.inj h
      rw [List.drop_zero, levels_of_le hle]
    | succ k => cases h

theorem getElem?_levels_succ (h : (levels level)[k]? = some below) :
    (levels level)[k + 1]? = if 1 < below.length then some (levelUp below) else none := by
  rw [← List.getElem?_drop, drop_levels h]
  split
  · rename_i hlt
    rw [levels_of_lt hlt, List.getElem?_cons_succ, getElem?_levels_zero]
  · rename_i hle
    rw [levels_of_le (Nat.le_of_not_lt hle)]
    rfl

/-! ## The root -/

theorem root_of_lt (h : 1 < level.length) :
    MerkleTree.root ⟨levels level⟩ = MerkleTree.root ⟨levels (levelUp level)⟩ := by
  obtain ⟨top, rest, htop⟩ := List.exists_cons_of_ne_nil (levels_ne_nil (levelUp level))
  rw [levels_of_lt h, htop]
  rfl

theorem root_singleton (a : Word) : MerkleTree.root ⟨levels [a]⟩ = a := by
  rw [levels_singleton]
  rfl

theorem getLast?_levels (h : level ≠ []) :
    (levels level).getLast? = some [MerkleTree.root ⟨levels level⟩] := by
  refine induct_up (motive := fun level =>
    (levels level).getLast? = some [MerkleTree.root ⟨levels level⟩]) ?_ ?_ h
  · intro a
    rw [root_singleton, levels_singleton]
    rfl
  · intro level hlt ih
    rw [root_of_lt hlt, ← ih, levels_of_lt hlt]
    obtain ⟨top, rest, htop⟩ := List.exists_cons_of_ne_nil (levels_ne_nil (levelUp level))
    rw [htop, List.getLast?_cons_cons]

/-! ## Trees -/

theorem ofWords_eq_ok {leaves : List Word} {t : MerkleTree} :
    MerkleTree.ofWords leaves = .ok t ↔ leaves ≠ [] ∧ t = ⟨levels leaves⟩ := by
  rw [MerkleTree.ofWords]
  split
  · rename_i h
    simp [h]
  · rename_i h
    simp [h, eq_comm]

end Merkle

end Beacon
