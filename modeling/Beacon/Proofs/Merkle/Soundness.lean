import Beacon.Proofs.Merkle.Binding
import Beacon.Proofs.Merkle.Inclusion
import Mathlib.Data.List.TakeDrop
import Mathlib.Tactic.MkIffOfInductiveProp

/-
  What a path that verifies proves. The directions of its steps, read from the root down,
  lead to a place (`landing`), where an odd last node stands for its own copy too. As long
  as no two of the pairs hashed collide, a path of as many steps as there are levels
  above verifies exactly if it leads up from the node at that place by the tree's own
  siblings (`climbs_iff`).

  The check sees neither the number of leaves nor the place a path is said to be for. So
  a path that is too short proves an inner node, one that is too long proves what hashes
  up to a leaf, and the place proved is the one its directions lead to (`verifies_iff`).
-/

namespace Beacon

namespace Merkle

variable {level below : List Word} {node : Word} {step : MerkleStep} {steps : List MerkleStep}
  {i k n : Nat}

def stepPair (node : Word) (step : MerkleStep) : Word × Word :=
  if step.isRight then (node, step.sibling) else (step.sibling, node)

theorem step_eq {step' : MerkleStep} (hsibling : step.sibling = step'.sibling)
    (hright : step.isRight = step'.isRight) : step = step' := by
  cases step
  cases step'
  cases hsibling
  cases hright
  rfl

theorem climb_eq (node : Word) (step : MerkleStep) :
    climb node step = sha3Pair (stepPair node step).1 (stepPair node step).2 := by
  rw [climb, stepPair]
  split <;> rfl

/-- The pairs hashed on the way up from a node. -/
def climbed : Word → List MerkleStep → List (Word × Word)
  | _, [] => []
  | node, step :: rest => stepPair node step :: climbed (climb node step) rest

theorem climbed_append (node : Word) (steps rest : List MerkleStep) :
    climbed node (steps ++ rest) = climbed node steps ++ climbed (steps.foldl climb node) rest := by
  induction steps generalizing node with
  | nil => rfl
  | cons step steps ih => rw [List.cons_append, climbed, ih, climbed, List.foldl_cons]; rfl

/-! ## Where directions lead -/

/-- The place among `n` nodes to which the directions of the steps lead down from the
top: left to `2 j`, right to `2 j + 1` or, if there is none, to the node that is copied. -/
def landing : Nat → List MerkleStep → Nat
  | _, [] => 0
  | n, step :: rest =>
    let above := landing ((n + 1) / 2) rest
    if step.isRight then 2 * above else min (2 * above + 1) (n - 1)

theorem landing_lt (steps : List MerkleStep) (hn : 0 < n) : landing n steps < n := by
  induction steps generalizing n with
  | nil => exact hn
  | cons step rest ih =>
    have habove : landing ((n + 1) / 2) rest < (n + 1) / 2 := ih (by omega)
    rw [landing]
    split <;> omega

theorem landing_half (hn : 0 < n) :
    landing n (step :: steps) / 2 = landing ((n + 1) / 2) steps := by
  have habove : landing ((n + 1) / 2) steps < (n + 1) / 2 := landing_lt steps (by omega)
  rw [landing]
  split <;> omega

/-- Directions that spell out a place in binary lead to it. -/
theorem landing_eq (hlength : steps.length + 1 = (levels level).length) (hi : i < level.length)
    (hbits : ∀ (k : Nat) step, steps[k]? = some step → step.isRight = !i.testBit k) :
    landing level.length steps = i := by
  induction level using levels.induct generalizing steps i with
  | case1 level hlt ih =>
    rw [levels_of_lt hlt, List.length_cons] at hlength
    cases steps with
    | nil => exact absurd (Nat.succ.inj hlength).symm (by simp [levels_ne_nil])
    | cons step rest =>
      have habove : landing ((level.length + 1) / 2) rest = i / 2 := by
        rw [← length_levelUp]
        refine ih (Nat.succ.inj hlength) (by rw [length_levelUp]; omega) fun k s hs => ?_
        rw [Nat.testBit_div_two]
        exact hbits (k + 1) s hs
      have hstep : step.isRight = !decide (i % 2 = 1) := by
        rw [hbits 0 step rfl, Nat.testBit_zero]
      rw [landing, habove, hstep]
      rcases Nat.mod_two_eq_zero_or_one i with heven | hodd
      · simp [heven]
        omega
      · simp [hodd]
        omega
  | case2 level hle =>
    rw [levels_of_le (Nat.le_of_not_lt hle)] at hlength
    obtain rfl : steps = [] := List.eq_nil_of_length_eq_zero (Nat.succ.inj hlength)
    rw [landing]
    omega

/-! ## One step -/

/-- A pair of a level is hashed by a step exactly if the step starts at the node of the
pair that its direction names, with the sibling that the node has. -/
theorem getElem?_pairs_landing (hlevel : level ≠ []) :
    (pairs level)[landing ((level.length + 1) / 2) steps]? = some (stepPair node step) ↔
      level[landing level.length (step :: steps)]? = some node ∧
        step.sibling = siblingAt level (landing level.length (step :: steps)) := by
  have hpos := List.length_pos_iff.mpr hlevel
  have hj : landing ((level.length + 1) / 2) steps < (level.length + 1) / 2 :=
    landing_lt steps (by omega)
  rw [getElem?_pairs, landing]
  generalize landing ((level.length + 1) / 2) steps = j at hj
  obtain ⟨left, hleft⟩ : ∃ left, level[2 * j]? = some left :=
    ⟨_, List.getElem?_eq_getElem (by omega)⟩
  have hnode : nodeAt level (2 * j) = left := by
    rw [nodeAt, List.getD_eq_getElem?_getD, hleft, Option.getD_some]
  cases hright : step.isRight with
  | true =>
    simp only [stepPair, hright, if_true, hleft, Option.map_some, Option.some.injEq,
      Prod.mk.injEq, siblingAt, Nat.mul_mod_right, hnode]
    exact and_congr_right' eq_comm
  | false =>
    simp only [stepPair, hright, if_false, Bool.false_eq_true, hleft, Option.map_some,
      Option.some.injEq, Prod.mk.injEq, siblingAt]
    by_cases hlast : 2 * j + 1 < level.length
    · -- The node on the right is another one.
      obtain ⟨right, hget⟩ : ∃ right, level[2 * j + 1]? = some right :=
        ⟨_, List.getElem?_eq_getElem hlast⟩
      rw [min_eq_left (by omega), hget, if_neg (by omega), Nat.add_sub_cancel, hleft,
        Option.getD_some, Option.getD_some, Option.some.injEq]
      exact and_comm.trans (and_congr_right' eq_comm)
    · -- The node on the right is the copy of the one on the left.
      have hget : level[2 * j + 1]? = none := List.getElem?_eq_none (by omega)
      rw [show min (2 * j + 1) (level.length - 1) = 2 * j by omega, if_pos (by omega), hget, hleft,
        hnode, Option.getD_none, Option.some.injEq]
      exact and_comm.trans (and_congr_right' eq_comm)

/-- A step comes out at the node above exactly if it starts below it in the tree. -/
theorem getElem?_levelUp_landing (hlevel : level ≠ [])
    (hcol : NoCollision (pairs level ++ [stepPair node step])) :
    (levelUp level)[landing ((level.length + 1) / 2) steps]? = some (climb node step) ↔
      level[landing level.length (step :: steps)]? = some node ∧
        step.sibling = siblingAt level (landing level.length (step :: steps)) := by
  rw [← getElem?_pairs_landing hlevel, levelUp_eq_map, List.getElem?_map, climb_eq]
  constructor
  · intro h
    obtain ⟨p, hp, hdigest⟩ := Option.map_eq_some_iff.mp h
    have hmem : p ∈ pairs level := List.mem_of_getElem? hp
    rw [hp, hcol p (List.mem_append_left _ hmem) _ (by simp) hdigest]
  · intro h
    rw [h, Option.map_some]

/-! ## All steps -/

/-- The steps lead up from the node: it stands where their directions lead, and their
siblings are those on the tree's own path from there. -/
@[mk_iff]
structure LeadsUp (level : List Word) (node : Word) (steps : List MerkleStep) : Prop where
  starts : level[landing level.length steps]? = some node
  siblings : steps.map (·.sibling) =
    (pathFrom (levels level) (landing level.length steps)).map (·.sibling)

theorem leadsUp_singleton {a : Word} : LeadsUp [a] node [] ↔ node = a := by
  rw [leadsUp_iff, levels_singleton]
  simp [landing, pathFrom, eq_comm]

theorem leadsUp_cons (hlt : 1 < level.length)
    (hcol : NoCollision (pairs level ++ [stepPair node step])) :
    LeadsUp level node (step :: steps) ↔ LeadsUp (levelUp level) (climb node step) steps := by
  have hpos : 0 < level.length := by omega
  rw [leadsUp_iff, leadsUp_iff, length_levelUp,
    getElem?_levelUp_landing (List.ne_nil_of_length_pos hpos) hcol, pathFrom_of_lt hlt,
    landing_half hpos, List.map_cons, List.map_cons, List.cons.injEq, and_assoc]
  rfl

/-- As many steps as there are levels above come out at the root exactly if they lead up
to it. -/
theorem climbs_iff (hlevel : level ≠ []) (hlength : steps.length + 1 = (levels level).length)
    (hcol : NoCollision (MerkleTree.hashed ⟨levels level⟩ ++ climbed node steps)) :
    steps.foldl climb node = MerkleTree.root ⟨levels level⟩ ↔ LeadsUp level node steps := by
  induction level using levels.induct generalizing node steps with
  | case1 level hlt ih =>
    rw [levels_of_lt hlt, List.length_cons] at hlength
    cases steps with
    | nil => exact absurd (Nat.succ.inj hlength).symm (by simp [levels_ne_nil])
    | cons step rest =>
      rw [hashed_of_lt hlt, climbed, ← List.singleton_append] at hcol
      obtain ⟨hhere, habove⟩ := hcol.parts
      rw [List.foldl_cons, root_of_lt hlt,
        ih (levelUp_ne_nil hlevel) (Nat.succ.inj hlength) habove, leadsUp_cons hlt hhere]
  | case2 level hle =>
    have hle := Nat.le_of_not_lt hle
    have hpos := List.length_pos_iff.mpr hlevel
    obtain ⟨a, rfl⟩ := List.length_eq_one_iff.mp (show level.length = 1 by omega)
    rw [levels_singleton] at hlength
    obtain rfl : steps = [] := List.eq_nil_of_length_eq_zero (Nat.succ.inj hlength)
    rw [leadsUp_singleton, root_singleton]
    rfl

/-! ## A level of a tree -/

theorem root_of_level (h : (levels level)[k]? = some below) :
    MerkleTree.root ⟨levels below⟩ = MerkleTree.root ⟨levels level⟩ := by
  have hk := (List.getElem?_eq_some_iff.mp h).1
  rw [MerkleTree.root, MerkleTree.root, ← drop_levels h, List.getLastD_eq_getLast?,
    List.getLast?_drop, if_neg (Nat.not_le.mpr hk), List.getLastD_eq_getLast?]

theorem hashed_of_level (h : (levels level)[k]? = some below) :
    MerkleTree.hashed ⟨levels below⟩ ⊆ MerkleTree.hashed ⟨levels level⟩ := by
  intro p hp
  obtain ⟨l, hl, hpl⟩ := List.mem_flatMap.mp hp
  refine List.mem_flatMap.mpr ⟨l, ?_, hpl⟩
  rw [← drop_levels h, List.dropLast_drop_eq_drop_dropLast] at hl
  exact List.mem_of_mem_drop hl

/-! ## Proofs of inclusion -/

variable {leaves : List Word} {t : MerkleTree} {p : MerkleProof} {value : Word}

theorem verifies_eq_true {root : Word} :
    p.verifies root value = true ↔ p.siblings.foldl climb value = root := beq_iff_eq

/-- A path of no more steps than there are levels below the root verifies exactly if it
leads up from the level that many steps below the root. -/
theorem verifies_iff_of_le (hleaves : leaves ≠ [])
    (hlength : p.siblings.length + 1 ≤ (levels leaves).length)
    (hcol : NoCollision (MerkleTree.hashed ⟨levels leaves⟩ ++ climbed value p.siblings)) :
    p.verifies (MerkleTree.root ⟨levels leaves⟩) value = true ↔
      ∃ level, (levels leaves)[(levels leaves).length - 1 - p.siblings.length]? = some level ∧
        LeadsUp level value p.siblings := by
  obtain ⟨level, hlevel⟩ :
      ∃ level, (levels leaves)[(levels leaves).length - 1 - p.siblings.length]? = some level :=
    ⟨_, List.getElem?_eq_getElem (by omega)⟩
  have hne : level ≠ [] :=
    List.ne_nil_of_length_pos (Nat.zero_lt_of_lt
      (div_lt_length (List.length_pos_iff.mpr hleaves) hlevel))
  have hsteps : p.siblings.length + 1 = (levels level).length := by
    rw [← drop_levels hlevel, List.length_drop]
    omega
  have hlocal : NoCollision (MerkleTree.hashed ⟨levels level⟩ ++ climbed value p.siblings) :=
    hcol.of_subset (List.append_subset.mpr
      ⟨List.subset_append_of_subset_left _ (hashed_of_level hlevel),
        List.subset_append_right _ _⟩)
  rw [verifies_eq_true, ← root_of_level hlevel, climbs_iff hne hsteps hlocal, hlevel]
  simp

/-- A path of more steps verifies exactly if its last ones lead up from the leaf that its
first ones come out at. -/
theorem verifies_iff_of_append {surplus own : List MerkleStep} (hleaves : leaves ≠ [])
    (hp : p.siblings = surplus ++ own) (hlength : own.length + 1 = (levels leaves).length)
    (hcol : NoCollision (MerkleTree.hashed ⟨levels leaves⟩ ++ climbed value p.siblings)) :
    p.verifies (MerkleTree.root ⟨levels leaves⟩) value = true ↔
      LeadsUp leaves (surplus.foldl climb value) own := by
  rw [hp, climbed_append] at hcol
  rw [verifies_eq_true, hp, List.foldl_append]
  exact climbs_iff hleaves hlength (hcol.of_subset (List.append_subset.mpr
    ⟨List.subset_append_left _ _,
      List.subset_append_of_subset_right _ (List.subset_append_right _ _)⟩))

theorem eq_pathFrom
    (hbits : ∀ (k : Nat) step, steps[k]? = some step → step.isRight = !i.testBit k)
    (hsiblings : steps.map (·.sibling) = (pathFrom (levels level) i).map (·.sibling)) :
    steps = pathFrom (levels level) i := by
  have hlength := congrArg List.length hsiblings
  rw [List.length_map, List.length_map] at hlength
  refine List.ext_getElem hlength fun k hk hk' => ?_
  have hsibling := List.getElem_of_eq hsiblings (i := k) (by simpa using hk)
  rw [List.getElem_map, List.getElem_map] at hsibling
  obtain ⟨below, -, hstep⟩ := getElem?_pathFrom (List.getElem?_eq_getElem hk')
  have hright : steps[k].isRight = (pathFrom (levels level) i)[k].isRight := by
    rw [hbits k _ (List.getElem?_eq_getElem hk), hstep, isRight_stepAt]
  exact step_eq hsibling hright

/-- A path with the directions of a place of the leaves verifies exactly if it is the path
of that place and proves the leaf there. -/
theorem verifies_iff_of_directions (hleaves : leaves ≠ [])
    (hlength : p.siblings.length + 1 = (levels leaves).length)
    (hbits : ∀ (k : Nat) step, p.siblings[k]? = some step →
      step.isRight = !p.leafIndex.testBit k)
    (hindex : p.leafIndex < leaves.length)
    (hcol : NoCollision (MerkleTree.hashed ⟨levels leaves⟩ ++ climbed value p.siblings)) :
    p.verifies (MerkleTree.root ⟨levels leaves⟩) value = true ↔
      leaves[p.leafIndex]? = some value ∧
        MerkleTree.proof? ⟨levels leaves⟩ p.leafIndex = some p := by
  rw [verifies_iff_of_append hleaves (List.nil_append p.siblings).symm hlength hcol, leadsUp_iff,
    landing_eq hlength hindex hbits, proof?_levels, if_pos hindex, List.foldl_nil]
  refine and_congr_right' ⟨fun hsiblings => ?_, fun hproof => ?_⟩
  · rw [← eq_pathFrom hbits hsiblings]
  · rw [← congrArg MerkleProof.siblings (Option.some.inj hproof)]

/-- What a path that verifies proves, as long as no pairs hashed collide. If it has one step
for each level below the root, it proves the leaf that its directions lead to, by the
siblings of that leaf; with the directions of the place that it is said to be for, it is
the path of that place and proves the leaf there. If it has fewer steps, it proves the node
that its directions lead to, as many levels below the root. If it has more, the first ones
hash what it proves up to such a leaf. -/
theorem verifies_iff (ht : MerkleTree.ofWords leaves = .ok t)
    (hcol : NoCollision (t.hashed ++ climbed value p.siblings)) :
    (p.siblings.length + 1 = t.levels.length →
      (p.verifies t.root value = true ↔ LeadsUp leaves value p.siblings) ∧
      ((∀ (k : Nat) step, p.siblings[k]? = some step → step.isRight = !p.leafIndex.testBit k) →
        p.leafIndex < leaves.length →
          (p.verifies t.root value = true ↔
            leaves[p.leafIndex]? = some value ∧ t.proof? p.leafIndex = some p))) ∧
    (p.siblings.length + 1 < t.levels.length →
      (p.verifies t.root value = true ↔
        ∃ level, t.levels[t.levels.length - 1 - p.siblings.length]? = some level ∧
          LeadsUp level value p.siblings)) ∧
    ∀ surplus own, p.siblings = surplus ++ own → own.length + 1 = t.levels.length →
      (p.verifies t.root value = true ↔ LeadsUp leaves (surplus.foldl climb value) own) := by
  obtain ⟨hleaves, rfl⟩ := ofWords_eq_ok.mp ht
  refine ⟨fun hlength => ⟨?_, fun hbits hindex => ?_⟩, fun hlength => ?_,
    fun surplus own hp hown => ?_⟩
  · exact verifies_iff_of_append hleaves (List.nil_append p.siblings).symm hlength hcol
  · exact verifies_iff_of_directions hleaves hlength hbits hindex hcol
  · exact verifies_iff_of_le hleaves (Nat.le_of_lt hlength) hcol
  · exact verifies_iff_of_append hleaves hp hown hcol

/-! ## Three leaves -/

theorem threeWords_climbed {ps : List (Word × Word)}
    (h : ps ⊆ MerkleTree.hashed ⟨levels threeWords⟩) :
    NoCollision (MerkleTree.hashed ⟨levels threeWords⟩ ++ ps) :=
  threeWords_noCollision.of_subset (List.append_subset.mpr
    ⟨List.subset_append_left _ _, List.subset_append_of_subset_left _ h⟩)

theorem root_three (a b c : Word) :
    MerkleTree.root ⟨levels [a, b, c]⟩ = sha3Pair (sha3Pair a b) (sha3Pair c c) := by
  rw [levels_three]
  rfl

theorem ofWords_three : MerkleTree.ofWords threeWords = .ok ⟨levels threeWords⟩ :=
  ofWords_eq_ok.mpr ⟨List.cons_ne_nil _ _, rfl⟩

theorem verifies_iff_three :
    ∃ (t : MerkleTree) (p : MerkleProof), MerkleTree.ofWords threeWords = .ok t ∧
      NoCollision (t.hashed ++ climbed (.ofUInt64 3) p.siblings) ∧ p.leafIndex = 2 ∧
      p.siblings.length + 1 = t.levels.length ∧ p.verifies t.root (.ofUInt64 3) = true ∧
      threeWords[2]? = some (.ofUInt64 3) ∧ t.proof? 2 = some p := by
  let last : Word := .ofUInt64 3
  let p : MerkleProof := ⟨2, [⟨last, true⟩, ⟨sha3Pair (.ofUInt64 1) (.ofUInt64 2), false⟩]⟩
  have hcol : NoCollision (MerkleTree.hashed ⟨levels threeWords⟩ ++ climbed last p.siblings) := by
    apply threeWords_climbed
    rw [threeWords, hashed_three]
    exact List.subset_cons_self _ _
  have hlength : p.siblings.length + 1 = (levels threeWords).length := by
    rw [threeWords, levels_three]
    rfl
  have hverifies : p.verifies (MerkleTree.root ⟨levels threeWords⟩) last = true := by
    rw [verifies_eq_true, threeWords, root_three]
    rfl
  have hbits : ∀ (k : Nat) step, p.siblings[k]? = some step →
      step.isRight = !p.leafIndex.testBit k := by
    rintro (_ | _ | k) step h
    · simp [p, ← Option.some.inj h]
    · simp [p, ← Option.some.inj h, Nat.testBit_eq_decide_div_mod_eq]
    · simp [p] at h
  obtain ⟨hleaf, hproof⟩ := (((verifies_iff ofWords_three hcol).1 hlength).2 hbits
    (Nat.lt_succ_self 2)).mp hverifies
  exact ⟨_, p, ofWords_three, hcol, rfl, hlength, hverifies, hleaf, hproof⟩

/-- Paths that verify for three leaves, without any collision, and do not prove the leaf
that they are said to be for: one with a step too few proves an inner node, one has the
directions of another place, and one those of the copy of the last leaf. -/
theorem other_places_verify :
    ∃ t, MerkleTree.ofWords threeWords = .ok t ∧ ∀ p value,
      (p, value) ∈ ([
        (⟨0, [⟨sha3Pair (.ofUInt64 3) (.ofUInt64 3), true⟩]⟩,
          sha3Pair (.ofUInt64 1) (.ofUInt64 2)),
        (⟨1, [⟨.ofUInt64 2, true⟩, ⟨sha3Pair (.ofUInt64 3) (.ofUInt64 3), true⟩]⟩, .ofUInt64 1),
        (⟨3, [⟨.ofUInt64 3, false⟩, ⟨sha3Pair (.ofUInt64 1) (.ofUInt64 2), false⟩]⟩,
          .ofUInt64 3)] : List (MerkleProof × Word)) →
      NoCollision (t.hashed ++ climbed value p.siblings) ∧ p.verifies t.root value = true ∧
        threeWords[p.leafIndex]? ≠ some value := by
  have hinner : (Word.ofUInt64 1).bytes ≠ (sha3Pair (.ofUInt64 1) (.ofUInt64 2)).bytes := by
    rw [bytes_sha3Pair]
    decide +kernel
  refine ⟨_, ofWords_three, fun p value hmem => ?_⟩
  have hhashed := hashed_three (.ofUInt64 1) (.ofUInt64 2) (.ofUInt64 3)
  simp only [List.mem_cons, List.not_mem_nil, or_false, Prod.mk.injEq] at hmem
  obtain ⟨rfl, rfl⟩ | ⟨rfl, rfl⟩ | ⟨rfl, rfl⟩ := hmem
  · refine ⟨threeWords_climbed ?_, by rw [verifies_eq_true, threeWords, root_three]; rfl, ?_⟩
    · rw [threeWords, hhashed]
      simp [climbed, stepPair]
    · exact fun h => hinner (congrArg Octets.bytes (Option.some.inj h))
  · refine ⟨threeWords_climbed ?_, by rw [verifies_eq_true, threeWords, root_three]; rfl, by decide⟩
    rw [threeWords, hhashed]
    simp [climbed, stepPair, climb]
  · refine ⟨threeWords_climbed ?_, by rw [verifies_eq_true, threeWords, root_three]; rfl, by decide⟩
    rw [threeWords, hhashed]
    simp [climbed, stepPair, climb]

end Merkle

end Beacon
