import Beacon.Proofs.Merkle.Soundness

/-
  What a root says of the number of leaves. Where a level has an odd last node, the tree
  over it is the tree over the level with that node twice, and so on up: a row is hashed as
  if it were filled up by copies of its last nodes to a whole power of two (`filled`). Rows
  of one height have the same root exactly if they are filled up to the same row
  (`root_eq_iff_filled`), as long as no pairs hashed collide.

  So the root does not tell a row from the same row with some of its copies written out, nor
  leaves from the nodes of a level above other leaves. It tells lists of different lengths
  apart in all other cases (`root_eq_iff_of_shorter`), among them all those in which no leaf
  is repeated and none is a node above other leaves.
-/

namespace Beacon

namespace Merkle

section Rows

variable {α β : Type} {row : List α} {h n : Nat} {a : α}

/-- A row filled up to `2 ^ h` nodes by the copies that hashing it makes: what fits into the
first half stands twice, and else the first half is full and the second half is filled. -/
def filled : Nat → List α → List α
  | 0, row => row
  | h + 1, row =>
    if row.length ≤ 2 ^ h then filled h row ++ filled h row
    else row.take (2 ^ h) ++ filled h (row.drop (2 ^ h))

theorem filled_of_le (hhalf : row.length ≤ 2 ^ h) :
    filled (h + 1) row = filled h row ++ filled h row := if_pos hhalf

theorem filled_of_lt (hhalf : 2 ^ h < row.length) :
    filled (h + 1) row = row.take (2 ^ h) ++ filled h (row.drop (2 ^ h)) :=
  if_neg (Nat.not_le.mpr hhalf)

theorem mem_filled : a ∈ filled h row ↔ a ∈ row := by
  induction h generalizing row with
  | zero => rfl
  | succ h ih =>
    rw [filled]
    split
    · rw [List.mem_append, ih, or_self]
    · rw [List.mem_append, ih, ← List.mem_append, List.take_append_drop]

theorem length_filled (hpos : 0 < row.length) (hle : row.length ≤ 2 ^ h) :
    (filled h row).length = 2 ^ h := by
  induction h generalizing row with
  | zero =>
    rw [filled]
    omega
  | succ h ih =>
    rw [pow_succ] at hle ⊢
    rw [filled]
    split
    · rename_i hhalf
      rw [List.length_append, ih hpos hhalf]
      omega
    · rename_i hhalf
      have hdrop := List.length_drop (i := 2 ^ h) (l := row)
      rw [List.length_append, ih (by omega) (by omega), List.length_take]
      omega

theorem prefix_filled (hle : row.length ≤ 2 ^ h) : row <+: filled h row := by
  induction h generalizing row with
  | zero => exact List.prefix_rfl
  | succ h ih =>
    rw [pow_succ] at hle
    rw [filled]
    split
    · rename_i hhalf
      exact (ih hhalf).trans (List.prefix_append _ _)
    · have hdrop := List.length_drop (i := 2 ^ h) (l := row)
      have hrest : row.drop (2 ^ h) <+: filled h (row.drop (2 ^ h)) := ih (by omega)
      have hrow := (List.prefix_append_right_inj (row.take (2 ^ h))).mpr hrest
      rwa [List.take_append_drop] at hrow

theorem map_filled (f : α → β) (h : Nat) (row : List α) :
    (filled h row).map f = filled h (row.map f) := by
  induction h generalizing row with
  | zero => rfl
  | succ h ih =>
    rw [filled, filled, List.length_map]
    split
    · rw [List.map_append, ih]
    · rw [List.map_append, ih, List.map_take, List.map_drop]

end Rows

variable {level level' leaves leaves' : List Word} {h k : Nat} {t t' : MerkleTree}

/-! ## Filling a level -/

theorem length_pairs (level : List Word) : (pairs level).length = (level.length + 1) / 2 := by
  rw [← length_levelUp, levelUp_eq_map, List.length_map]

theorem pairs_append (heven : level.length = 2 * k) (rest : List Word) :
    pairs (level ++ rest) = pairs level ++ pairs rest := by
  induction k generalizing level with
  | zero =>
    rw [List.eq_nil_of_length_eq_zero heven]
    rfl
  | succ k ih =>
    match level, heven with
    | a :: b :: level, heven =>
      rw [List.cons_append, List.cons_append, pairs, pairs,
        ih (by rw [List.length_cons, List.length_cons] at heven; omega), List.cons_append]

theorem pairs_filled (hpos : 0 < level.length) (hle : level.length ≤ 2 ^ (h + 1)) :
    pairs (filled (h + 1) level) = filled h (pairs level) := by
  induction h generalizing level with
  | zero =>
    match level, hpos, hle with
    | [_], _, _ => rfl
    | [_, _], _, _ => rfl
  | succ h ih =>
    have hlength := length_pairs level
    have hpow := pow_succ 2 h
    rw [pow_succ] at hle
    rcases Nat.lt_or_ge (2 ^ (h + 1)) level.length with hhalf | hhalf
    · have htake : (level.take (2 ^ (h + 1))).length = 2 * 2 ^ h := by
        rw [List.length_take]
        omega
      have hfront : (pairs (level.take (2 ^ (h + 1)))).length = 2 ^ h := by
        rw [length_pairs, htake]
        omega
      -- Both halves are paired by themselves, and only the second one is filled.
      have hsplit := pairs_append htake (level.drop (2 ^ (h + 1)))
      rw [List.take_append_drop] at hsplit
      rw [filled_of_lt hhalf, pairs_append htake,
        ih (by rw [List.length_drop]; omega) (by rw [List.length_drop]; omega),
        filled_of_lt (by omega), hsplit, ← hfront, List.take_left, List.drop_left]
    · have hfull : (filled (h + 1) level).length = 2 * 2 ^ h := by
        rw [length_filled hpos hhalf, pow_succ']
      rw [filled_of_le hhalf, pairs_append hfull, ih hpos hhalf, filled_of_le (by omega)]

theorem levelUp_filled (hpos : 0 < level.length) (hle : level.length ≤ 2 ^ (h + 1)) :
    levelUp (filled (h + 1) level) = filled h (levelUp level) := by
  rw [levelUp_eq_map, pairs_filled hpos hle, map_filled, ← levelUp_eq_map]

/-! ## Filling the leaves -/

theorem length_levels_up (hlt : 1 < level.length) (hlevels : (levels level).length = h + 1) :
    ∃ k, h = k + 1 ∧ (levels (levelUp level)).length = k + 1 := by
  rw [levels_of_lt hlt, List.length_cons, Nat.succ.injEq] at hlevels
  have hpos := List.length_pos_iff.mpr (levels_ne_nil (levelUp level))
  exact ⟨h - 1, by omega, by omega⟩

theorem length_le_of_levels (hlevels : (levels level).length = h + 1) : level.length ≤ 2 ^ h := by
  induction level using levels.induct generalizing h with
  | case1 level hlt ih =>
    obtain ⟨k, rfl, habove⟩ := length_levels_up hlt hlevels
    have hup := ih habove
    rw [length_levelUp] at hup
    rw [pow_succ]
    omega
  | case2 level hle => exact (Nat.le_of_not_lt hle).trans Nat.one_le_two_pow

theorem length_levels_mono (hle : level.length ≤ level'.length) :
    (levels level).length ≤ (levels level').length := by
  induction level using levels.induct generalizing level' with
  | case1 level hlt ih =>
    rw [levels_of_lt hlt, levels_of_lt (Nat.lt_of_lt_of_le hlt hle), List.length_cons,
      List.length_cons, Nat.succ_le_succ_iff]
    refine ih ?_
    rw [length_levelUp, length_levelUp]
    omega
  | case2 level hsingle =>
    rw [levels_of_le (Nat.le_of_not_lt hsingle)]
    exact List.length_pos_iff.mpr (levels_ne_nil level')

/-- Filling up a row changes neither the root nor which pairs are hashed on the way to it. -/
theorem filled_spec (hne : level ≠ []) (hlevels : (levels level).length = h + 1) :
    MerkleTree.root ⟨levels (filled h level)⟩ = MerkleTree.root ⟨levels level⟩ ∧
      MerkleTree.hashed ⟨levels (filled h level)⟩ ⊆ MerkleTree.hashed ⟨levels level⟩ := by
  induction level using levels.induct generalizing h with
  | case1 level hlt ih =>
    have hpos := List.length_pos_iff.mpr hne
    have hle := length_le_of_levels hlevels
    obtain ⟨k, rfl, habove⟩ := length_levels_up hlt hlevels
    have hfilled : 1 < (filled (k + 1) level).length := by
      rw [length_filled hpos hle]
      exact Nat.one_lt_two_pow (Nat.succ_ne_zero k)
    obtain ⟨hroot, hhashed⟩ := ih (levelUp_ne_nil hne) habove
    rw [root_of_lt hfilled, root_of_lt hlt, hashed_of_lt hfilled, hashed_of_lt hlt,
      levelUp_filled hpos hle, pairs_filled hpos hle]
    refine ⟨hroot, List.append_subset.mpr ⟨fun p hp => ?_, ?_⟩⟩
    · exact List.mem_append_left _ (mem_filled.mp hp)
    · exact List.subset_append_of_subset_right _ hhashed
  | case2 level hle =>
    rw [levels_of_le (Nat.le_of_not_lt hle), List.length_singleton, Nat.succ.injEq] at hlevels
    rw [← hlevels]
    exact ⟨rfl, List.Subset.refl _⟩

/-- Rows of one height have the same root exactly if they are filled up to the same row. -/
theorem root_eq_iff_filled (hne : level ≠ []) (hne' : level' ≠ [])
    (hlevels : (levels level).length = h + 1) (hlevels' : (levels level').length = h + 1)
    (hcol : NoCollision
      (MerkleTree.hashed ⟨levels level⟩ ++ MerkleTree.hashed ⟨levels level'⟩)) :
    MerkleTree.root ⟨levels level⟩ = MerkleTree.root ⟨levels level'⟩ ↔
      filled h level = filled h level' := by
  obtain ⟨hroot, hhashed⟩ := filled_spec hne hlevels
  obtain ⟨hroot', hhashed'⟩ := filled_spec hne' hlevels'
  rw [← hroot, ← hroot']
  constructor
  · refine root_injective ?_ (hcol.of_subset (List.append_subset.mpr
      ⟨List.subset_append_of_subset_left _ hhashed, List.subset_append_of_subset_right _ hhashed'⟩))
    rw [length_filled (List.length_pos_iff.mpr hne) (length_le_of_levels hlevels),
      length_filled (List.length_pos_iff.mpr hne') (length_le_of_levels hlevels')]
  · intro heq
    rw [heq]

/-! ## Lists of different lengths -/

/-- Of two rows that are filled up to the same row, the longer one is the shorter one and
copies of its nodes. -/
theorem copies_of_filled {α : Type} {row row' : List α} (hle : row.length ≤ row'.length)
    (hle' : row'.length ≤ 2 ^ h) (heq : filled h row = filled h row') :
    ∃ copies, copies ⊆ row ∧ row' = row ++ copies := by
  have hprefix : row <+: filled h row' := heq ▸ prefix_filled (hle.trans hle')
  obtain ⟨copies, rfl⟩ := List.prefix_of_prefix_length_le hprefix (prefix_filled hle') hle
  refine ⟨copies, fun a ha => ?_, rfl⟩
  have hfilled : a ∈ filled h (row ++ copies) := mem_filled.mpr (List.mem_append_right _ ha)
  exact mem_filled.mp (heq ▸ hfilled)

theorem exists_pair_of_level {below : List Word} {node : Word}
    (hbelow : (levels level)[k + 1]? = some below) (hnode : node ∈ below) :
    ∃ p ∈ MerkleTree.hashed ⟨levels level⟩, node = sha3Pair p.1 p.2 := by
  obtain ⟨last, hlast⟩ : ∃ last, (levels level)[k]? = some last := by
    have hk := (List.getElem?_eq_some_iff.mp hbelow).1
    exact ⟨_, List.getElem?_eq_getElem (Nat.lt_of_succ_lt hk)⟩
  rw [getElem?_levels_succ hlast] at hbelow
  split at hbelow
  · rename_i hlt
    obtain rfl := Option.some.inj hbelow
    rw [levelUp_eq_map] at hnode
    obtain ⟨p, hp, rfl⟩ := List.mem_map.mp hnode
    refine ⟨p, hashed_of_level hlast ?_, rfl⟩
    rw [hashed_of_lt hlt]
    exact List.mem_append_left _ hp
  · cases hbelow

theorem merkleRoot_of_ofWords (ht : MerkleTree.ofWords leaves = .ok t) :
    merkleRoot leaves = .ok t.root := by
  rw [merkleRoot, ht]
  rfl

/-- In the tree over at least as many leaves some row stands at the height of the lower tree,
and decides whether the roots are the same. -/
theorem exists_row_at_height (hne : leaves ≠ []) (hle : leaves.length ≤ leaves'.length)
    (hcol : NoCollision
      (MerkleTree.hashed ⟨levels leaves⟩ ++ MerkleTree.hashed ⟨levels leaves'⟩)) :
    ∃ h d row, (levels leaves).length = h + 1 ∧ (levels leaves').length = d + (h + 1) ∧
      (levels leaves')[d]? = some row ∧
      (MerkleTree.root ⟨levels leaves⟩ = MerkleTree.root ⟨levels leaves'⟩ ↔
        filled h leaves = filled h row) := by
  have hpos : 0 < leaves'.length := Nat.lt_of_lt_of_le (List.length_pos_iff.mpr hne) hle
  have hlevels : (levels leaves).length = (levels leaves).length - 1 + 1 :=
    (Nat.sub_add_cancel (List.length_pos_iff.mpr (levels_ne_nil leaves))).symm
  have hmono := length_levels_mono hle
  generalize (levels leaves).length - 1 = h at hlevels
  obtain ⟨d, hd⟩ := Nat.exists_eq_add_of_le' hmono
  rw [hlevels] at hd
  obtain ⟨row, hrow⟩ : ∃ row, (levels leaves')[d]? = some row :=
    ⟨_, List.getElem?_eq_getElem (by omega)⟩
  have hheight : (levels row).length = h + 1 := by
    rw [← drop_levels hrow, List.length_drop]
    omega
  have hrow_ne : row ≠ [] := List.ne_nil_of_length_pos (Nat.zero_lt_of_lt (div_lt_length hpos hrow))
  refine ⟨h, d, row, hlevels, hd, hrow, ?_⟩
  rw [← root_of_level hrow]
  exact root_eq_iff_filled hne hrow_ne hlevels hheight (hcol.of_subset (List.append_subset.mpr
    ⟨List.subset_append_left _ _,
      List.subset_append_of_subset_right _ (hashed_of_level hrow)⟩))

/-- A list of leaves and a longer one have the same root exactly if the row of the second
tree at the height of the first is filled up to the same row as the leaves of the first. So
either the trees are of one height and the longer list is the shorter one with copies of its
leaves behind, or the leaves of the shorter list are nodes above the leaves of the longer one.
The roots differ if no leaf of the longer list is repeated, and no leaf of the shorter one is
such a node. -/
theorem root_eq_iff_of_shorter (ht : MerkleTree.ofWords leaves = .ok t)
    (ht' : MerkleTree.ofWords leaves' = .ok t') (hshorter : leaves.length < leaves'.length)
    (hcol : NoCollision (t.hashed ++ t'.hashed)) :
    (∃ h d row, t.levels.length = h + 1 ∧ t'.levels.length = d + (h + 1) ∧
      t'.levels[d]? = some row ∧
      (merkleRoot leaves = merkleRoot leaves' ↔ filled h leaves = filled h row)) ∧
    (merkleRoot leaves = merkleRoot leaves' →
      t.levels.length = t'.levels.length ∧ (∃ copies, copies ⊆ leaves ∧ leaves' = leaves ++ copies) ∨
      t.levels.length < t'.levels.length ∧
        ∀ leaf ∈ leaves, ∃ p ∈ t'.hashed, leaf = sha3Pair p.1 p.2) ∧
    (leaves'.Nodup → (∀ leaf ∈ leaves, ∀ p ∈ t'.hashed, leaf ≠ sha3Pair p.1 p.2) →
      merkleRoot leaves ≠ merkleRoot leaves') := by
  rw [merkleRoot_of_ofWords ht, merkleRoot_of_ofWords ht', ne_eq, Except.ok.injEq]
  obtain ⟨hne, rfl⟩ := ofWords_eq_ok.mp ht
  obtain ⟨hne', rfl⟩ := ofWords_eq_ok.mp ht'
  obtain ⟨h, d, row, hheight, hheight', hrow, hiff⟩ :=
    exists_row_at_height hne hshorter.le hcol
  have hcases : MerkleTree.root ⟨levels leaves⟩ = MerkleTree.root ⟨levels leaves'⟩ →
      (levels leaves).length = (levels leaves').length ∧
          (∃ copies, copies ⊆ leaves ∧ leaves' = leaves ++ copies) ∨
        (levels leaves).length < (levels leaves').length ∧
          ∀ leaf ∈ leaves, ∃ p ∈ MerkleTree.hashed ⟨levels leaves'⟩, leaf = sha3Pair p.1 p.2 := by
    intro hroot
    have hfilled := hiff.mp hroot
    cases d with
    | zero =>
      -- The trees are of one height, and the row is that of the leaves.
      obtain rfl := Option.some.inj ((getElem?_levels_zero leaves').symm.trans hrow)
      rw [Nat.zero_add] at hheight'
      exact .inl ⟨hheight.trans hheight'.symm,
        copies_of_filled hshorter.le (length_le_of_levels hheight') hfilled⟩
    | succ d =>
      refine .inr ⟨by omega, fun leaf hleaf => exists_pair_of_level hrow ?_⟩
      exact mem_filled.mp (hfilled ▸ mem_filled.mpr hleaf)
  refine ⟨⟨h, d, row, hheight, hheight', hrow, hiff⟩, hcases, fun hnodup hinner hroot => ?_⟩
  obtain ⟨-, copies, hcopies, rfl⟩ | ⟨-, habove⟩ := hcases hroot
  · cases copies with
    | nil => simp at hshorter
    | cons a rest =>
      have hmem : a ∈ leaves := hcopies List.mem_cons_self
      exact (List.nodup_append.mp hnodup).2.2 a hmem a List.mem_cons_self rfl
  · obtain ⟨leaf, hleaf⟩ := List.exists_mem_of_ne_nil leaves hne
    obtain ⟨p, hp, heq⟩ := habove leaf hleaf
    exact hinner leaf hleaf p hp heq

/-! ## Three leaves -/

theorem ofWords_cons (a : Word) (rest : List Word) :
    MerkleTree.ofWords (a :: rest) = .ok ⟨levels (a :: rest)⟩ :=
  ofWords_eq_ok.mpr ⟨List.cons_ne_nil _ _, rfl⟩

theorem hashed_pair (a b : Word) : MerkleTree.hashed ⟨levels [a, b]⟩ = [(a, b)] := by
  simp [MerkleTree.hashed, levels_of_lt, levels_singleton, levelUp, pairs]

theorem hashed_three_four (a b c : Word) :
    MerkleTree.root ⟨levels [a, b, c]⟩ =
        MerkleTree.root ⟨levels [sha3Pair a b, sha3Pair c c]⟩ ∧
      MerkleTree.root ⟨levels [a, b, c, c]⟩ =
        MerkleTree.root ⟨levels [sha3Pair a b, sha3Pair c c]⟩ ∧
      MerkleTree.hashed ⟨levels [a, b, c, c]⟩ = MerkleTree.hashed ⟨levels [a, b, c]⟩ := by
  have hlt : 1 < [a, b, c].length := by simp
  have hlt' : 1 < [a, b, c, c].length := by simp
  refine ⟨root_of_lt hlt, root_of_lt hlt', ?_⟩
  rw [hashed_of_lt hlt, hashed_of_lt hlt']
  rfl

theorem noCollision_threeWords {ps qs : List (Word × Word)}
    (hps : ps ⊆ MerkleTree.hashed ⟨levels threeWords⟩)
    (hqs : qs ⊆ MerkleTree.hashed ⟨levels threeWords⟩) : NoCollision (ps ++ qs) :=
  (threeWords_climbed hps).of_subset (List.append_subset.mpr
    ⟨List.subset_append_right _ _, List.subset_append_of_subset_left _ hqs⟩)

theorem root_eq_iff_of_shorter_two :
    ∃ t t', MerkleTree.ofWords [.ofUInt64 1, .ofUInt64 2] = .ok t ∧
      MerkleTree.ofWords threeWords = .ok t' ∧ NoCollision (t.hashed ++ t'.hashed) ∧
      threeWords.Nodup ∧
      (∀ leaf ∈ [Word.ofUInt64 1, .ofUInt64 2], ∀ p ∈ t'.hashed, leaf ≠ sha3Pair p.1 p.2) ∧
      merkleRoot [.ofUInt64 1, .ofUInt64 2] ≠ merkleRoot threeWords := by
  have hcol : NoCollision (MerkleTree.hashed ⟨levels [.ofUInt64 1, .ofUInt64 2]⟩ ++
      MerkleTree.hashed ⟨levels threeWords⟩) := by
    refine noCollision_threeWords ?_ (List.Subset.refl _)
    rw [hashed_pair, threeWords, hashed_three]
    exact List.cons_subset_cons _ (List.nil_subset _)
  have hdigests : ∀ bytes ∈ (MerkleTree.hashed ⟨levels threeWords⟩).map
      (fun p => (sha3Pair p.1 p.2).bytes), bytes ∉ threeWords.map Octets.bytes := by
    simp only [threeWords, hashed_three, List.map_cons, List.map_nil, bytes_sha3Pair]
    decide +kernel
  have hinner : ∀ leaf ∈ [Word.ofUInt64 1, .ofUInt64 2],
      ∀ p ∈ MerkleTree.hashed ⟨levels threeWords⟩, leaf ≠ sha3Pair p.1 p.2 := by
    intro leaf hleaf p hp heq
    have hthree : leaf ∈ threeWords := by
      rw [threeWords]
      exact List.mem_append_left [Word.ofUInt64 3] hleaf
    refine hdigests leaf.bytes (List.mem_map.mpr ⟨p, hp, ?_⟩) (List.mem_map_of_mem hthree)
    rw [heq]
  have hnodup : threeWords.Nodup := by decide
  exact ⟨_, _, ofWords_cons _ _, ofWords_three, hcol, hnodup, hinner,
    (root_eq_iff_of_shorter (ofWords_cons _ _) ofWords_three (by decide) hcol).2.2 hnodup hinner⟩

/-- Lists of different lengths with the same root, without any collision: three leaves and the
same with the last one again, and the two nodes above three leaves and these leaves. -/
theorem copies_keep_root :
    let a : Word := .ofUInt64 1
    let b : Word := .ofUInt64 2
    let c : Word := .ofUInt64 3
    ∀ leaves leaves', (leaves, leaves') ∈
        ([([a, b, c], [a, b, c, c]), ([sha3Pair a b, sha3Pair c c], [a, b, c])] :
          List (List Word × List Word)) →
      ∃ t t', MerkleTree.ofWords leaves = .ok t ∧ MerkleTree.ofWords leaves' = .ok t' ∧
        leaves.length ≠ leaves'.length ∧ NoCollision (t.hashed ++ t'.hashed) ∧
        merkleRoot leaves = merkleRoot leaves' := by
  intro a b c leaves leaves' hmem
  obtain ⟨hthree, hfour, hhashed⟩ := hashed_three_four a b c
  simp only [List.mem_cons, List.not_mem_nil, or_false, Prod.mk.injEq] at hmem
  obtain ⟨rfl, rfl⟩ | ⟨rfl, rfl⟩ := hmem
  · refine ⟨_, _, ofWords_cons _ _, ofWords_cons _ _, by simp, ?_, ?_⟩
    · rw [MerkleTree.hashed, MerkleTree.hashed] at hhashed ⊢
      rw [hhashed]
      exact noCollision_threeWords (List.Subset.refl _) (List.Subset.refl _)
    · rw [merkleRoot_of_ofWords (ofWords_cons _ _), merkleRoot_of_ofWords (ofWords_cons _ _),
        hthree, hfour]
  · refine ⟨_, _, ofWords_cons _ _, ofWords_cons _ _, by simp, ?_, ?_⟩
    · refine noCollision_threeWords ?_ (List.Subset.refl _)
      rw [hashed_pair, threeWords, hashed_three]
      simp [a, b, c]
    · rw [merkleRoot_of_ofWords (ofWords_cons _ _), merkleRoot_of_ofWords (ofWords_cons _ _),
        hthree]

end Merkle

end Beacon
