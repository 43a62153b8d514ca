import Beacon.Proofs.Digest.Unrolled
import Beacon.Proofs.Merkle.Levels
import Mathlib.Data.List.Nodup

/-
  What a root says of its leaves. As long as no two of the pairs hashed while two trees
  are built collide (`NoCollision`), a level says all of the level below that has as many
  nodes (`levelUp_injective`), down from the root to the leaves (`root_injective`). So
  among leaves of one number the root tells all of them and their order, up to the zeros
  that short leaves are filled up with (`root_binds_leaves`).
-/

namespace Beacon

/-- The digest of two nodes has no collision among these pairs. -/
def Merkle.NoCollision (hashed : List (Word × Word)) : Prop :=
  ∀ p ∈ hashed, ∀ q ∈ hashed, sha3Pair p.1 p.2 = sha3Pair q.1 q.2 → p = q

/-- The pairs hashed while a tree is built: those of every level but the last. -/
def MerkleTree.hashed (t : MerkleTree) : List (Word × Word) :=
  t.levels.dropLast.flatMap Merkle.pairs

namespace Merkle

variable {level level' : List Word} {ps qs : List (Word × Word)}

/-! ## Pairs -/

theorem NoCollision.of_subset (h : NoCollision ps) (hsub : qs ⊆ ps) : NoCollision qs :=
  fun p hp q hq => h p (hsub hp) q (hsub hq)

theorem NoCollision.parts {ps' qs' : List (Word × Word)}
    (h : NoCollision ((ps ++ qs) ++ (ps' ++ qs'))) :
    NoCollision (ps ++ ps') ∧ NoCollision (qs ++ qs') := by
  constructor
  all_goals
    refine h.of_subset fun p hp => ?_
    simp only [List.mem_append] at hp ⊢
    tauto

theorem noCollision_of_nodup (h : (ps.map fun p => (sha3Pair p.1 p.2).bytes).Nodup) :
    NoCollision ps := fun _ hp _ hq heq =>
  List.inj_on_of_nodup_map h hp hq (congrArg Octets.bytes heq)

theorem NoCollision.eq_of_map (h : NoCollision (ps ++ qs))
    (hmap : ps.map (fun p => sha3Pair p.1 p.2) = qs.map fun p => sha3Pair p.1 p.2) : ps = qs := by
  have hlength : ps.length = qs.length := by simpa using congrArg List.length hmap
  refine List.ext_getElem hlength fun i hi hi' => ?_
  have hdigest := List.getElem_of_eq hmap (i := i) (by simpa using hi)
  rw [List.getElem_map, List.getElem_map] at hdigest
  exact h _ (List.mem_append_left _ (List.getElem_mem hi))
    _ (List.mem_append_right _ (List.getElem_mem hi')) hdigest

/-- A level is what its pairs name, less the copy of an odd last node. -/
theorem take_pairs : (level : List Word) →
    ((pairs level).flatMap fun p => [p.1, p.2]).take level.length = level
  | [] => rfl
  | [_] => rfl
  | a :: b :: rest => by
    rw [pairs, List.flatMap_cons, List.length_cons, List.length_cons]
    exact congrArg (a :: b :: ·) (take_pairs rest)

/-- A level says all of the level below, if it is known how many nodes that has. -/
theorem levelUp_injective (hcol : NoCollision (pairs level ++ pairs level'))
    (hlength : level.length = level'.length) (h : levelUp level = levelUp level') :
    level = level' := by
  rw [levelUp_eq_map, levelUp_eq_map] at h
  rw [← take_pairs level, ← take_pairs level', hcol.eq_of_map h, hlength]

/-! ## Roots -/

theorem hashed_of_lt (h : 1 < level.length) :
    MerkleTree.hashed ⟨levels level⟩ =
      pairs level ++ MerkleTree.hashed ⟨levels (levelUp level)⟩ := by
  rw [MerkleTree.hashed, levels_of_lt h, List.dropLast_cons_of_ne_nil (levels_ne_nil _),
    List.flatMap_cons]
  rfl

/-- The root says all of the leaves, if it is known how many there are. -/
theorem root_injective (hlength : level.length = level'.length)
    (hcol : NoCollision
      (MerkleTree.hashed ⟨levels level⟩ ++ MerkleTree.hashed ⟨levels level'⟩))
    (hroot : MerkleTree.root ⟨levels level⟩ = MerkleTree.root ⟨levels level'⟩) :
    level = level' := by
  induction level using levels.induct generalizing level' with
  | case1 level hlt ih =>
    have hlt' : 1 < level'.length := hlength ▸ hlt
    rw [hashed_of_lt hlt, hashed_of_lt hlt'] at hcol
    rw [root_of_lt hlt, root_of_lt hlt'] at hroot
    obtain ⟨hhere, habove⟩ := hcol.parts
    -- The levels above are equal first, and then their pairs are.
    have hup : levelUp level = levelUp level' := by
      refine ih ?_ habove hroot
      rw [length_levelUp, length_levelUp, hlength]
    exact levelUp_injective hhere hlength hup
  | case2 level hle =>
    rcases Nat.eq_zero_or_pos level.length with hzero | hpos
    · rw [List.eq_nil_of_length_eq_zero hzero,
        List.eq_nil_of_length_eq_zero (hlength.symm.trans hzero)]
    · obtain ⟨a, rfl⟩ := List.length_eq_one_iff.mp (show level.length = 1 by omega)
      obtain ⟨b, rfl⟩ := List.length_eq_one_iff.mp hlength.symm
      rw [root_singleton, root_singleton] at hroot
      rw [hroot]

/-! ## Leaves of at most a word -/

variable {a b : List Bytes} {ws : List Word} {t t' : MerkleTree}

theorem words_go_eq_ok {index : Nat} :
    words.go index a = .ok ws ↔ a.map Word.ofShort? = ws.map some := by
  induction a generalizing index ws with
  | nil =>
    rw [words.go, List.map_nil, Except.ok.injEq]
    cases ws <;> simp
  | cons leaf rest ih =>
    rw [words.go, List.map_cons]
    cases ws with
    | nil =>
      refine iff_of_false (fun h => ?_) (List.cons_ne_nil _ _)
      split at h
      · cases hrest : words.go (index + 1) rest <;> rw [hrest] at h <;> cases h
      · cases h
    | cons w ws =>
      rw [List.map_cons, List.cons.injEq, ← @ih ws (index + 1)]
      cases hleaf : Word.ofShort? leaf with
      | none => simp
      | some x => cases hrest : words.go (index + 1) rest <;> simp [Except.map]

theorem words_eq_ok : words a = .ok ws ↔ a.map Word.ofShort? = ws.map some := words_go_eq_ok

theorem ofLeaves_eq_ok : MerkleTree.ofLeaves a = .ok t ↔
    ∃ ws, a.map Word.ofShort? = ws.map some ∧ ws ≠ [] ∧ t = ⟨levels ws⟩ := by
  rw [MerkleTree.ofLeaves]
  cases h : words a with
  | error e =>
    refine iff_of_false nofun ?_
    rintro ⟨ws, hws, -⟩
    cases h.symm.trans (words_eq_ok.mpr hws)
  | ok ws =>
    have hws := words_eq_ok.mp h
    rw [Except.bind, ofWords_eq_ok]
    constructor
    · exact fun ht => ⟨ws, hws, ht⟩
    · rintro ⟨ws', hws', ht⟩
      rw [hws] at hws'
      rwa [List.map_injective_iff.mpr (fun _ _ => Option.some.inj) hws']

/-- Two lists of equally many leaves have the same root exactly if they are the same
place by place, once short leaves are extended to words. So a change of their order that
changes this list changes the root. -/
theorem root_binds_leaves (ha : MerkleTree.ofLeaves a = .ok t)
    (hb : MerkleTree.ofLeaves b = .ok t') (hcol : NoCollision (t.hashed ++ t'.hashed)) :
    (a.length = b.length → (t.root = t'.root ↔ a.map Word.ofShort? = b.map Word.ofShort?)) ∧
      (a.Perm b → a.map Word.ofShort? ≠ b.map Word.ofShort? → t.root ≠ t'.root) := by
  obtain ⟨ws, hws, -, rfl⟩ := ofLeaves_eq_ok.mp ha
  obtain ⟨ws', hws', -, rfl⟩ := ofLeaves_eq_ok.mp hb
  have hbinds : a.length = b.length →
      (MerkleTree.root ⟨levels ws⟩ = MerkleTree.root ⟨levels ws'⟩ ↔
        a.map Word.ofShort? = b.map Word.ofShort?) := by
    intro hlength
    have hwords : ws.length = ws'.length := by
      have h := congrArg List.length hws
      have h' := congrArg List.length hws'
      simp only [List.length_map] at h h'
      rw [← h, ← h', hlength]
    rw [hws, hws']
    constructor
    · intro hroot
      rw [root_injective hwords hcol hroot]
    · intro h
      rw [List.map_injective_iff.mpr (fun _ _ => Option.some.inj) h]
  exact ⟨hbinds, fun hperm hne hroot => hne ((hbinds hperm.length_eq).mp hroot)⟩

/-! ## Three leaves -/

def threeWords : List Word := [.ofUInt64 1, .ofUInt64 2, .ofUInt64 3]

theorem levels_three (a b c : Word) :
    levels [a, b, c] = [[a, b, c], [sha3Pair a b, sha3Pair c c],
      [sha3Pair (sha3Pair a b) (sha3Pair c c)]] := by
  simp [levels_of_lt, levels_singleton, levelUp]

theorem hashed_three (a b c : Word) :
    MerkleTree.hashed ⟨levels [a, b, c]⟩ = [(a, b), (c, c), (sha3Pair a b, sha3Pair c c)] := by
  simp [MerkleTree.hashed, levels_three, pairs]

theorem threeWords_noCollision : NoCollision (MerkleTree.hashed ⟨levels threeWords⟩ ++
    MerkleTree.hashed ⟨levels threeWords.reverse⟩) := by
  apply noCollision_of_nodup
  simp only [threeWords, List.reverse_cons, List.reverse_nil, List.nil_append, List.cons_append,
    hashed_three, List.map_cons, List.map_nil, bytes_sha3Pair]
  decide +kernel

/-- Three leaves of one byte each, the other way round, have another root. -/
theorem root_binds_leaves_reversed :
    ∃ t t', MerkleTree.ofLeaves [[1], [2], [3]] = .ok t ∧
      MerkleTree.ofLeaves [[3], [2], [1]] = .ok t' ∧ NoCollision (t.hashed ++ t'.hashed) ∧
      t.root ≠ t'.root := by
  have h : MerkleTree.ofLeaves [[1], [2], [3]] = .ok ⟨levels threeWords⟩ :=
    ofLeaves_eq_ok.mpr ⟨threeWords, by decide, by decide, rfl⟩
  have h' : MerkleTree.ofLeaves [[3], [2], [1]] = .ok ⟨levels threeWords.reverse⟩ :=
    ofLeaves_eq_ok.mpr ⟨threeWords.reverse, by decide, by decide, rfl⟩
  exact ⟨_, _, h, h', threeWords_noCollision,
    (root_binds_leaves h h' threeWords_noCollision).2 (by decide) (by decide)⟩

end Merkle

end Beacon
