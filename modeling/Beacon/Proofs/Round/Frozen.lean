import Beacon.Proofs.Round.Step

/-
  What closing the commits fixes. The puzzles of a round are all that is public of its
  commitments (`Round.puzzles`): operators, second stages and seals in commit order.
  Once the commits are closed no step opens them again or touches a puzzle
  (`Step.frozen`), so the rest of a run leaves the puzzles as they are (`run_puzzles`).
-/

namespace Beacon

theorem Participant.Move.puzzle_eq {id : UInt64} {phase : Phase} {p q : Participant}
    (h : Move id phase p q) (round : UInt64) : q.puzzle round = p.puzzle round := by
  obtain ⟨hoperator, -, hcvs, hsealed⟩ := h.commitment_eq
  rw [puzzle, puzzle, hoperator, hcvs, hsealed]

namespace Round

variable {r r' : Round}

/-- The puzzles of the commitments, in commit order. -/
def puzzles (r : Round) : List Puzzle := r.records.map (·.puzzle r.id)

theorem map_operator_puzzles (r : Round) : r.puzzles.map (·.operator) = r.committed := by
  rw [puzzles, committed, List.map_map]
  rfl

theorem mem_puzzles (hd : r.committed.Nodup) {p : Puzzle} :
    p ∈ r.puzzles ↔ ∃ q, r.find? p.operator = some q ∧ q.puzzle r.id = p := by
  rw [puzzles, List.mem_map]
  constructor
  · rintro ⟨q, hq, rfl⟩
    exact ⟨q, (find?_eq_some hd).mpr ⟨hq, rfl⟩, rfl⟩
  · rintro ⟨q, hf, hpuzzle⟩
    exact ⟨q, (mem_of_find? hf).1, hpuzzle⟩

theorem Step.id_eq (h : Step r r') : r'.id = r.id := by
  cases h <;> rfl

/-- The commits stay closed, and what was committed stays what it was. -/
theorem Step.frozen (h : Step r r') (hphase : r.phase ≠ .collectingCommits) :
    r'.phase ≠ .collectingCommits ∧ r'.puzzles = r.puzzles := by
  cases h with
  | stay => exact ⟨hphase, rfl⟩
  | commit hcommits => exact absurd hcommits hphase
  | close hcommits => exact absurd hcommits hphase
  | abandon hcommits => exact absurd hcommits hphase
  | install => exact ⟨nofun, rfl⟩
  | begin => exact ⟨nofun, rfl⟩
  | move hmoved => exact ⟨hphase, hmoved.map_eq fun hm => hm.puzzle_eq r.id⟩
  | complete => exact ⟨nofun, rfl⟩

/-! ## Runs in two parts -/

theorem run_append (r : Round) (ops ops' : List Operation) :
    r.run (ops ++ ops') = (r.run ops).run ops' :=
  List.foldl_append

theorem Reachable.run (h : r.Reachable) (ops : List Operation) : (r.run ops).Reachable := by
  obtain ⟨id, eligible, before, rfl⟩ := h
  exact ⟨id, eligible, before ++ ops, run_append _ before ops⟩

theorem Reachable.perform (h : r.Reachable) (op : Operation) : (r.perform op).1.Reachable :=
  h.run [op]

theorem run_id (hr : r.Reachable) (ops : List Operation) : (r.run ops).id = r.id := by
  induction ops generalizing r with
  | nil => rfl
  | cons op ops ih => exact (ih (hr.perform op)).trans (step_perform hr.nodup op).id_eq

theorem run_puzzles (hr : r.Reachable) (hphase : r.phase ≠ .collectingCommits)
    (ops : List Operation) : (r.run ops).puzzles = r.puzzles := by
  induction ops generalizing r with
  | nil => rfl
  | cons op ops ih =>
    obtain ⟨hphase', hpuzzles⟩ := (step_perform hr.nodup op).frozen hphase
    exact (ih (hr.perform op) hphase').trans hpuzzles

end Round

end Beacon
