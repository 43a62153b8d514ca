import Beacon.Proofs.Recovery.Verdict
import Beacon.Proofs.Round.Step

/-
  The invariant of rounds. What a record says of its operator fits together: a
  secret is there exactly if the operator stands revealed or recovered, and opens
  the commitment; a recovery is there exactly if it stands recovered, and carries
  that secret (`Participant.Coherent`). Once the commits are closed the root is the
  one over all second stages, and once the order is fixed it names those that
  disclosed (`Round.Coherent`).

  Every move keeps the first (`Participant.Coherent.move`) and every step both
  (`Coherent.step`), whatever the order of operations, so every reachable round has
  them (`Reachable.coherent`).
-/

namespace Beacon

/-- What one record of the round `id` says of its operator fits together. -/
structure Participant.Coherent (id : UInt64) (p : Participant) : Prop where
  cos_opens : ∀ cos, p.cos = some cos → cosOpens p.cvs cos = true
  secret_isSome : p.secret.isSome = true ↔ p.standing = .revealed ∨ p.standing = .recovered
  secret_opens : ∀ secret, p.secret = some secret → secretOpens p.cvs secret = true
  recovery_isSome : p.recovery.isSome = true ↔ p.standing = .recovered
  recovery_accepted : ∀ proof, p.recovery = some proof →
    p.secret = some proof.secret ∧ ∃ params, (p.puzzle id).check params proof = .ok proof.secret

namespace Participant.Coherent

variable {id : UInt64} {phase : Phase} {p q : Participant}

theorem unresolved (h : p.Coherent id) (hs : p.standing.isResolved = false) :
    p.secret = none ∧ p.recovery = none := by
  constructor
  · rw [← Option.not_isSome_iff_eq_none, h.secret_isSome]
    intro hst
    rcases hst with hst | hst <;> simp [hst, Standing.isResolved] at hs
  · rw [← Option.not_isSome_iff_eq_none, h.recovery_isSome]
    intro hst
    simp [hst, Standing.isResolved] at hs

theorem without (hcos : ∀ cos, p.cos = some cos → cosOpens p.cvs cos = true)
    (hnone : p.secret = none ∧ p.recovery = none)
    (hs : p.standing ≠ .revealed ∧ p.standing ≠ .recovered) : p.Coherent id where
  cos_opens := hcos
  secret_isSome := by simp [hnone.1, hs]
  secret_opens := by simp [hnone.1]
  recovery_isSome := by simp [hnone.2, hs]
  recovery_accepted := by simp [hnone.2]

/-- A move of an unresolved operator to where neither secret nor recovery is needed. -/
theorem stand (h : p.Coherent id) (hs : p.standing.isResolved = false) {s : Standing}
    (hs' : s ≠ .revealed ∧ s ≠ .recovered) :
    ({ p with standing := s } : Participant).Coherent id :=
  without h.cos_opens (h.unresolved hs) hs'

theorem move (h : p.Coherent id) (hm : Move id phase p q) : q.Coherent id := by
  cases hm with
  | stay => exact h
  | disclose _ _ hopens =>
    refine { h with cos_opens := ?_ }
    intro _ h
    cases h
    exact hopens
  | miss _ _ hstands => exact h.stand (by simp [hstands, Standing.isResolved]) (by simp)
  | ask _ hstands => exact h.stand (by simp [hstands, Standing.isResolved]) (by simp)
  | expire hstands => exact h.stand (by simp [hstands, Standing.isResolved]) (by simp)
  | recover hstands => exact h.stand (by simp [hstands, Standing.isResolved]) (by simp)
  | exposed _ hstands _ _ => exact h.stand hstands (by simp)
  | fault hstands => exact h.stand hstands (by simp)
  | @reveal secret _ hstands hopens =>
    have hnone : p.recovery = none :=
      (h.unresolved (Standing.awaitsSecret_iff.mp hstands).2).2
    exact
      { cos_opens := h.cos_opens
        secret_isSome := by simp
        secret_opens := by simpa using hopens
        recovery_isSome := by simp [hnone]
        recovery_accepted := by simp [hnone] }
  | @recovered params proof secret _ _ hcheck =>
    obtain ⟨_, hopens, hsecret⟩ := Puzzle.check_eq_ok.mp hcheck
    subst hsecret
    exact
      { cos_opens := h.cos_opens
        secret_isSome := by simp
        secret_opens := by simpa using hopens
        recovery_isSome := by simp
        recovery_accepted := by
          intro _ h
          cases h
          exact ⟨rfl, params, hcheck⟩ }

end Participant.Coherent

/-- Whether the commits of a round in this phase were closed with commits made. -/
def Phase.pastCommits (p : Phase) : Prop := p ≠ .collectingCommits ∧ p ≠ .abandoned

/-- Whether the order of reveals is fixed in this phase. -/
def Phase.pastOrder (p : Phase) : Prop :=
  p = .orderDetermined ∨ p = .revealing ∨ p = .completed

namespace Round

structure Coherent (r : Round) : Prop where
  records : ∀ p ∈ r.records, p.Coherent r.id
  root : r.phase.pastCommits →
    ∃ root, r.merkleRoot = some root ∧ Beacon.merkleRoot (r.records.map (·.cvs)) = .ok root
  order : r.phase.pastOrder → Covers r.order (r.disclosed.map (·.1))

theorem coherent_start (id : UInt64) (eligible : List Address) : (start id eligible).Coherent where
  records := by simp [start]
  root := by simp [start, Phase.pastCommits]
  order := by simp [start, Phase.pastOrder]

theorem Moved.disclosed_eq {r : Round} {records : List Participant} (h : r.Moved records)
    (hphase : r.phase ≠ .collectingCos) (cursor : Nat) :
    ({ r with records, cursor } : Round).disclosed = r.disclosed := by
  have hmap := h.map_eq (f := fun p => (p.operator, p.cos)) fun hm => by
    rw [hm.operator_eq, hm.cos_eq hphase]
  have hview : ∀ ps : List Participant,
      (ps.filterMap fun p => p.cos.map fun cos => (p.operator, cos)) =
        (ps.map fun p => (p.operator, p.cos)).filterMap fun p => p.2.map fun cos => (p.1, cos) :=
    fun ps => by rw [List.filterMap_map]; rfl
  rw [disclosed, disclosed, hview, hview, hmap]

theorem Coherent.step {r r' : Round} (hc : r.Coherent) (hs : Step r r') : r'.Coherent := by
  cases hs with
  | stay => exact hc
  | commit hphase _ _ =>
    refine ⟨?_, ?_, ?_⟩
    · intro p hp
      rcases List.mem_append.mp hp with hp | hp
      · exact hc.records p hp
      · rw [List.mem_singleton] at hp
        subst hp
        exact .without (by simp) ⟨rfl, rfl⟩ (by simp)
    · simp [Phase.pastCommits, hphase]
    · simp [Phase.pastOrder, hphase]
  | close hphase hroot =>
    exact ⟨hc.records, fun _ => ⟨_, rfl, hroot⟩, by simp [Phase.pastOrder]⟩
  | abandon => exact ⟨hc.records, by simp [Phase.pastCommits], by simp [Phase.pastOrder]⟩
  | install hphase hcovers =>
    exact ⟨hc.records, fun _ => hc.root (by simp [Phase.pastCommits, hphase]), fun _ => hcovers⟩
  | begin hphase =>
    exact ⟨hc.records, fun _ => hc.root (by simp [Phase.pastCommits, hphase]),
      fun _ => hc.order (by simp [Phase.pastOrder, hphase])⟩
  | @move records cursor hmoved =>
    refine ⟨?_, ?_, ?_⟩
    · intro q hq
      obtain ⟨p, hp, hm⟩ := hmoved.exists_of_mem hq
      exact (hc.records p hp).move hm
    · intro h
      rw [hmoved.map_eq fun hm => hm.cvs_eq]
      exact hc.root h
    · -- First stages are not disclosed any more once the order is fixed.
      intro h
      rw [hmoved.disclosed_eq (by intro hp; simp [Phase.pastOrder, hp] at h) cursor]
      exact hc.order h
  | complete hcomplete =>
    have hphase : r.phase = .revealing ∨ r.phase = .completed := by
      simp only [isComplete, Bool.and_eq_true, Bool.or_eq_true, decide_eq_true_eq] at hcomplete
      exact hcomplete.1
    refine ⟨hc.records, fun _ => hc.root ?_, fun _ => hc.order (.inr hphase)⟩
    rcases hphase with h | h <;> simp [Phase.pastCommits, h]

theorem Reachable.coherent {r : Round} (h : r.Reachable) : r.Coherent :=
  (h.induct coherent_start fun _ _ _ hs hc => hc.step hs).2

end Round

end Beacon
