import Beacon.Proofs.Round.Fault
import Beacon.Proofs.Round.Judgement
import Beacon.Proofs.Round.Outcome

/-
  Who is left out of a round's value. Once the commits are closed, an operator whose
  seal is consistent is not faulted in any lawful course of the round. One whose seal is
  not consistent is faulted unless it reveals its secret, which is checked against the
  commitment and not against the seal (`Course.mem_faulted_iff`).

  So two courses from the same commitments leave the same operators out, but for those
  whose seal is not consistent and who revealed in one course only (`faulted_agree`).
  Such an operator does have the choice (`faulted_differ`).
-/

namespace Beacon

open Puzzle (applySeal)

namespace Round

variable {r : Round} {params : DelayParams}

/-! ## Courses -/

/-- A lawful course of the round `id`: what is done until the commits are closed, and
what is done after that. -/
structure Course (params : DelayParams) (id : UInt64) where
  eligible : List Address
  before : List Operation
  after : List Operation
  closed : ((start id eligible).run before).phase ≠ .collectingCommits
  lawful : LawfulRun params (start id eligible) (before ++ after)

namespace Course

variable {id : UInt64} {o o' : RoundOutcome}

def frozen (c : Course params id) : Round := (start id c.eligible).run c.before

def last (c : Course params id) : Round := (start id c.eligible).run (c.before ++ c.after)

/-- No recovery handed in proves anything of the puzzle but its solution. -/
def Undeceived (c : Course params id) (p : Puzzle) : Prop :=
  Round.Undeceived params p (c.before ++ c.after)

def Reveals (c : Course params id) (a : Address) : Prop := c.last.standingOf a = some .revealed

theorem reachable_last (c : Course params id) : c.last.Reachable := reachable_run id _ _

theorem puzzles_last (c : Course params id) : c.last.puzzles = c.frozen.puzzles := by
  rw [last, run_append, run_puzzles (reachable_run id _ _) c.closed, frozen]

/-- The operators left out are those whose seal is not consistent and who did not
reveal. -/
theorem mem_faulted_iff (c : Course params id) (hN : 0 < params.modulus) (ht : params.delay ≠ 0)
    (h : c.last.finish.2 = .ok o) {p : Puzzle} (hp : p ∈ c.frozen.puzzles)
    (htrue : c.Undeceived p) :
    p.operator ∈ o.faulted ↔ ¬p.Consistent params ∧ ¬c.Reveals p.operator := by
  have hr := c.reachable_last
  rw [← c.puzzles_last, mem_puzzles hr.nodup] at hp
  obtain ⟨q, hf, hpuzzle⟩ := hp
  obtain ⟨hcomplete, rfl⟩ := finish_eq_ok.mp h
  have hresolved := (isComplete_iff.mp hcomplete).2 q (mem_of_find? hf).1
  have hid : c.last.id = id := run_id (reachable_run id _ []) _
  rw [hid] at hpuzzle
  have hjust : Just params p q.standing :=
    just_run hN ht (reachable_run id c.eligible []) c.lawful htrue nofun q (mem_of_find? hf).1
      hpuzzle
  rw [Reveals, outcome, mem_faulted hr.nodup, standingOf, hf, Option.map_some, Option.some_inj,
    Option.some_inj]
  -- Only a resolved operator is in a finished round, and a judgement on it was just.
  cases hs : q.standing with
  | revealed => simp
  | recovered => simpa using hjust.recovered hs
  | faulted => simpa using hjust.faulted hs
  | _ => simp [hs, Standing.isResolved] at hresolved

end Course

variable {id : UInt64} {o o' : RoundOutcome} {N : Nat} {T : UInt64}

theorem faulted_eq_filter (hd : r.committed.Nodup) :
    r.faulted = r.committed.filter (· ∈ r.faulted) := by
  simp only [mem_faulted hd]
  exact map_filter_standing hd .faulted

/-- Two courses of a round from the same commitments leave the same operators out, but
for those whose seal is not consistent and who revealed in one of them only. Nobody
whose seal is consistent is left out in either. -/
theorem faulted_agree (hparams : DelayParams.check N T = .ok params) (c c' : Course params id)
    (hfrozen : c.frozen.puzzles = c'.frozen.puzzles)
    (h : c.last.finish.2 = .ok o) (h' : c'.last.finish.2 = .ok o') :
    (∀ p ∈ c.frozen.puzzles, c.Undeceived p → c'.Undeceived p →
      (p.Consistent params → p.operator ∉ o.faulted ∧ p.operator ∉ o'.faulted) ∧
      ((p.operator ∈ o.faulted ↔ p.operator ∈ o'.faulted) ↔
        p.Consistent params ∨ (c.Reveals p.operator ↔ c'.Reveals p.operator))) ∧
    ((∀ p ∈ c.frozen.puzzles, c.Undeceived p ∧ c'.Undeceived p) →
      (o.faulted = o'.faulted ↔ ∀ p ∈ c.frozen.puzzles,
        p.Consistent params ∨ (c.Reveals p.operator ↔ c'.Reveals p.operator))) := by
  obtain ⟨hT, hN, rfl⟩ := DelayParams.check_eq_ok.mp hparams
  have hpos : 0 < N := by omega
  have hagree : ∀ p ∈ c.frozen.puzzles, c.Undeceived p → c'.Undeceived p →
      (p.Consistent ⟨N, T⟩ → p.operator ∉ o.faulted ∧ p.operator ∉ o'.faulted) ∧
      ((p.operator ∈ o.faulted ↔ p.operator ∈ o'.faulted) ↔
        p.Consistent ⟨N, T⟩ ∨ (c.Reveals p.operator ↔ c'.Reveals p.operator)) := by
    intro p hp htrue htrue'
    have hfaulted := c.mem_faulted_iff hpos hT h hp htrue
    have hfaulted' := c'.mem_faulted_iff hpos hT h' (hfrozen ▸ hp) htrue'
    rw [hfaulted, hfaulted']
    by_cases hconsistent : p.Consistent ⟨N, T⟩
    · simp [hconsistent]
    · simp [hconsistent, not_iff_not]
  refine ⟨hagree, fun htrue => ?_⟩
  -- Both lists are in commit order, so the same operators make the same list.
  have hcommitted : c.last.committed = c'.last.committed := by
    rw [← map_operator_puzzles, ← map_operator_puzzles, c.puzzles_last, c'.puzzles_last, hfrozen]
  constructor
  · intro heq p hp
    exact (hagree p hp (htrue p hp).1 (htrue p hp).2).2.mp (by rw [heq])
  · intro hreveals
    obtain ⟨-, rfl⟩ := finish_eq_ok.mp h
    obtain ⟨-, rfl⟩ := finish_eq_ok.mp h'
    have hlast : c.last.faulted = c'.last.faulted := by
      rw [faulted_eq_filter c.reachable_last.nodup, faulted_eq_filter c'.reachable_last.nodup,
        ← hcommitted]
      apply List.filter_congr
      intro a ha
      rw [← map_operator_puzzles, c.puzzles_last] at ha
      obtain ⟨p, hp, rfl⟩ := List.mem_map.mp ha
      rw [decide_eq_decide]
      exact (hagree p hp (htrue p hp).1 (htrue p hp).2).2.mpr (hreveals p hp)
    exact hlast

/-! ## Courses of one operator -/

def commits (a : Address) (cvs sealed : Word) : List Operation :=
  [.acceptCommit a cvs sealed, .closeCommits]

def revealing (a : Address) (cos secret : Word) : List Operation :=
  [.acceptCos a cos, .closeCos, .installOrder none [a], .beginRevealing, .nextToRequest,
   .acceptReveal a secret]

/-- The operator keeps silent, and is marked once its puzzle is solved. -/
def marking (a : Address) : List Operation :=
  [.closeCos, .installOrder none [], .beginRevealing, .beginRecovery a, .markFaulted a]

def recovering (params : DelayParams) (proof : Recovery) : List Operation :=
  [.applyRecovery params proof, .closeCos, .installOrder none [], .beginRevealing]

variable {a : Address} {cvs sealed cos secret : Word} {proof : Recovery}

/-- The reveals are under way in a round of one operator. -/
def Lone (r : Round) (a : Address) (s : Standing) : Prop :=
  r.phase = .revealing ∧ r.records.map (fun p => (p.operator, p.standing)) = [(a, s)]

theorem Lone.finish {s : Standing} (h : r.Lone a s) (hs : s.isResolved = true) :
    r.standingOf a = some s ∧ ∃ o, r.finish.2 = .ok o ∧
      o.faulted = if s = .faulted then [a] else [] := by
  obtain ⟨hphase, hrecords⟩ := h
  obtain ⟨p, hp, hpair⟩ := List.map_eq_singleton_iff.mp hrecords
  obtain ⟨rfl, rfl⟩ := Prod.mk.inj hpair
  refine ⟨by simp [standingOf, find?, hp], r.outcome, finish_eq_ok.mpr ⟨?_, rfl⟩, ?_⟩
  · rw [isComplete_iff, hp, List.forall_mem_singleton]
    exact ⟨.inl hphase, hs⟩
  · by_cases hfaulted : p.standing = .faulted <;> simp [outcome, faulted, hp, hfaulted]

theorem lone_revealing (a : Address) (sealed : Word) (hcos : cosOpens cvs cos = true)
    (hsecret : secretOpens cvs secret = true) :
    ((start 1 [a]).run (commits a cvs sealed ++ revealing a cos secret)).Lone a .revealed := by
  simp [Lone, revealing, commits, run, perform, answer, start, acceptCommit, isEligible, find?,
    closeCommits, Beacon.merkleRoot, MerkleTree.ofWords, Except.map, acceptCos, modify, closeCos,
    Missing.mark, installOrder, disclosed, Covers, beginRevealing, nextToRequest, requestFirst,
    standingOf, setStanding, acceptReveal, Standing.isResolved, hcos, hsecret]

theorem lone_marking (a : Address) (cvs sealed : Word) :
    ((start 1 [a]).run (commits a cvs sealed ++ marking a)).Lone a .faulted := by
  simp [Lone, marking, commits, run, perform, answer, start, acceptCommit, isEligible, find?,
    closeCommits, Beacon.merkleRoot, MerkleTree.ofWords, Except.map, modify, closeCos,
    Missing.mark, installOrder, disclosed, Covers, beginRevealing, setStanding, beginRecovery,
    markFaulted, Standing.isResolved]

theorem lone_recovering (hproof : proof.operator = a)
    (hcheck : Puzzle.check ⟨1, a, cvs, sealed⟩ params proof = .ok proof.secret) :
    ((start 1 [a]).run (commits a cvs sealed ++ recovering params proof)).Lone a .recovered := by
  subst hproof
  simp [Lone, recovering, commits, run, perform, answer, start, acceptCommit, isEligible, find?,
    closeCommits, Beacon.merkleRoot, MerkleTree.ofWords, Except.map, modify, closeCos,
    Missing.mark, installOrder, disclosed, Covers, beginRevealing, applyRecovery,
    Participant.puzzle, Standing.isResolved, hcheck]

def lonePuzzle (sealed : Word) : Puzzle := ⟨1, loneOperator, loneCommitment.cvs, sealed⟩

theorem lonePuzzle_consistent_iff (sealed : Word) :
    (lonePuzzle sealed).Consistent ⟨5, 3⟩ ↔
      secretOpens loneCommitment.cvs (applySeal sealed 1) = true :=
  Puzzle.consistent_iff ⟨4, Puzzle.baseOf_eq_four (.inr rfl), rfl⟩

theorem lonePuzzle_zero : ¬(lonePuzzle Word.zero).Consistent ⟨5, 3⟩ := by
  rw [lonePuzzle_consistent_iff, secretOpens_iff]
  intro h
  have hbytes := congrArg Octets.bytes h
  revert hbytes
  simp only [loneCommitment, Commitment.ofSecret, firstStage, secondStage, applySeal,
    Octets.xor, Puzzle.pad, digest, bytes_keccak256]
  decide +kernel

def loneFrozen (sealed : Word) : Round :=
  (start 1 [loneOperator]).run (commits loneOperator loneCommitment.cvs sealed)

/-- A course of the only operator, given what is done after its commit. -/
def loneCourse (sealed : Word) (after : List Operation)
    (h : LawfulRun ⟨5, 3⟩ (loneFrozen sealed) after) : Course ⟨5, 3⟩ 1 where
  eligible := [loneOperator]
  before := commits loneOperator loneCommitment.cvs sealed
  after
  closed := nofun
  lawful := ⟨trivial, trivial, h⟩

/-- The only operator discloses and reveals, whatever its seal. -/
def revealedCourse (sealed : Word) : Course ⟨5, 3⟩ 1 :=
  loneCourse sealed (revealing loneOperator loneCommitment.cos loneCommitment.secret)
    ⟨trivial, trivial, trivial, trivial, trivial, trivial, trivial⟩

def recoveredCourse (sealed : Word) (proof : Recovery) : Course ⟨5, 3⟩ 1 :=
  loneCourse sealed (recovering ⟨5, 3⟩ proof) ⟨rfl, trivial, trivial, trivial, trivial⟩

theorem lawful_marking {sealed : Word} (h : ¬(lonePuzzle sealed).Consistent ⟨5, 3⟩) :
    LawfulRun ⟨5, 3⟩ (loneFrozen sealed) (marking loneOperator) := by
  refine ⟨trivial, trivial, trivial, trivial, ?_, trivial⟩
  intro p hp _
  have hclosed : (loneFrozen sealed).phase ≠ .collectingCommits := nofun
  have hpuzzles : ((loneFrozen sealed).run ((marking loneOperator).take 4)).puzzles =
      [lonePuzzle sealed] := run_puzzles (reachable_run 1 _ _) hclosed _
  obtain rfl := List.mem_singleton.mp (hpuzzles ▸ hp : p ∈ [lonePuzzle sealed])
  exact ⟨.never, _, Puzzle.solve_never_of_not_consistent (by decide) (by decide) h, rfl⟩

def markedCourse : Course ⟨5, 3⟩ 1 :=
  loneCourse Word.zero (marking loneOperator) (lawful_marking lonePuzzle_zero)

/-- The only operator sealed its secret, and is left out neither when it reveals nor when
it is recovered. -/
theorem faulted_agree_five : ∃ (c c' : Course ⟨5, 3⟩ 1) (o o' : RoundOutcome),
    DelayParams.check 5 3 = .ok ⟨5, 3⟩ ∧ c.frozen.puzzles = [lonePuzzle loneSeal] ∧
    c.frozen.puzzles = c'.frozen.puzzles ∧ c.last.finish.2 = .ok o ∧ c'.last.finish.2 = .ok o' ∧
    c.Undeceived (lonePuzzle loneSeal) ∧ c'.Undeceived (lonePuzzle loneSeal) ∧
    c.Reveals loneOperator ∧ ¬c'.Reveals loneOperator ∧ o.faulted = o'.faulted := by
  have hopens : secretOpens loneCommitment.cvs loneCommitment.secret = true :=
    secretOpens_iff.mpr rfl
  have hconsistent : (lonePuzzle loneSeal).Consistent ⟨5, 3⟩ := by
    rw [lonePuzzle_consistent_iff, loneSeal, Puzzle.applySeal_applySeal]
    exact hopens
  obtain ⟨proof, hsolve, hcheck⟩ := Puzzle.solve_of_sealed (by decide) (by decide)
    loneRound_holdsSealed.sealed_eq hopens
  obtain ⟨hreveals, o, ho, -⟩ :=
    (lone_revealing loneOperator loneSeal hopens hopens).finish rfl
  obtain ⟨hrecovered, o', ho', -⟩ := (lone_recovering (a := loneOperator) rfl hcheck).finish rfl
  have htrue : (revealedCourse loneSeal).Undeceived (lonePuzzle loneSeal) := by
    simp [Course.Undeceived, Undeceived, revealedCourse, loneCourse, commits, revealing]
  have htrue' : (recoveredCourse loneSeal
      ⟨1, loneOperator, loneCommitment.secret, proof⟩).Undeceived (lonePuzzle loneSeal) := by
    intro given r hr
    obtain ⟨-, rfl⟩ :
        given = ⟨5, 3⟩ ∧ r = ⟨1, loneOperator, loneCommitment.secret, proof⟩ := by
      simpa [recoveredCourse, loneCourse, commits, recovering] using hr
    exact Puzzle.truthful_of_solve (by decide) (by decide) hsolve _
  have hparams : DelayParams.check 5 3 = .ok ⟨5, 3⟩ := rfl
  refine ⟨revealedCourse loneSeal, recoveredCourse loneSeal _, o, o', hparams, rfl, rfl, ho, ho',
    htrue, htrue', hreveals, ?_, ?_⟩
  · intro hreveals'
    cases hrecovered.symm.trans hreveals'
  · obtain ⟨-, hsame⟩ := faulted_agree hparams (revealedCourse loneSeal)
      (recoveredCourse loneSeal ⟨1, loneOperator, loneCommitment.secret, proof⟩) rfl ho ho'
    refine (hsame ?_).mpr ?_
    · intro p hp
      rw [List.mem_singleton.mp hp]
      exact ⟨htrue, htrue'⟩
    · intro p hp
      rw [List.mem_singleton.mp hp]
      exact .inl hconsistent

/-- The seal of the only operator is not consistent. It is left out if it keeps silent,
but not if it reveals its secret. -/
theorem faulted_differ : DelayParams.check 5 3 = .ok ⟨5, 3⟩ ∧
    (revealedCourse Word.zero).frozen = markedCourse.frozen ∧
    ∃ o o', (revealedCourse Word.zero).last.finish.2 = .ok o ∧
      markedCourse.last.finish.2 = .ok o' ∧ o.faulted = [] ∧ o'.faulted = [loneOperator] := by
  have hopens : secretOpens loneCommitment.cvs loneCommitment.secret = true :=
    secretOpens_iff.mpr rfl
  obtain ⟨-, o, ho, hfaulted⟩ :=
    (lone_revealing loneOperator Word.zero hopens hopens).finish rfl
  obtain ⟨-, o', ho', hfaulted'⟩ :=
    (lone_marking loneOperator loneCommitment.cvs Word.zero).finish rfl
  exact ⟨rfl, rfl, o, o', ho, ho', hfaulted, hfaulted'⟩

end Round

end Beacon
