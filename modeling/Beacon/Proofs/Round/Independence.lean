import Beacon.Proofs.Recovery.Solving
import Beacon.Proofs.Round.Fault
import Beacon.Proofs.Round.Outcome
import Mathlib.Data.List.ReduceOption

/-
  What a round comes to does not depend on its course. Two courses of a round may
  differ in who disclosed, in the order installed, in when secrets arrived and whether
  they were revealed or recovered. If the same operators committed to the same second
  stages in the same order, and the same of them are faulted, then the secrets, the
  root and the random value are the same (`outcome_independent`).

  Whichever way a secret got on record, it opens its commitment
  (`Coherent.secret_opens`), and a commitment is opened by one secret only, unless the
  digest collides among the words hashed (`NoCollision`).
-/

namespace Beacon

/-- The digest has no collision among these words. -/
def NoCollision (words : List Word) : Prop :=
  ∀ a ∈ words, ∀ b ∈ words, keccak256 a.bytes = keccak256 b.bytes → a = b

/-- The words hashed to check the secrets handed on: the secrets and their first
stages. -/
def RoundOutcome.hashed (o : RoundOutcome) : List Word :=
  o.secrets.flatMap fun s => [s.2, firstStage s.2]

theorem RoundOutcome.mem_hashed {o : RoundOutcome} {a : Address} {secret : Word}
    (h : (a, secret) ∈ o.secrets) : secret ∈ o.hashed ∧ firstStage secret ∈ o.hashed :=
  ⟨List.mem_flatMap.mpr ⟨_, h, by simp⟩, List.mem_flatMap.mpr ⟨_, h, by simp⟩⟩

theorem NoCollision.secret_unique {words : List Word} (h : NoCollision words) {cvs a b : Word}
    (ha : a ∈ words ∧ firstStage a ∈ words) (hb : b ∈ words ∧ firstStage b ∈ words)
    (hopens : secretOpens cvs a = true) (hopens' : secretOpens cvs b = true) : a = b := by
  have hsecond : secondStage (firstStage a) = secondStage (firstStage b) :=
    (secretOpens_iff.mp hopens).trans (secretOpens_iff.mp hopens').symm
  have hfirst : firstStage a = firstStage b := h _ ha.2 _ hb.2 hsecond
  exact h _ ha.1 _ hb.1 hfirst

namespace Round

variable {r r' : Round} {o o' : RoundOutcome}

/-- What a record adds to the secrets handed on. -/
def listed (p : Participant) : Option (Address × Word) :=
  if p.standing = .faulted then none else p.secret.map fun secret => (p.operator, secret)

theorem secrets_eq (r : Round) : r.secrets = (r.records.map listed).reduceOption := by
  rw [secrets, List.filterMap_filter, List.reduceOption, List.filterMap_map]
  apply List.filterMap_congr
  intro p _
  by_cases h : p.standing = .faulted <;> simp [listed, h]

/-- A finished round has resolved every record, and says of each what it hands on. -/
theorem listed_of_finish (hr : r.Reachable) (h : r.finish.2 = .ok o) {p : Participant}
    (hp : p ∈ r.records) :
    (p.operator ∈ o.faulted ∧ listed p = none) ∨
      (p.operator ∉ o.faulted ∧ ∃ secret, listed p = some (p.operator, secret) ∧
        (p.operator, secret) ∈ o.secrets ∧ secretOpens p.cvs secret = true) := by
  obtain ⟨hcomplete, rfl⟩ := finish_eq_ok.mp h
  have hresolved := (isComplete_iff.mp hcomplete).2 p hp
  have hstands : p.operator ∈ r.outcome.faulted ↔ p.standing = .faulted := by
    have hf : r.find? p.operator = some p := (find?_eq_some hr.nodup).mpr ⟨hp, rfl⟩
    rw [outcome, mem_faulted hr.nodup, standingOf, hf, Option.map_some, Option.some_inj]
  rw [hstands]
  by_cases hfaulted : p.standing = .faulted
  · exact .inl ⟨hfaulted, if_pos hfaulted⟩
  · obtain ⟨secret, hs⟩ := hr.coherent.secret_of_resolved hp hresolved hfaulted
    refine .inr ⟨hfaulted, secret, ?_, mem_secrets.mpr ⟨p, hp, hfaulted, rfl, hs⟩,
      (hr.coherent.records p hp).secret_opens secret hs⟩
    rw [listed, if_neg hfaulted, hs, Option.map_some]

/-- The same commitments and the same faulted operators make the same secrets, root and
random value, whatever else happened in the two courses. -/
theorem outcome_independent (hr : r.Reachable) (hr' : r'.Reachable)
    (h : r.finish.2 = .ok o) (h' : r'.finish.2 = .ok o')
    (hoperators : r.committed = r'.committed)
    (hcvs : r.records.map (·.cvs) = r'.records.map (·.cvs))
    (hfaulted : ∀ a, a ∈ o.faulted ↔ a ∈ o'.faulted)
    (hcollision : NoCollision (o.hashed ++ o'.hashed)) :
    o.secrets = o'.secrets ∧ o.merkleRoot = o'.merkleRoot ∧ o.randomValue = o'.randomValue := by
  have hlength : r.records.length = r'.records.length := by simpa using congrArg List.length hcvs
  -- The records at one place list the same, so the lists are the same.
  have hlisted : r.records.map listed = r'.records.map listed := by
    refine List.ext_getElem (by simpa using hlength) ?_
    intro i hi hi'
    simp only [List.getElem_map]
    rw [List.length_map] at hi hi'
    have hoperator : r.records[i].operator = r'.records[i].operator := by
      have := List.getElem_of_eq hoperators (i := i) (by simpa [committed] using hi)
      simpa [committed] using this
    have hcvs : r.records[i].cvs = r'.records[i].cvs := by
      have := List.getElem_of_eq hcvs (i := i) (by simpa using hi)
      simpa using this
    have hp := listed_of_finish hr h (List.getElem_mem hi)
    have hp' := listed_of_finish hr' h' (List.getElem_mem hi')
    rw [← hoperator, ← hcvs, ← hfaulted] at hp'
    rcases hp with ⟨hin, hnone⟩ | ⟨hout, secret, hsome, hmem, hopens⟩
    · rcases hp' with ⟨-, hnone'⟩ | ⟨hout', -⟩
      · rw [hnone, hnone']
      · exact absurd hin hout'
    · rcases hp' with ⟨hin', -⟩ | ⟨-, secret', hsome', hmem', hopens'⟩
      · exact absurd hin' hout
      · have hwords := RoundOutcome.mem_hashed hmem
        have hwords' := RoundOutcome.mem_hashed hmem'
        have hsecret : secret = secret' := hcollision.secret_unique
          ⟨List.mem_append_left _ hwords.1, List.mem_append_left _ hwords.2⟩
          ⟨List.mem_append_right _ hwords'.1, List.mem_append_right _ hwords'.2⟩ hopens hopens'
        rw [hsome, hsome', hsecret]
  have hsecrets : r.secrets = r'.secrets := by
    rw [secrets_eq, secrets_eq, hlisted]
  have hroot := (hr.coherent.root_of_finish h).2
  rw [hcvs, (hr'.coherent.root_of_finish h').2] at hroot
  obtain ⟨-, rfl⟩ := finish_eq_ok.mp h
  obtain ⟨-, rfl⟩ := finish_eq_ok.mp h'
  refine ⟨hsecrets, (Except.ok.inj hroot).symm, ?_⟩
  simp only [outcome, hsecrets]

/-! ## Two courses of one round -/

/-- A course in which neither of `a` and `b` discloses, `a` is recovered before anyone is
asked, and `b` is found at fault. -/
def recoverAndFault (params : DelayParams) (proof : Recovery) (a b : Address) (cvs sealed : Word) :
    List Operation :=
  [.acceptCommit a cvs sealed, .acceptCommit b Word.zero Word.zero, .closeCommits,
   .applyRecovery params proof, .closeCos, .installOrder none [], .beginRevealing,
   .beginRecovery b, .markFaulted b]

theorem records_revealAndFault {a b : Address} {cvs cos secret : Word} (hab : a ≠ b)
    (hcos : cosOpens cvs cos = true) (hsecret : secretOpens cvs secret = true) :
    ((start 1 [a, b]).run (revealAndFault a b cvs cos secret)).records.map
      (fun p => (p.operator, p.cvs, p.standing)) =
        [(a, cvs, .revealed), (b, Word.zero, .faulted)] := by
  simp [revealAndFault, run, perform, answer, start, acceptCommit, isEligible, find?,
    closeCommits, Beacon.merkleRoot, MerkleTree.ofWords, Except.map, acceptCos, modify, closeCos,
    Missing.mark, installOrder, disclosed, Covers, beginRevealing, nextToRequest, requestFirst,
    standingOf, setStanding, acceptReveal, Standing.isResolved, beginRecovery, markFaulted, hab,
    hab.symm, hcos, hsecret]

theorem run_recoverAndFault {params : DelayParams} {proof : Recovery} {a b : Address}
    {cvs sealed : Word} (hab : a ≠ b) (hproof : proof.operator = a)
    (hcheck : Puzzle.check ⟨1, a, cvs, sealed⟩ params proof = .ok proof.secret) :
    ((start 1 [a, b]).run (recoverAndFault params proof a b cvs sealed)).records.map
        (fun p => (p.operator, p.cvs, p.standing)) =
          [(a, cvs, .recovered), (b, Word.zero, .faulted)] ∧
      ∃ o, ((start 1 [a, b]).run (recoverAndFault params proof a b cvs sealed)).finish.2 = .ok o ∧
        o.secrets = [(a, proof.secret)] ∧ o.faulted = [b] := by
  subst hproof
  refine ⟨?_, _, finish_eq_ok.mpr ⟨?_, rfl⟩, ?_⟩ <;>
    simp [outcome, isComplete, recoverAndFault, run, perform, answer, start, acceptCommit,
      isEligible, find?, closeCommits, Beacon.merkleRoot, MerkleTree.ofWords, Except.map,
      modify, closeCos, Missing.mark, installOrder, disclosed, Covers, beginRevealing,
      setStanding, applyRecovery, Participant.puzzle, Standing.isResolved,
      beginRecovery, markFaulted, secrets, faulted, hab, hab.symm, hcheck]

theorem loneCommitment_noCollision {words : List Word}
    (h : ∀ w ∈ words, w = loneCommitment.secret ∨ w = firstStage loneCommitment.secret) :
    NoCollision words := by
  have hne : keccak256 loneCommitment.secret.bytes ≠
      keccak256 (firstStage loneCommitment.secret).bytes := by
    intro heq
    have hbytes := congrArg Octets.bytes heq
    revert hbytes
    simp only [loneCommitment, Commitment.ofSecret, firstStage, bytes_keccak256]
    decide +kernel
  intro a ha b hb heq
  rcases h a ha with rfl | rfl <;> rcases h b hb with rfl | rfl
  · rfl
  · exact absurd heq hne
  · exact absurd heq.symm hne
  · rfl

/-- One operator reveals its secret in one course, and has it recovered in the other. -/
theorem outcome_independent_two : ∃ (r r' : Round) (o o' : RoundOutcome), r.Reachable ∧
    r'.Reachable ∧ r.finish.2 = .ok o ∧ r'.finish.2 = .ok o' ∧ r.committed = r'.committed ∧
    r.records.map (·.cvs) = r'.records.map (·.cvs) ∧ (∀ a, a ∈ o.faulted ↔ a ∈ o'.faulted) ∧
    NoCollision (o.hashed ++ o'.hashed) ∧
    r.records.map (·.standing) = [.revealed, .faulted] ∧
    r'.records.map (·.standing) = [.recovered, .faulted] ∧
    o.secrets = o'.secrets ∧ o.merkleRoot = o'.merkleRoot ∧ o.randomValue = o'.randomValue := by
  have hab : loneOperator ≠ ⟨.ofNat 20 2⟩ := by decide
  have hopens : secretOpens loneCommitment.cvs loneCommitment.secret = true :=
    secretOpens_iff.mpr rfl
  obtain ⟨proof, -, hcheck⟩ := Puzzle.solve_of_sealed (by decide) (by decide)
    loneRound_holdsSealed.sealed_eq hopens
  have hrecords := records_revealAndFault hab hopens hopens
  obtain ⟨o, ho, hsecrets, hfaulted⟩ := finish_revealAndFault hab hopens hopens
  obtain ⟨hrecords', o', ho', hsecrets', hfaulted'⟩ := run_recoverAndFault hab rfl hcheck
  have hr := reachable_run 1 [loneOperator, ⟨.ofNat 20 2⟩]
    (revealAndFault loneOperator ⟨.ofNat 20 2⟩ loneCommitment.cvs
      (firstStage loneCommitment.secret) loneCommitment.secret)
  have hr' := reachable_run 1 [loneOperator, ⟨.ofNat 20 2⟩]
    (recoverAndFault ⟨5, 3⟩ ⟨1, loneOperator, loneCommitment.secret, proof⟩ loneOperator
      ⟨.ofNat 20 2⟩ loneCommitment.cvs loneSeal)
  have hcommitted := congrArg (List.map (·.1)) hrecords
  have hcommitted' := congrArg (List.map (·.1)) hrecords'
  have hcvs := congrArg (List.map (·.2.1)) hrecords
  have hcvs' := congrArg (List.map (·.2.1)) hrecords'
  have hstands := congrArg (List.map (·.2.2)) hrecords
  have hstands' := congrArg (List.map (·.2.2)) hrecords'
  simp only [List.map_map, Function.comp_def, List.map_cons, List.map_nil]
    at hcommitted hcommitted' hcvs hcvs' hstands hstands'
  have hsame : ∀ a, a ∈ o.faulted ↔ a ∈ o'.faulted := by simp [hfaulted, hfaulted']
  have hwords : NoCollision (o.hashed ++ o'.hashed) := loneCommitment_noCollision (by
    simp [RoundOutcome.hashed, hsecrets, hsecrets', or_comm])
  exact ⟨_, _, o, o', hr, hr', ho, ho', hcommitted.trans hcommitted'.symm,
    hcvs.trans hcvs'.symm, hsame, hwords, hstands, hstands',
    outcome_independent hr hr' ho ho' (hcommitted.trans hcommitted'.symm)
      (hcvs.trans hcvs'.symm) hsame hwords⟩

end Round

end Beacon
