import Beacon.Proofs.Round.Coherence
import Mathlib.Data.List.Basic

/-
  What a completed round hands on. The operators with a secret and the faulted ones
  share the committed operators out between them, both in commit order; every
  secret opens its commitment; every recovered operator has one recovery, and it
  names the secret listed; the root, the order and the random value are those of
  the records (`RoundOutcome.Settles`).

  `finish_settles` says so of every reachable round that completes. It rests on the
  coherence of records alone: no operation that resolves an operator can leave its
  secret out, or put an unchecked one in.
-/

namespace Beacon

/-- What is handed on settles the round: it accounts for each operator that
committed once, and for nothing else. -/
structure RoundOutcome.Settles (o : RoundOutcome) (r : Round) : Prop where
  committed_nodup : r.committed.Nodup
  /-- Each committed operator is either listed with a secret or faulted. -/
  shared_out : (o.secrets.map (·.1) ++ o.faulted).Perm r.committed
  secrets_in_order : (o.secrets.map (·.1)).Sublist r.committed
  faulted_in_order : o.faulted.Sublist r.committed
  faulted_stand : ∀ a, a ∈ o.faulted ↔ r.standingOf a = some .faulted
  secrets_open : ∀ a secret, (a, secret) ∈ o.secrets →
    ∃ p, r.find? a = some p ∧ keccak256 (keccak256 secret.bytes).bytes = p.cvs
  /-- One recovery for each operator that stands recovered, in commit order. -/
  recoveries_in_order : o.recoveries.map (·.operator) =
    r.committed.filter (fun a => r.standingOf a = some .recovered)
  recoveries_name : ∀ proof ∈ o.recoveries,
    proof.round = r.id ∧ (proof.operator, proof.secret) ∈ o.secrets
  root_eq : Beacon.merkleRoot (r.records.map (·.cvs)) = .ok o.merkleRoot
  order_nodup : o.revealOrder.Nodup
  order_disclosed : ∀ a, a ∈ o.revealOrder ↔ ∃ p, r.find? a = some p ∧ p.cos.isSome = true
  value_eq : o.randomValue = keccak256 (o.secrets.flatMap fun s => s.2.bytes)

namespace Round

variable {r : Round} {o : RoundOutcome}

theorem finish_eq_ok : r.finish.2 = .ok o ↔ r.isComplete = true ∧ r.outcome = o := by
  unfold finish
  by_cases h : r.isComplete = true
  · simp only [h, Bool.not_true, Bool.false_eq_true, if_false, true_and, Except.ok.injEq]
    exact Iff.rfl
  · simp [h]

theorem isComplete_iff :
    r.isComplete = true ↔
      (r.phase = .revealing ∨ r.phase = .completed) ∧
        ∀ p ∈ r.records, p.standing.isResolved = true := by
  simp [isComplete]

/-! ## Lists read off the records -/

theorem map_filterMap_eq {α : Type} {ps : List Participant} {f : Participant → Option α}
    {g : α → Address} (h : ∀ p ∈ ps, (f p).map g = some p.operator) :
    (ps.filterMap f).map g = ps.map (·.operator) := by
  rw [List.map_filterMap]
  exact List.filterMap_eq_map_iff_forall_eq_some.mpr h

theorem map_filter_standing (hd : r.committed.Nodup) (s : Standing) :
    (r.records.filter (·.standing = s)).map (·.operator) =
      r.committed.filter fun a => r.standingOf a = some s := by
  rw [committed, List.filter_map]
  congr 1
  apply List.filter_congr
  intro p hp
  have hf : r.find? p.operator = some p := (find?_eq_some hd).mpr ⟨hp, rfl⟩
  simp [standingOf, hf]

theorem mem_faulted (hd : r.committed.Nodup) (a : Address) :
    a ∈ r.faulted ↔ r.standingOf a = some .faulted := by
  rw [faulted, map_filter_standing hd, List.mem_filter, decide_eq_true_eq, and_iff_right_iff_imp]
  intro h
  obtain ⟨p, hf, _⟩ := standingOf_eq_some.mp h
  obtain ⟨hp, rfl⟩ := mem_of_find? hf
  exact List.mem_map_of_mem hp

theorem mem_secrets {a : Address} {secret : Word} :
    (a, secret) ∈ r.secrets ↔
      ∃ p ∈ r.records, p.standing ≠ .faulted ∧ p.operator = a ∧ p.secret = some secret := by
  simp [secrets, and_assoc, and_left_comm, and_comm]

/-! ## The records of a coherent round -/

theorem Coherent.secret_of_resolved (hc : r.Coherent) {p : Participant} (hp : p ∈ r.records)
    (hr : p.standing.isResolved = true) (hf : p.standing ≠ .faulted) :
    ∃ secret, p.secret = some secret := by
  refine Option.isSome_iff_exists.mp ((hc.records p hp).secret_isSome.mpr ?_)
  cases h : p.standing <;> simp_all [Standing.isResolved]

theorem map_secrets (hc : r.Coherent)
    (hresolved : ∀ p ∈ r.records, p.standing.isResolved = true) :
    r.secrets.map (·.1) = (r.records.filter (·.standing ≠ .faulted)).map (·.operator) := by
  apply map_filterMap_eq
  intro p hp
  obtain ⟨hp, hf⟩ := List.mem_filter.mp hp
  obtain ⟨secret, hs⟩ := hc.secret_of_resolved hp (hresolved p hp) (by simpa using hf)
  rw [hs]
  rfl

/-- Recoveries are on record for the recovered only. -/
theorem map_recoveries (hc : r.Coherent) :
    (r.records.filterMap (·.recovery)).map (·.operator) =
      (r.records.filter (·.standing = .recovered)).map (·.operator) := by
  have hnone : r.records.filterMap (·.recovery) =
      (r.records.filter (·.standing = .recovered)).filterMap (·.recovery) := by
    rw [List.filterMap_filter]
    apply List.filterMap_congr
    intro p hp
    split
    · rfl
    · rename_i hs
      rw [← Option.not_isSome_iff_eq_none, (hc.records p hp).recovery_isSome]
      simpa using hs
  rw [hnone]
  apply map_filterMap_eq
  intro p hp
  obtain ⟨hp, hs⟩ := List.mem_filter.mp hp
  have hrec := (hc.records p hp).recovery_isSome.mpr (by simpa using hs)
  obtain ⟨proof, hproof⟩ := Option.isSome_iff_exists.mp hrec
  obtain ⟨_, params, hcheck⟩ := (hc.records p hp).recovery_accepted proof hproof
  obtain ⟨⟨_, hproves, _⟩, _⟩ := Puzzle.check_eq_ok.mp hcheck
  rw [hproof, Option.map_some, hproves.operator_eq]
  rfl

theorem recovery_named (hc : r.Coherent) {proof : Recovery}
    (h : proof ∈ r.records.filterMap (·.recovery)) :
    proof.round = r.id ∧ (proof.operator, proof.secret) ∈ r.secrets := by
  obtain ⟨p, hp, hproof⟩ := List.mem_filterMap.mp h
  obtain ⟨hsecret, params, hcheck⟩ := (hc.records p hp).recovery_accepted proof hproof
  obtain ⟨⟨_, hproves, _⟩, _⟩ := Puzzle.check_eq_ok.mp hcheck
  have hstands : p.standing = .recovered :=
    (hc.records p hp).recovery_isSome.mp (Option.isSome_iff_exists.mpr ⟨proof, hproof⟩)
  exact ⟨hproves.round_eq, mem_secrets.mpr
    ⟨p, hp, by simp [hstands], hproves.operator_eq.symm, hsecret⟩⟩

theorem mem_disclosed (hd : r.committed.Nodup) {a : Address} :
    a ∈ r.disclosed.map (·.1) ↔ ∃ p, r.find? a = some p ∧ p.cos.isSome = true := by
  simp only [find?_eq_some hd, disclosed, List.mem_map, List.mem_filterMap, Option.map_eq_some_iff,
    Option.isSome_iff_exists]
  constructor
  · rintro ⟨_, ⟨p, hp, cos, hcos, rfl⟩, rfl⟩
    exact ⟨p, ⟨hp, rfl⟩, cos, hcos⟩
  · rintro ⟨p, ⟨hp, rfl⟩, cos, hcos⟩
    exact ⟨_, ⟨p, hp, cos, hcos, rfl⟩, rfl⟩

/-! ## The outcome -/

theorem Coherent.root_of_finish (hc : r.Coherent) (h : r.finish.2 = .ok o) :
    r.merkleRoot = some o.merkleRoot ∧
      Beacon.merkleRoot (r.records.map (·.cvs)) = .ok o.merkleRoot := by
  obtain ⟨hcomplete, rfl⟩ := finish_eq_ok.mp h
  have hpast : r.phase.pastCommits := by
    rcases (isComplete_iff.mp hcomplete).1 with h | h <;> simp [Phase.pastCommits, h]
  obtain ⟨root, hroot, hmerkle⟩ := hc.root hpast
  have hsame : r.outcome.merkleRoot = root := by rw [outcome, hroot, Option.getD_some]
  rw [hsame]
  exact ⟨hroot, hmerkle⟩

/-- Whatever was done to a round before it completes, and in whatever order, what it
hands on settles it. -/
theorem finish_settles (hr : r.Reachable) (h : r.finish.2 = .ok o) : o.Settles r := by
  have hd := hr.nodup
  have hc := hr.coherent
  have hroot := hc.root_of_finish h
  obtain ⟨hcomplete, rfl⟩ := finish_eq_ok.mp h
  obtain ⟨hphase, hresolved⟩ := isComplete_iff.mp hcomplete
  have hsecrets := map_secrets hc hresolved
  obtain ⟨hnodup, hsub, hsup⟩ := hc.order (.inr hphase)
  exact
    { committed_nodup := hd
      shared_out := by
        -- The records that are not faulted and those that are make up all records.
        have hperm := List.filter_append_perm
          (fun p : Participant => decide (p.standing ≠ .faulted)) r.records
        simp only [outcome, hsecrets, faulted, committed]
        rw [← List.map_append]
        simpa using hperm.map (·.operator)
      secrets_in_order := hsecrets ▸ List.filter_sublist.map _
      faulted_in_order := List.filter_sublist.map _
      faulted_stand := mem_faulted hd
      secrets_open := by
        intro a secret hs
        obtain ⟨p, hp, _, ha, hsecret⟩ := mem_secrets.mp hs
        exact ⟨p, (find?_eq_some hd).mpr ⟨hp, ha⟩,
          secretOpens_iff.mp ((hc.records p hp).secret_opens secret hsecret)⟩
      recoveries_in_order := (map_recoveries hc).trans (map_filter_standing hd .recovered)
      recoveries_name := fun _ => recovery_named hc
      root_eq := hroot.2
      order_nodup := hnodup
      order_disclosed := fun a => ⟨fun h => (mem_disclosed hd).mp (hsub a h),
        fun h => hsup a ((mem_disclosed hd).mpr h)⟩
      value_eq := by
        simp [outcome, digest, transcript, List.flatMap_map, Segment.bytes] }

/-- A course in which `a` discloses and reveals, and `b` does neither and is found at
fault. -/
def revealAndFault (a b : Address) (cvs cos secret : Word) : List Operation :=
  [.acceptCommit a cvs Word.zero, .acceptCommit b Word.zero Word.zero, .closeCommits,
   .acceptCos a cos, .closeCos, .installOrder none [a], .beginRevealing, .nextToRequest,
   .acceptReveal a secret, .beginRecovery b, .markFaulted b]

theorem finish_revealAndFault {a b : Address} {cvs cos secret : Word} (hab : a ≠ b)
    (hcos : cosOpens cvs cos = true) (hsecret : secretOpens cvs secret = true) :
    ∃ o, ((start 1 [a, b]).run (revealAndFault a b cvs cos secret)).finish.2 = .ok o ∧
      o.secrets = [(a, secret)] ∧ o.faulted = [b] := by
  refine ⟨_, finish_eq_ok.mpr ⟨?_, rfl⟩, ?_⟩ <;>
    simp [outcome, isComplete, revealAndFault, run, perform, answer, start, acceptCommit,
      isEligible, find?, closeCommits, Beacon.merkleRoot, MerkleTree.ofWords, Except.map, acceptCos,
      modify, closeCos, Missing.mark, installOrder, disclosed, Covers, beginRevealing,
      nextToRequest, requestFirst, standingOf, setStanding, acceptReveal, Standing.isResolved,
      beginRecovery, markFaulted, secrets, faulted, hab, hab.symm, hcos, hsecret]

theorem finish_settles_two : ∃ (r : Round) (o : RoundOutcome), r.Reachable ∧
    r.finish.2 = .ok o ∧ o.secrets.length = 1 ∧ o.faulted.length = 1 ∧ o.Settles r := by
  have hab : (⟨.ofNat 20 1⟩ : Address) ≠ ⟨.ofNat 20 2⟩ := by decide
  have hopens : secretOpens (secondStage (firstStage (.ofNat 32 7))) (.ofNat 32 7) = true :=
    beq_self_eq_true _
  obtain ⟨o, ho, hsecrets, hfaulted⟩ := finish_revealAndFault hab hopens hopens
  refine ⟨_, o, reachable_run 1 _ _, ho, ?_, ?_, finish_settles (reachable_run 1 _ _) ho⟩
  · rw [hsecrets, List.length_singleton]
  · rw [hfaulted, List.length_singleton]

end Round

end Beacon
