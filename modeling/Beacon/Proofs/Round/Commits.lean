import Beacon.Proofs.Round.Frozen
import Beacon.Proofs.Round.Outcome
import Mathlib.Data.List.Perm.Subperm

/-
  The commits of a round. Whatever is done to a round, the operators with a record are
  different ones and eligible, and every record is where it says it is (`Enrolled`, kept by
  every step). It takes both to see by a count alone that everybody committed: as many
  different eligible operators as there are leave nobody out (`allCommitted_iff`).

  Once the commits are closed there is at least one, and the root over them is on record,
  so a round that is finished hands on this one (`commits_sound`).
-/

namespace Beacon

namespace Round

variable {r r' : Round}

/-! ## Who has a record, and where -/

/-- The operators that committed are eligible, and their records count up from zero. -/
structure Enrolled (r : Round) : Prop where
  eligible : ∀ a ∈ r.committed, a ∈ r.eligible
  places : r.records.map (·.commitIndex) = List.range r.records.length

theorem Enrolled.step (h : r.Enrolled) (hs : Step r r') : r'.Enrolled := by
  cases hs with
  | commit _ heligible _ =>
    constructor
    · intro a ha
      rw [committed, List.map_append, List.mem_append, List.map_singleton, List.mem_singleton] at ha
      rcases ha with ha | rfl
      · exact h.eligible a ha
      · exact heligible
    · simp only [List.map_append, h.places, List.map_singleton, List.length_append,
        List.length_singleton, List.range_succ]
  | @move records cursor hmoved =>
    have hplaces := hmoved.map_eq (f := (·.commitIndex)) fun hm => hm.commitment_eq.2.1
    constructor
    · rw [committed, hmoved.map_eq fun hm => hm.operator_eq]
      exact h.eligible
    · rw [hplaces, h.places, hmoved.length_eq]
  | _ => exact ⟨h.eligible, h.places⟩

theorem Reachable.enrolled (h : r.Reachable) : r.Enrolled :=
  (h.induct (fun _ _ => ⟨nofun, rfl⟩) fun _ _ _ hs he => he.step hs).2

theorem Enrolled.commitIndex_eq (h : r.Enrolled) {i : Nat} {p : Participant}
    (hp : r.records[i]? = some p) : p.commitIndex = i := by
  have hi := (List.getElem?_eq_some_iff.mp hp).1
  have hplace := congrArg (·[i]?) h.places
  simpa [hp, List.getElem?_range hi] using hplace

/-! ## Who may commit -/

theorem Step.eligible_eq (h : Step r r') : r'.eligible = r.eligible := by
  cases h <;> rfl

theorem run_eligible (hr : r.Reachable) (ops : List Operation) :
    (r.run ops).eligible = r.eligible := by
  induction ops generalizing r with
  | nil => rfl
  | cons op ops ih => exact (ih (hr.perform op)).trans (step_perform hr.nodup op).eligible_eq

theorem nodup_eraseDups (as : List Address) : as.eraseDups.Nodup := by
  cases as with
  | nil => exact List.nodup_nil
  | cons a as =>
    rw [List.eraseDups_cons, List.nodup_cons]
    exact ⟨by simp, nodup_eraseDups _⟩
termination_by as.length
decreasing_by exact Nat.lt_succ_of_le (List.length_filter_le _ as)

theorem allCommitted_iff (hd : r.committed.Nodup) (he : r.eligible.Nodup) (h : r.Enrolled) :
    r.allCommitted = true ↔ ∀ a ∈ r.eligible, a ∈ r.committed := by
  have hlength : r.committed.length = r.records.length := List.length_map _
  rw [allCommitted, decide_eq_true_eq, ← hlength]
  constructor
  · intro hcount a ha
    have hperm := (List.subperm_of_subset hd h.eligible).perm_of_length_le (Nat.le_of_eq hcount.symm)
    exact hperm.mem_iff.mpr ha
  · intro hall
    exact ((List.perm_ext_iff_of_nodup hd he).mpr fun a => ⟨h.eligible a, hall a⟩).length_eq

/-! ## Taking in a commit -/

/-- A commit is taken in while commits are collected, from each eligible operator once,
and its place is the one behind all others. -/
theorem acceptCommit_eq_ok {a : Address} {cvs sealed : Word} {i : Nat} :
    (r.acceptCommit a cvs sealed).2 = .ok i ↔
      r.phase = .collectingCommits ∧ a ∈ r.eligible ∧ a ∉ r.committed ∧ i = r.records.length := by
  rw [← find?_eq_none, acceptCommit]
  by_cases hphase : r.phase = .collectingCommits
  swap
  · simp [hphase]
  by_cases heligible : a ∈ r.eligible
  swap
  · simp [hphase, isEligible, heligible]
  cases hf : r.find? a with
  | none => simp [hphase, isEligible, heligible, eq_comm]
  | some p => simp [hphase, isEligible, heligible]

theorem records_acceptCommit {a : Address} {cvs sealed : Word} {i : Nat}
    (h : (r.acceptCommit a cvs sealed).2 = .ok i) :
    (r.acceptCommit a cvs sealed).1.records = r.records ++
      [{ operator := a, commitIndex := i, cvs, sealed
         cos := none, secret := none, standing := .committed, recovery := none }] := by
  obtain ⟨hphase, heligible, hfresh, rfl⟩ := acceptCommit_eq_ok.mp h
  rw [← find?_eq_none] at hfresh
  simp [acceptCommit, hphase, isEligible, heligible, hfresh]

/-! ## The root over the commits -/

theorem Coherent.records_ne_nil (h : r.Coherent) (hphase : r.phase.pastCommits) :
    r.records ≠ [] := by
  intro hnil
  obtain ⟨root, -, hroot⟩ := h.root hphase
  rw [hnil] at hroot
  cases hroot

/-- What the commits of a round come to that was opened for the `eligible` operators. -/
structure CommitSet (eligible : List Address) (r : Round) : Prop where
  isEligible_iff : ∀ a, r.isEligible a = true ↔ a ∈ eligible
  operators_nodup : r.committed.Nodup
  operators_eligible : ∀ a ∈ r.committed, r.isEligible a = true
  commitIndex_eq : ∀ i (p : Participant), r.records[i]? = some p → p.commitIndex = i
  accepts_iff : ∀ a cvs sealed, (∃ i, (r.acceptCommit a cvs sealed).2 = .ok i) ↔
    r.phase = .collectingCommits ∧ r.isEligible a = true ∧ a ∉ r.committed
  /-- The answer to a commit is the place of the record that is added for it. -/
  place_eq : ∀ a cvs sealed i, (r.acceptCommit a cvs sealed).2 = .ok i →
    (r.acceptCommit a cvs sealed).1.records.length = i + 1 ∧
      (r.acceptCommit a cvs sealed).1.records.take i = r.records ∧
      ∃ p : Participant, (r.acceptCommit a cvs sealed).1.records[i]? = some p ∧
        p.operator = a ∧ p.commitIndex = i ∧ p.cvs = cvs ∧ p.sealed = sealed
  allCommitted_iff : r.allCommitted = true ↔ ∀ a, r.isEligible a = true → a ∈ r.committed
  closed : r.phase.pastCommits → r.records ≠ [] ∧
    ∃ root, r.merkleRoot = some root ∧ Beacon.merkleRoot (r.records.map (·.cvs)) = .ok root
  root_of_finish : ∀ o, r.finish.2 = .ok o → r.merkleRoot = some o.merkleRoot

/-- Whatever is done to a round, and in whatever order, its commits are in order. -/
theorem commits_sound (id : UInt64) (eligible : List Address) (ops : List Operation) :
    CommitSet eligible ((start id eligible).run ops) := by
  have hr := reachable_run id eligible ops
  have heligible : ((start id eligible).run ops).eligible = eligible.eraseDups :=
    run_eligible (reachable_run id eligible []) ops
  exact
    { isEligible_iff := fun a => by rw [isEligible, decide_eq_true_eq, heligible, List.mem_eraseDups]
      operators_nodup := hr.nodup
      operators_eligible := fun a ha => decide_eq_true (hr.enrolled.eligible a ha)
      commitIndex_eq := fun _ _ => hr.enrolled.commitIndex_eq
      place_eq := by
        intro a cvs sealed i h
        obtain rfl := (acceptCommit_eq_ok.mp h).2.2.2
        rw [records_acceptCommit h]
        exact ⟨List.length_append, List.take_left, _, List.getElem?_concat_length, rfl, rfl, rfl, rfl⟩
      accepts_iff := by simp [acceptCommit_eq_ok, isEligible]
      allCommitted_iff := by
        simpa [isEligible] using
          allCommitted_iff hr.nodup (heligible ▸ nodup_eraseDups eligible) hr.enrolled
      closed := fun h => ⟨hr.coherent.records_ne_nil h, hr.coherent.root h⟩
      root_of_finish := fun _ h => (hr.coherent.root_of_finish h).1 }

end Round

end Beacon
