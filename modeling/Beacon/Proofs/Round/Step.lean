import Beacon.Round.Operation
import Mathlib.Data.List.Forall2
import Mathlib.Data.List.Nodup

/-
  Steps of a round. Thirteen operations act on a round, each with guards and
  refusals of its own; what any of them can do is said here once. An operation
  adds a record, moves some records on, or moves the phase on, and a refused one
  does none of these (`Round.Step`, `step_perform`). What a single record can go
  through is `Participant.Move`.

  Records are found by their operator. The moves are read off the record found,
  so the step lemmas ask that no operator has two records; `Step.nodup` says that
  steps keep it so.

  What an operation does to the round as a whole needs no such condition, and is
  told by the operation (`Round.Effect`, `effect_perform`): which of them touch the
  records, the phase, the order or the cursor is read off from there.

  What operations lead to from a new round is `Round.Reachable`; whatever a new
  round has and every step keeps, a reachable round has (`Reachable.induct`).
-/

namespace Beacon

/-- What one operation can do to one record of the round `id` in a phase. -/
inductive Participant.Move (id : UInt64) (phase : Phase) : Participant → Participant → Prop where
  | stay (p : Participant) : Move id phase p p
  | disclose {p : Participant} {cos : Word} (hphase : phase = .collectingCos) (hcos : p.cos = none)
      (hopens : cosOpens p.cvs cos = true) : Move id phase p { p with cos := some cos }
  | miss {p : Participant} (hphase : phase = .collectingCos) (hcos : p.cos = none)
      (hstands : p.standing = .committed) : Move id phase p { p with standing := .timedOut }
  | ask {p : Participant} (hphase : phase = .revealing) (hstands : p.standing = .committed) :
      Move id phase p { p with standing := .revealRequested }
  | reveal {p : Participant} {secret : Word} (hphase : phase = .revealing)
      (hstands : p.standing.awaitsSecret = true) (hopens : secretOpens p.cvs secret = true) :
      Move id phase p { p with secret := some secret, standing := .revealed }
  | expire {p : Participant} (hstands : p.standing = .revealRequested) :
      Move id phase p { p with standing := .timedOut }
  | recover {p : Participant} (hstands : p.standing = .timedOut) :
      Move id phase p { p with standing := .recovering }
  | recovered {p : Participant} {params : DelayParams} {proof : Recovery} {secret : Word}
      (hphase : phase ≠ .collectingCommits ∧ phase ≠ .abandoned)
      (hstands : p.standing.isResolved = false)
      (hcheck : (p.puzzle id).check params proof = .ok secret) :
      Move id phase p
        { p with secret := some secret, standing := .recovered, recovery := some proof }
  | exposed {p : Participant} {params : DelayParams} {proof : Recovery} {e : RecoveryError}
      (hphase : phase ≠ .collectingCommits ∧ phase ≠ .abandoned)
      (hstands : p.standing.isResolved = false)
      (hcheck : (p.puzzle id).check params proof = .error e) (hfault : e.isFault = true) :
      Move id phase p { p with standing := .faulted }
  | fault {p : Participant} (hstands : p.standing.isResolved = false) :
      Move id phase p { p with standing := .faulted }

namespace Participant.Move

variable {id : UInt64} {phase : Phase} {p q : Participant}

theorem commitment_eq (h : Move id phase p q) :
    q.operator = p.operator ∧ q.commitIndex = p.commitIndex ∧ q.cvs = p.cvs ∧
      q.sealed = p.sealed := by
  cases h <;> exact ⟨rfl, rfl, rfl, rfl⟩

theorem operator_eq (h : Move id phase p q) : q.operator = p.operator := h.commitment_eq.1

theorem cvs_eq (h : Move id phase p q) : q.cvs = p.cvs := h.commitment_eq.2.2.1

/-- First stages are disclosed in their phase only. -/
theorem cos_eq (h : Move id phase p q) (hphase : phase ≠ .collectingCos) : q.cos = p.cos := by
  cases h with
  | disclose h' _ _ => exact absurd h' hphase
  | _ => rfl

end Participant.Move

/-- An operator owes its secret from the request on until it is resolved. -/
theorem Standing.awaitsSecret_iff {s : Standing} :
    s.awaitsSecret = true ↔ s ≠ .committed ∧ s.isResolved = false := by
  cases s <;> decide

namespace Round

/-- Every record of the first list moved on to the record at its place in the
second. -/
abbrev Moved (r : Round) (records : List Participant) : Prop :=
  List.Forall₂ (Participant.Move r.id r.phase) r.records records

/-- What one operation can do to a round. -/
inductive Step : Round → Round → Prop where
  | stay (r : Round) : Step r r
  | commit {r : Round} {operator : Address} {cvs sealed : Word}
      (hphase : r.phase = .collectingCommits) (heligible : operator ∈ r.eligible)
      (hfresh : r.find? operator = none) :
      Step r { r with
        records := r.records ++
          [{ operator, commitIndex := r.records.length, cvs, sealed
             cos := none, secret := none, standing := .committed, recovery := none }] }
  | close {r : Round} {root : Word} (hphase : r.phase = .collectingCommits)
      (hroot : Beacon.merkleRoot (r.records.map (·.cvs)) = .ok root) :
      Step r { r with merkleRoot := some root, phase := .collectingCos }
  | abandon {r : Round} (hphase : r.phase = .collectingCommits) (hnone : r.records = []) :
      Step r { r with phase := .abandoned }
  | install {r : Round} {combined : Option Word} {order : List Address}
      (hphase : r.phase = .collectingCos) (hcovers : Covers order (r.disclosed.map (·.1))) :
      Step r { r with combined, order, cursor := 0, phase := .orderDetermined }
  | begin {r : Round} (hphase : r.phase = .orderDetermined) : Step r { r with phase := .revealing }
  | move {r : Round} {records : List Participant} {cursor : Nat} (hmoved : r.Moved records) :
      Step r { r with records, cursor }
  | complete {r : Round} (hcomplete : r.isComplete = true) : Step r { r with phase := .completed }

/-! ## Finding records -/

theorem mem_of_find? {r : Round} {a : Address} {p : Participant} (h : r.find? a = some p) :
    p ∈ r.records ∧ p.operator = a :=
  ⟨List.mem_of_find?_eq_some h, by simpa using List.find?_some h⟩

theorem find?_eq_none {r : Round} {a : Address} : r.find? a = none ↔ a ∉ r.committed := by
  simp [find?, committed, List.find?_eq_none]

/-- Where no operator has two records, a record is found by its operator. -/
theorem find?_eq_some {r : Round} (hd : r.committed.Nodup) {a : Address} {p : Participant} :
    r.find? a = some p ↔ p ∈ r.records ∧ p.operator = a := by
  refine ⟨mem_of_find?, ?_⟩
  intro ⟨hp, ha⟩
  cases hf : r.find? a with
  | none => exact absurd (ha ▸ List.mem_map_of_mem hp) (find?_eq_none.mp hf)
  | some q =>
    obtain ⟨hq, hqa⟩ := mem_of_find? hf
    rw [List.inj_on_of_nodup_map hd hq hp (hqa.trans ha.symm)]

theorem standingOf_eq_some {r : Round} {a : Address} {s : Standing} :
    r.standingOf a = some s ↔ ∃ p, r.find? a = some p ∧ p.standing = s := by
  simp [standingOf]

/-! ## Moving records -/

theorem moved_map {r : Round} {f : Participant → Participant}
    (h : ∀ p ∈ r.records, Participant.Move r.id r.phase p (f p)) : r.Moved (r.records.map f) :=
  List.forall₂_map_right_iff.mpr (List.forall₂_same.mpr h)

theorem moved_refl (r : Round) : r.Moved r.records :=
  List.forall₂_same.mpr fun p _ => .stay p

/-- A change to the record found is a move if it is one for that record. -/
theorem moved_modify {r : Round} (hd : r.committed.Nodup) {a : Address} {p : Participant}
    (hf : r.find? a = some p) {change : Participant → Participant}
    (hm : Participant.Move r.id r.phase p (change p)) : r.Moved (r.modify a change).records := by
  apply moved_map
  intro q hq
  -- Only the record found has this operator.
  split
  · rename_i hqa
    have hqp : q = p := Option.some_inj.mp (((find?_eq_some hd).mpr ⟨hq, hqa⟩).symm.trans hf)
    rw [hqp]
    exact hm
  · exact .stay q

theorem step_modify {r : Round} (hd : r.committed.Nodup) {a : Address} {p : Participant}
    (hf : r.find? a = some p) {change : Participant → Participant}
    (hm : Participant.Move r.id r.phase p (change p)) : Step r (r.modify a change) :=
  .move (moved_modify hd hf hm)

theorem Moved.map_eq {r : Round} {records : List Participant} (h : r.Moved records) {α : Type}
    {f : Participant → α} (hf : ∀ {p q}, Participant.Move r.id r.phase p q → f q = f p) :
    records.map f = r.records.map f := by
  rw [← List.forall₂_eq_eq_eq, List.forall₂_map_left_iff, List.forall₂_map_right_iff]
  exact List.Forall₂.flip (h.imp fun _ _ hm => hf hm)

theorem Moved.exists_of_mem {r : Round} {records : List Participant} (h : r.Moved records)
    {q : Participant} (hq : q ∈ records) :
    ∃ p ∈ r.records, Participant.Move r.id r.phase p q := by
  obtain ⟨i, hi, rfl⟩ := List.getElem_of_mem hq
  have hi' : i < r.records.length := h.length_eq ▸ hi
  exact ⟨r.records[i], List.getElem_mem hi', h.get hi' hi⟩

/-! ## What the operations do -/

theorem step_acceptCommit (r : Round) (operator : Address) (cvs sealed : Word) :
    Step r (r.acceptCommit operator cvs sealed).1 := by
  unfold acceptCommit
  split
  · exact .stay r
  rename_i hphase
  split
  · exact .stay r
  rename_i heligible
  split
  · exact .stay r
  rename_i hfresh
  refine .commit (by simpa using hphase) (by simpa [isEligible] using heligible) ?_
  simpa using hfresh

theorem merkleRoot_eq_error {leaves : List Word} {e : MerkleError}
    (h : Beacon.merkleRoot leaves = .error e) : leaves = [] := by
  unfold Beacon.merkleRoot MerkleTree.ofWords at h
  split at h
  · assumption
  · cases h

theorem step_closeCommits (r : Round) : Step r r.closeCommits.1 := by
  unfold closeCommits
  split
  · exact .stay r
  rename_i hphase
  split
  · rename_i e hroot
    exact .abandon (by simpa using hphase) (by simpa using merkleRoot_eq_error hroot)
  · rename_i root hroot
    exact .close (by simpa using hphase) hroot

theorem step_acceptCos {r : Round} (hd : r.committed.Nodup) (operator : Address) (cos : Word) :
    Step r (r.acceptCos operator cos).1 := by
  unfold acceptCos
  split
  · exact .stay r
  rename_i hphase
  split
  · exact .stay r
  rename_i p hf
  split
  · exact .stay r
  rename_i hcos
  split
  · exact .stay r
  rename_i hopens
  exact step_modify hd hf
    (.disclose (by simpa using hphase) (by simpa using hcos) (by simpa using hopens))

theorem step_closeCos (r : Round) : Step r r.closeCos.1 := by
  unfold closeCos
  split
  · exact .stay r
  rename_i hphase
  refine .move (moved_map ?_)
  intro p _
  unfold Missing.mark
  split
  · rename_i h
    simp only [Bool.and_eq_true, Option.isNone_iff_eq_none, decide_eq_true_eq] at h
    exact .miss (by simpa using hphase) h.1 h.2
  · exact .stay p

theorem step_installOrder (r : Round) (combined : Option Word) (order : List Address) :
    Step r (r.installOrder combined order).1 := by
  unfold installOrder
  split
  · exact .stay r
  rename_i hphase
  split
  · rename_i hcovers
    exact .install (by simpa using hphase) hcovers
  · exact .stay r

theorem step_beginRevealing (r : Round) : Step r r.beginRevealing.1 := by
  unfold beginRevealing
  split
  · exact .stay r
  rename_i hphase
  exact .begin (by simpa using hphase)

/-- The first operator ahead that only committed is asked, and those before it are
passed over; or there is none and all are passed over. -/
theorem requestFirst_spec (ahead : List Address) (r : Round) :
    (∃ passed a rest, ahead = passed ++ a :: rest ∧
      (∀ b ∈ passed, r.standingOf b ≠ some .committed) ∧ r.standingOf a = some .committed ∧
      requestFirst ahead r =
        ({ r with cursor := r.cursor + passed.length + 1 }.setStanding a .revealRequested, some a)) ∨
    (∀ b ∈ ahead, r.standingOf b ≠ some .committed) ∧
      requestFirst ahead r = ({ r with cursor := r.cursor + ahead.length }, none) := by
  induction ahead generalizing r with
  | nil => exact .inr ⟨by simp, rfl⟩
  | cons a ahead ih =>
    unfold requestFirst
    -- The cursor has no part in where operators stand.
    have hcursor : ∀ b, { r with cursor := r.cursor + 1 }.standingOf b = r.standingOf b :=
      fun _ => rfl
    simp only [hcursor]
    split
    · rename_i ha
      exact .inl ⟨[], a, ahead, rfl, by simp, ha, rfl⟩
    · rename_i ha
      have ih := ih { r with cursor := r.cursor + 1 }
      rcases ih with ⟨passed, b, rest, rfl, hpassed, hb, h⟩ | ⟨hall, h⟩
      · refine .inl ⟨a :: passed, b, rest, rfl, ?_, hb, ?_⟩
        · simpa [hcursor] using ⟨ha, hpassed⟩
        · rw [h, List.length_cons, Nat.add_right_comm r.cursor 1, Nat.add_assoc r.cursor]
      · refine .inr ⟨?_, ?_⟩
        · simpa [hcursor] using ⟨ha, hall⟩
        · rw [h, List.length_cons, Nat.add_right_comm r.cursor 1, Nat.add_assoc r.cursor]

theorem step_nextToRequest {r : Round} (hd : r.committed.Nodup) : Step r r.nextToRequest.1 := by
  unfold nextToRequest
  split
  · exact .stay r
  rename_i hphase
  rcases requestFirst_spec (r.order.drop r.cursor) r with ⟨_, a, _, _, _, ha, h⟩ | ⟨_, h⟩
  · obtain ⟨p, hf, hstands⟩ := standingOf_eq_some.mp ha
    rw [h]
    exact .move (moved_modify hd hf (.ask (by simpa using hphase) hstands))
  · rw [h]
    exact .move (moved_refl r)

theorem step_acceptReveal {r : Round} (hd : r.committed.Nodup) (operator : Address)
    (secret : Word) : Step r (r.acceptReveal operator secret).1 := by
  unfold acceptReveal
  split
  · exact .stay r
  rename_i hphase
  split
  · exact .stay r
  rename_i p hf
  split
  · exact .stay r
  rename_i hcommitted
  split
  · exact .stay r
  rename_i hresolved
  split
  · exact .stay r
  rename_i hopens
  have hawaits : p.standing.awaitsSecret = true :=
    Standing.awaitsSecret_iff.mpr ⟨hcommitted, by simpa using hresolved⟩
  exact step_modify hd hf (.reveal (by simpa using hphase) hawaits (by simpa using hopens))

theorem step_markTimedOut {r : Round} (hd : r.committed.Nodup) (operator : Address) :
    Step r (r.markTimedOut operator).1 := by
  unfold markTimedOut
  split
  · exact .stay r
  rename_i p hf
  split
  · exact .stay r
  rename_i hstands
  exact step_modify hd hf (.expire (by simpa using hstands))

theorem step_beginRecovery {r : Round} (hd : r.committed.Nodup) (operator : Address) :
    Step r (r.beginRecovery operator).1 := by
  unfold beginRecovery
  split
  · exact .stay r
  rename_i p hf
  split
  · exact .stay r
  rename_i hstands
  exact step_modify hd hf (.recover (by simpa using hstands))

theorem step_applyRecovery {r : Round} (hd : r.committed.Nodup) (params : DelayParams)
    (proof : Recovery) : Step r (r.applyRecovery params proof).1 := by
  unfold applyRecovery
  split
  · exact .stay r
  rename_i hphase
  rw [not_or] at hphase
  split
  · exact .stay r
  rename_i p hf
  split
  · exact .stay r
  rename_i hstands
  rw [Bool.not_eq_true] at hstands
  split
  · rename_i secret hcheck
    exact step_modify hd hf (.recovered hphase hstands hcheck)
  · rename_i e hcheck
    split
    · rename_i hfault
      exact step_modify hd hf (.exposed hphase hstands hcheck hfault)
    · exact .stay r

theorem step_markFaulted {r : Round} (hd : r.committed.Nodup) (operator : Address) :
    Step r (r.markFaulted operator).1 := by
  unfold markFaulted
  split
  · exact .stay r
  rename_i p hf
  split
  · exact .stay r
  rename_i hstands
  exact step_modify hd hf (.fault (by simpa using hstands))

theorem step_finish (r : Round) : Step r r.finish.1 := by
  unfold finish
  split
  · exact .stay r
  rename_i hcomplete
  exact .complete (by simpa using hcomplete)

/-- Whatever the operation and its arguments, it makes one step. -/
theorem step_perform {r : Round} (hd : r.committed.Nodup) (op : Operation) :
    Step r (r.perform op).1 := by
  cases op with
  | acceptCommit operator cvs sealed => exact step_acceptCommit r operator cvs sealed
  | closeCommits => exact step_closeCommits r
  | acceptCos operator cos => exact step_acceptCos hd operator cos
  | closeCos => exact step_closeCos r
  | installOrder combined order => exact step_installOrder r combined order
  | beginRevealing => exact step_beginRevealing r
  | nextToRequest => exact step_nextToRequest hd
  | acceptReveal operator secret => exact step_acceptReveal hd operator secret
  | markTimedOut operator => exact step_markTimedOut hd operator
  | beginRecovery operator => exact step_beginRecovery hd operator
  | applyRecovery params proof => exact step_applyRecovery hd params proof
  | markFaulted operator => exact step_markFaulted hd operator
  | finish => exact step_finish r

/-! ## Operations and the round as a whole -/

/-- Whether an operation takes a round to its next phase, and no record with it. -/
def Operation.turnsPhase : Operation → Bool
  | .closeCommits | .installOrder .. | .beginRevealing | .finish => true
  | _ => false

/-- What each operation can do to a round as a whole. Whatever the operation, it can be refused,
and all but those that turn the phase can change records where they are. -/
inductive Effect (r : Round) : Operation → Round → Prop where
  | refuse (op : Operation) : Effect r op r
  | amend {op : Operation} (hop : op.turnsPhase = false) (change : Participant → Participant) :
      Effect r op { r with records := r.records.map change }
  | commit {operator : Address} {cvs sealed : Word} (hphase : r.phase = .collectingCommits)
      (p : Participant) :
      Effect r (.acceptCommit operator cvs sealed) { r with records := r.records ++ [p] }
  | close (hphase : r.phase = .collectingCommits) (root : Word) :
      Effect r .closeCommits { r with merkleRoot := some root, phase := .collectingCos }
  | abandon (hphase : r.phase = .collectingCommits) :
      Effect r .closeCommits { r with phase := .abandoned }
  | install (hphase : r.phase = .collectingCos) (combined : Option Word) (order : List Address) :
      Effect r (.installOrder combined order)
        { r with combined, order, cursor := 0, phase := .orderDetermined }
  | begin (hphase : r.phase = .orderDetermined) :
      Effect r .beginRevealing { r with phase := .revealing }
  | search (hphase : r.phase = .revealing) (change : Participant → Participant) (cursor : Nat) :
      Effect r .nextToRequest { r with records := r.records.map change, cursor }
  | complete (hcomplete : r.isComplete = true) :
      Effect r .finish { r with phase := .completed }

theorem effect_nextToRequest (r : Round) : Effect r .nextToRequest r.nextToRequest.1 := by
  unfold nextToRequest
  split
  · exact .refuse _
  rename_i hphase
  have hphase := not_not.mp hphase
  rcases requestFirst_spec (r.order.drop r.cursor) r with ⟨passed, a, _, _, _, _, h⟩ | ⟨_, h⟩
  · rw [h]
    exact .search hphase _ _
  · have hsearch := Effect.search hphase (fun p => p) (r.cursor + (r.order.drop r.cursor).length)
    rw [h]
    rwa [List.map_id'] at hsearch

/-- Whatever the operation and its arguments, it has one of its effects. -/
theorem effect_perform (r : Round) (op : Operation) : Effect r op (r.perform op).1 := by
  cases op with
  | acceptCommit operator cvs sealed =>
    simp only [perform, answer, acceptCommit]
    repeat' split
    all_goals first | exact .refuse _ | exact .commit (not_not.mp ‹_›) _
  | closeCommits =>
    simp only [perform, answer, closeCommits]
    repeat' split
    all_goals first
      | exact .refuse _ | exact .abandon (not_not.mp ‹_›) | exact .close (not_not.mp ‹_›) _
  | installOrder combined order =>
    simp only [perform, answer, installOrder]
    repeat' split
    all_goals first | exact .refuse _ | exact .install (not_not.mp ‹_›) _ _
  | beginRevealing =>
    simp only [perform, answer, beginRevealing]
    split
    · exact .refuse _
    · rename_i hphase
      exact .begin (not_not.mp hphase)
  | nextToRequest => exact effect_nextToRequest r
  | finish =>
    simp only [perform, answer, finish]
    split
    · exact .refuse _
    · rename_i hcomplete
      exact .complete (by simpa using hcomplete)
  | _ =>
    simp only [perform, answer, acceptCos, closeCos, acceptReveal, markTimedOut, beginRecovery,
      applyRecovery, markFaulted, setStanding, modify]
    repeat' split
    all_goals first | exact .refuse _ | exact .amend rfl _

theorem id_perform (r : Round) (op : Operation) : (r.perform op).1.id = r.id := by
  have heffect := effect_perform r op
  generalize (r.perform op).1 = r' at heffect
  cases heffect <;> rfl

theorem length_records_perform {r : Round} {op : Operation}
    (hop : ∀ operator cvs sealed, op ≠ .acceptCommit operator cvs sealed) :
    (r.perform op).1.records.length = r.records.length := by
  have heffect := effect_perform r op
  generalize (r.perform op).1 = r' at heffect
  cases heffect with
  | commit => exact absurd rfl (hop _ _ _)
  | amend | search => exact List.length_map _
  | _ => rfl

theorem records_perform (r : Round) (op : Operation) (hop : op.turnsPhase = true) :
    (r.perform op).1.records = r.records := by
  have heffect := effect_perform r op
  generalize (r.perform op).1 = r' at heffect
  cases heffect with
  | amend hamends => exact absurd hop (Bool.eq_false_iff.mp hamends)
  | commit | search => cases hop
  | _ => rfl

/-! ## Runs -/

/-- Steps give no operator a second record. -/
theorem Step.nodup {r r' : Round} (h : Step r r') (hd : r.committed.Nodup) :
    r'.committed.Nodup := by
  cases h with
  | commit _ _ hfresh =>
    rw [committed, List.map_append, List.nodup_append]
    refine ⟨hd, List.nodup_singleton _, ?_⟩
    intro a ha b hb hab
    apply find?_eq_none.mp hfresh
    rw [List.map_singleton, List.mem_singleton] at hb
    subst hb hab
    exact ha
  | move hmoved =>
    rw [committed, hmoved.map_eq fun hm => hm.operator_eq]
    exact hd
  | _ => exact hd

/-- The rounds that operations lead to from new ones. -/
def Reachable (r : Round) : Prop :=
  ∃ id eligible ops, (start id eligible).run ops = r

theorem reachable_run (id : UInt64) (eligible : List Address) (ops : List Operation) :
    ((start id eligible).run ops).Reachable :=
  ⟨id, eligible, ops, rfl⟩

/-- What new rounds have and steps keep, reachable rounds have. The steps may be taken
to start where no operator has two records. -/
theorem Reachable.induct {P : Round → Prop} (hstart : ∀ id eligible, P (start id eligible))
    (hstep : ∀ r r', r.committed.Nodup → Step r r' → P r → P r') {r : Round} (h : r.Reachable) :
    r.committed.Nodup ∧ P r := by
  obtain ⟨id, eligible, ops, rfl⟩ := h
  have hrun : ∀ (ops : List Operation) (r : Round), r.committed.Nodup ∧ P r →
      (r.run ops).committed.Nodup ∧ P (r.run ops) := by
    intro ops
    induction ops with
    | nil => exact fun _ h => h
    | cons op ops ih =>
      intro r ⟨hd, hp⟩
      have hs := step_perform hd op
      exact ih _ ⟨hs.nodup hd, hstep _ _ hd hs hp⟩
  exact hrun ops _ ⟨List.nodup_nil, hstart id eligible⟩

theorem Reachable.nodup {r : Round} (h : r.Reachable) : r.committed.Nodup :=
  (h.induct (P := fun _ => True) (fun _ _ => trivial) fun _ _ _ _ _ => trivial).1

end Round

end Beacon
