import Beacon.Proofs.Round.Refusal

/-
  What the file of a record says (`Participant.onFile`). A record is written when its operator
  says something or is resolved. It is not written when its operator is asked, nor when the wait
  for it ends; the recovery that is begun then is. So a file lags behind in where the operator
  stands and in nothing else, and an operator that timed out with a first stage does not lag: it
  disclosed after its time was up, and the record was written then.

  What is done to one operator leaves all other records and makes the operator's one that is
  written as it stands (`Due`). Whatever else is done to a round leaves what its files say
  (`onFile_turnsPhase` and those that follow).
-/

namespace Beacon

namespace Participant

variable {p q : Participant}

def standingOnFile (p : Participant) : Standing :=
  match p.standing with
  | .revealRequested => .committed
  | .timedOut => if p.cos = none then .committed else .timedOut
  | s => s

/-- The record as its file has it. -/
def onFile (p : Participant) : Participant := { p with standing := p.standingOnFile }

theorem onFile_of_standingOnFile (h : p.standingOnFile = p.standing) : p.onFile = p := by
  rw [onFile, h]

/-- An operator that nothing is awaited of, or that is being recovered, is on file where it
stands. -/
theorem onFile_of_ne (hasked : p.standing ≠ .revealRequested) (hlate : p.standing ≠ .timedOut) :
    p.onFile = p := by
  apply onFile_of_standingOnFile
  unfold standingOnFile
  split
  · contradiction
  · contradiction
  · rfl

/-- So is one that timed out and then disclosed its first stage. -/
theorem onFile_of_cos (hasked : p.standing ≠ .revealRequested) (hcos : p.cos ≠ none) :
    p.onFile = p := by
  apply onFile_of_standingOnFile
  unfold standingOnFile
  split
  · contradiction
  · rename_i hlate
    rw [if_neg hcos, hlate]
  · rfl

/-- Nothing is written when the wait for first stages ends. -/
theorem onFile_mark (p : Participant) : (Round.Missing.mark p).onFile = p.onFile := by
  unfold Round.Missing.mark
  split
  · rename_i hmissing
    simp only [Bool.and_eq_true, Option.isNone_iff_eq_none, decide_eq_true_eq] at hmissing
    simp [onFile, standingOnFile, hmissing]
  · rfl

theorem onFile_request (h : p.standing = .committed) :
    { p with standing := .revealRequested }.onFile = p.onFile := by
  simp [onFile, standingOnFile, h]

end Participant

namespace Round

variable {r r' : Round} {a : Address}

/-! ## Operators that are asked -/

/-- Nobody is asked while commits or first stages are collected. -/
def Unasked (r : Round) : Prop :=
  r.phase = .collectingCommits ∨ r.phase = .collectingCos →
    ∀ p ∈ r.records, p.standing ≠ .revealRequested

theorem Unasked.step (hr : r.Unasked) (hs : Step r r') : r'.Unasked := by
  intro hphase
  cases hs with
  | stay => exact hr hphase
  | commit hcommits =>
    intro p hp
    rcases List.mem_append.mp hp with hp | hp
    · exact hr (.inl hcommits) p hp
    · rw [List.mem_singleton.mp hp]
      nofun
  | close hcommits => exact hr (.inl hcommits)
  | abandon hcommits => exact hr (.inl hcommits)
  | install => simp at hphase
  | begin => simp at hphase
  | move hmoved =>
    intro q hq
    obtain ⟨p, hp, hm⟩ := hmoved.exists_of_mem hq
    cases hm with
    | stay => exact hr hphase q hp
    | disclose => exact hr hphase p hp
    | ask hrevealing => simp [hrevealing] at hphase
    | _ => nofun
  | complete => simp at hphase

theorem Reachable.unasked (h : r.Reachable) : r.Unasked :=
  (h.induct (fun _ _ _ => nofun) fun _ _ _ hs hr => hr.step hs).2

/-! ## One record is to be written -/

/-- The records are as they were, but for that of one operator, which is written as it stands. -/
structure Due (a : Address) (r r' : Round) : Prop where
  others : ∀ p ∈ r'.records, p.operator ≠ a → p ∈ r.records
  own : ∀ p ∈ r'.records, p.operator = a → p.onFile = p

theorem exists_of_mem_modify {change : Participant → Participant} {q : Participant}
    (hq : q ∈ (r.modify a change).records) :
    ∃ p ∈ r.records, p.operator = a ∧ q = change p ∨ p.operator ≠ a ∧ q = p := by
  obtain ⟨p, hp, rfl⟩ := List.mem_map.mp hq
  by_cases hpa : p.operator = a
  · exact ⟨p, hp, .inl ⟨hpa, if_pos hpa⟩⟩
  · exact ⟨p, hp, .inr ⟨hpa, if_neg hpa⟩⟩

theorem mem_of_mem_modify {change : Participant → Participant}
    (hchange : ∀ p, (change p).operator = p.operator) :
    ∀ q ∈ (r.modify a change).records, q.operator ≠ a → q ∈ r.records := by
  intro q hq hqa
  obtain ⟨p, hp, ⟨hpa, rfl⟩ | ⟨-, rfl⟩⟩ := exists_of_mem_modify hq
  · exact absurd ((hchange p).trans hpa) hqa
  · exact hp

theorem due_modify {change : Participant → Participant}
    (hchange : ∀ p, (change p).operator = p.operator)
    (hwritten : ∀ p ∈ r.records, (change p).onFile = change p) : r.Due a (r.modify a change) where
  others := mem_of_mem_modify hchange
  own := by
    intro q hq hqa
    obtain ⟨p, hp, ⟨-, rfl⟩ | ⟨hpa, rfl⟩⟩ := exists_of_mem_modify hq
    · exact hwritten p hp
    · exact absurd hqa hpa

theorem due_setStanding {s : Standing} (hasked : s ≠ .revealRequested) (hlate : s ≠ .timedOut) :
    r.Due a (r.setStanding a s) :=
  due_modify (fun _ => rfl) fun _ _ => Participant.onFile_of_ne hasked hlate

theorem due_acceptCommit {cvs sealed : Word} {place : Nat}
    (h : r.acceptCommit a cvs sealed = (r', .ok place)) : r.Due a r' := by
  unfold acceptCommit at h
  split at h
  · cases h
  split at h
  · cases h
  split at h
  · cases h
  rename_i hfresh
  rw [Option.not_isSome_iff_eq_none, find?_eq_none] at hfresh
  cases h
  refine ⟨fun p hp hpa => ?_, fun p hp hpa => ?_⟩
  · refine (List.mem_append.mp hp).resolve_right fun hnew => hpa ?_
    rw [List.mem_singleton.mp hnew]
  · rcases List.mem_append.mp hp with hp | hnew
    · exact absurd (hpa ▸ List.mem_map_of_mem hp) hfresh
    · rw [List.mem_singleton.mp hnew]
      rfl

/-- A first stage is written, also that of an operator that timed out before. -/
theorem due_acceptCos (hr : r.Reachable) {cos : Word} (h : r.acceptCos a cos = (r', .ok true)) :
    r.Due a r' := by
  unfold acceptCos at h
  split at h
  · cases h
  rename_i hphase
  split at h
  · cases h
  split at h
  · cases h
  split at h
  · cases h
  cases h
  have hunasked := hr.unasked (.inr (not_not.mp hphase))
  exact due_modify (fun _ => rfl) fun p hp => Participant.onFile_of_cos (hunasked p hp) nofun

theorem due_acceptReveal {secret : Word} {before : Standing}
    (h : r.acceptReveal a secret = (r', .ok before)) : r.Due a r' := by
  unfold acceptReveal at h
  split at h
  · cases h
  split at h
  · cases h
  split at h
  · cases h
  split at h
  · cases h
  split at h
  · cases h
  cases h
  exact due_modify (fun _ => rfl) fun _ _ => Participant.onFile_of_ne nofun nofun

theorem due_applyRecovery {params : DelayParams} {proof : Recovery} {now : Standing}
    (h : r.applyRecovery params proof = (r', .ok now)) : r.Due proof.operator r' := by
  unfold applyRecovery at h
  split at h
  · cases h
  split at h
  · cases h
  split at h
  · cases h
  split at h
  · cases h
    exact due_modify (fun _ => rfl) fun _ _ => Participant.onFile_of_ne nofun nofun
  split at h
  · cases h
    exact due_setStanding nofun nofun
  · cases h

theorem due_markFaulted (h : r.markFaulted a = (r', .ok ())) : r.Due a r' := by
  unfold markFaulted at h
  split at h
  · cases h
  split at h
  · cases h
  cases h
  exact due_setStanding nofun nofun

theorem due_beginRecovery {puzzle : Puzzle} (h : r.beginRecovery a = (r', .ok puzzle)) :
    r.Due a r' := by
  unfold beginRecovery at h
  split at h
  · cases h
  split at h
  · cases h
  cases h
  exact due_setStanding nofun nofun

/-- The end of the wait for an operator concerns its record only, and leaves it to be recovered. -/
theorem markTimedOut_eq_true (h : r.markTimedOut a = (r', .ok true)) :
    (∀ p ∈ r'.records, p.operator ≠ a → p ∈ r.records) ∧ r'.standingOf a = some .timedOut := by
  unfold markTimedOut at h
  split at h
  · cases h
  rename_i p hf
  split at h
  · cases h
  cases h
  refine ⟨mem_of_mem_modify (by exact fun _ => rfl), ?_⟩
  rw [standingOf, setStanding, find?_modify (by exact fun _ => rfl), hf, Option.map_some,
    if_pos rfl]
  rfl

/-! ## Nothing is to be written -/

/-- The files of a round say of its records what those of the other say. -/
def SameOnFile (r r' : Round) : Prop :=
  r'.records.map (·.onFile) = r.records.map (·.onFile)

theorem SameOnFile.of_records (h : r'.records = r.records) : r.SameOnFile r' := by
  rw [SameOnFile, h]

theorem onFile_turnsPhase (r : Round) (op : Operation) (hop : op.turnsPhase = true) :
    r.SameOnFile (r.perform op).1 :=
  .of_records (r.records_perform op hop)

theorem onFile_closeCos (r : Round) : r.SameOnFile r.closeCos.1 := by
  unfold closeCos
  split
  · exact .of_records rfl
  · show (r.records.map Missing.mark).map (·.onFile) = _
    rw [List.map_map]
    exact List.map_congr_left fun p _ => p.onFile_mark

theorem onFile_nextToRequest (hd : r.committed.Nodup) : r.SameOnFile r.nextToRequest.1 := by
  unfold nextToRequest
  split
  · exact .of_records rfl
  rcases requestFirst_spec (r.order.drop r.cursor) r with ⟨_, a, _, _, _, ha, hnext⟩ | ⟨_, hnext⟩
  · rw [hnext]
    show (r.records.map fun p =>
      if p.operator = a then { p with standing := .revealRequested } else p).map (·.onFile) = _
    rw [List.map_map]
    refine List.map_congr_left fun p hp => ?_
    rw [Function.comp_apply]
    split
    · -- The operator that is asked only committed before.
      rename_i hpa
      rw [standingOf, (find?_eq_some hd).mpr ⟨hp, hpa⟩, Option.map_some, Option.some_inj] at ha
      exact Participant.onFile_request ha
    · rfl
  · rw [hnext]
    exact .of_records rfl

end Round

end Beacon
