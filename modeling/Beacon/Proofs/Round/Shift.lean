import Beacon.Proofs.Round.Closing

/-
  How operators change their standing. A step of a round says what a record can go
  through, but not which operation it takes. Here each change is listed with the operation
  that makes it and where the operator stood (`Shift`), and every operation on any round
  makes one of them or none (`shift_perform`).

  So one can read off by what an operator comes to be awaited, and that a resolved
  operator stays where it is. Only the search for the next operator asks anyone
  (`Shift.of_requested`).
-/

namespace Beacon

namespace Round

variable {r : Round} {a b : Address} {op : Operation} {p : Participant} {s : Standing}

/-- How an operation changes where an operator stands, if it does. -/
inductive Shift (r : Round) (a : Address) :
    Operation → Option Standing → Option Standing → Prop where
  | stay (op : Operation) (s : Option Standing) : Shift r a op s s
  | commit {cvs sealed : Word} (hphase : r.phase = .collectingCommits) :
      Shift r a (.acceptCommit a cvs sealed) none (some .committed)
  | miss {p : Participant} (hphase : r.phase = .collectingCos) (hf : r.find? a = some p)
      (hcos : p.cos = none) : Shift r a .closeCos (some .committed) (some .timedOut)
  | ask (hnext : r.nextToRequest.2 = some a) :
      Shift r a .nextToRequest (some .committed) (some .revealRequested)
  | reveal {secret : Word} {s : Standing} (hstands : s.awaitsSecret = true) :
      Shift r a (.acceptReveal a secret) (some s) (some .revealed)
  | expire : Shift r a (.markTimedOut a) (some .revealRequested) (some .timedOut)
  | recover : Shift r a (.beginRecovery a) (some .timedOut) (some .recovering)
  | recovered {params : DelayParams} {proof : Recovery} {s : Standing}
      (hoperator : proof.operator = a) (hstands : s.isResolved = false) :
      Shift r a (.applyRecovery params proof) (some s) (some .recovered)
  | convicted {params : DelayParams} {proof : Recovery} {s : Standing}
      (hoperator : proof.operator = a) (hstands : s.isResolved = false) :
      Shift r a (.applyRecovery params proof) (some s) (some .faulted)
  | fault {s : Standing} (hstands : s.isResolved = false) :
      Shift r a (.markFaulted a) (some s) (some .faulted)

namespace Shift

variable {s t : Option Standing}

/-- Only the search for the next operator asks anyone for its secret. -/
theorem of_requested (h : Shift r a op s (some .revealRequested)) :
    s = some .revealRequested ∨ op = .nextToRequest ∧ r.nextToRequest.2 = some a := by
  cases h with
  | stay => exact .inl rfl
  | ask hnext => exact .inr ⟨rfl, hnext⟩

theorem of_committed (h : Shift r a op s (some .committed)) :
    s = some .committed ∨ r.phase = .collectingCommits := by
  cases h with
  | stay => exact .inl rfl
  | commit hphase => exact .inr hphase

theorem of_awaited {x : Standing} (h : Shift r a op s (some x)) (hx : x.awaitsSecret = true) :
    (∃ y, s = some y ∧ y.awaitsSecret = true) ∨
      (op = .nextToRequest ∧ r.nextToRequest.2 = some a) ∨
      op = .closeCos ∧ ∃ p, r.find? a = some p ∧ p.cos = none ∧ s = some .committed ∧
        x = .timedOut := by
  cases h with
  | stay => exact .inl ⟨x, rfl, hx⟩
  | miss _ hf hcos => exact .inr (.inr ⟨rfl, _, hf, hcos, rfl, rfl⟩)
  | ask hnext => exact .inr (.inl ⟨rfl, hnext⟩)
  | expire => exact .inl ⟨_, rfl, rfl⟩
  | recover => exact .inl ⟨_, rfl, rfl⟩
  | _ => cases hx

theorem of_resolved {x : Standing} (h : Shift r a op (some x) t) (hx : x.isResolved = true) :
    t = some x := by
  cases h with
  | stay => rfl
  | reveal hstands =>
    rw [(Standing.awaitsSecret_iff.mp hstands).2] at hx
    cases hx
  | recovered _ hstands =>
    rw [hstands] at hx
    cases hx
  | convicted _ hstands =>
    rw [hstands] at hx
    cases hx
  | fault hstands =>
    rw [hstands] at hx
    cases hx
  | _ => cases hx

end Shift

/-! ## What the operations change -/

theorem standingOf_of_find? (hf : r.find? a = some p) : r.standingOf a = some p.standing := by
  rw [standingOf, hf, Option.map_some]

theorem standingOf_modify {change : Participant → Participant}
    (hchange : ∀ p, (change p).operator = p.operator) : (r.modify b change).standingOf a =
      (r.find? a).map fun p => if a = b then (change p).standing else p.standing := by
  rw [standingOf, find?_modify hchange, Option.map_map]
  congr 1
  funext p
  show (if a = b then change p else p).standing = _
  split <;> rfl

theorem shift_modify {change : Participant → Participant}
    (hchange : ∀ p, (change p).operator = p.operator) (hf : r.find? b = some p)
    (h : Shift r b op (some p.standing) (some (change p).standing)) (a : Address) :
    Shift r a op (r.standingOf a) ((r.modify b change).standingOf a) := by
  rw [standingOf_modify hchange]
  by_cases hab : a = b
  · subst hab
    rw [standingOf_of_find? hf, hf, Option.map_some, if_pos rfl]
    exact h
  · simp only [if_neg hab]
    exact .stay op _

theorem shift_setStanding (hf : r.find? b = some p) (h : Shift r b op (some p.standing) (some s))
    (a : Address) : Shift r a op (r.standingOf a) ((r.setStanding b s).standingOf a) :=
  shift_modify (by exact fun _ => rfl) hf h a

theorem shift_acceptCommit (r : Round) (operator : Address) (cvs sealed : Word) (a : Address) :
    Shift r a (.acceptCommit operator cvs sealed) (r.standingOf a)
      ((r.acceptCommit operator cvs sealed).1.standingOf a) := by
  unfold acceptCommit
  split
  · exact .stay _ _
  rename_i hphase
  split
  · exact .stay _ _
  split
  · exact .stay _ _
  rename_i hfresh
  -- The new record is found under its operator, and only where there was none.
  simp only [standingOf, find?, List.find?_append]
  cases hf : r.records.find? (·.operator = a) with
  | some p => exact .stay _ _
  | none =>
    by_cases ha : operator = a
    · subst ha
      simpa using Shift.commit (not_not.mp hphase)
    · simpa [ha] using Shift.stay _ none

theorem shift_closeCos (r : Round) (a : Address) :
    Shift r a .closeCos (r.standingOf a) (r.closeCos.1.standingOf a) := by
  unfold closeCos
  split
  · exact .stay _ _
  rename_i hphase
  show Shift r a _ _ (r.closed.standingOf a)
  rw [standingOf_closed]
  cases hf : r.find? a with
  | none => rw [standingOf, hf]; exact .stay _ _
  | some p =>
    rw [standingOf_of_find? hf, Option.map_some, Missing.mark]
    split
    · rename_i hmissed
      simp only [Bool.and_eq_true, Option.isNone_iff_eq_none, decide_eq_true_eq] at hmissed
      rw [hmissed.2]
      exact .miss (not_not.mp hphase) hf hmissed.1
    · exact .stay _ _

theorem nextToRequest_of_ne (hphase : r.phase ≠ .revealing) : r.nextToRequest = (r, none) :=
  if_pos hphase

theorem nextToRequest_of_revealing (hphase : r.phase = .revealing) :
    r.nextToRequest = requestFirst (r.order.drop r.cursor) r :=
  if_neg (not_not.mpr hphase)

theorem shift_nextToRequest (r : Round) (a : Address) :
    Shift r a .nextToRequest (r.standingOf a) (r.nextToRequest.1.standingOf a) := by
  by_cases hphase : r.phase = .revealing
  · have hnext := nextToRequest_of_revealing hphase
    rcases requestFirst_spec (r.order.drop r.cursor) r with ⟨passed, b, rest, -, -, hb, h⟩ | ⟨-, h⟩
    · rw [h] at hnext
      obtain ⟨p, hf, hstands⟩ := standingOf_eq_some.mp hb
      rw [hnext]
      -- The cursor has no part in where operators stand.
      show Shift r a _ _ ((r.setStanding b .revealRequested).standingOf a)
      apply shift_setStanding hf
      rw [hstands]
      apply Shift.ask
      rw [hnext]
    · rw [h] at hnext
      rw [hnext]
      exact .stay _ _
  · rw [nextToRequest_of_ne hphase]
    exact .stay _ _

theorem shift_acceptCos (r : Round) (operator : Address) (cos : Word) (a : Address) :
    Shift r a (.acceptCos operator cos) (r.standingOf a)
      ((r.acceptCos operator cos).1.standingOf a) := by
  unfold acceptCos
  split
  · exact .stay _ _
  split
  · exact .stay _ _
  rename_i p hf
  split
  · exact .stay _ _
  split
  · exact .stay _ _
  · exact shift_modify (by exact fun _ => rfl) hf (.stay _ _) a

theorem shift_acceptReveal (r : Round) (operator : Address) (secret : Word) (a : Address) :
    Shift r a (.acceptReveal operator secret) (r.standingOf a)
      ((r.acceptReveal operator secret).1.standingOf a) := by
  unfold acceptReveal
  split
  · exact .stay _ _
  split
  · exact .stay _ _
  rename_i p hf
  split
  · exact .stay _ _
  rename_i hcommitted
  split
  · exact .stay _ _
  rename_i hresolved
  split
  · exact .stay _ _
  have hawaits : p.standing.awaitsSecret = true :=
    Standing.awaitsSecret_iff.mpr ⟨hcommitted, by simpa using hresolved⟩
  exact shift_modify (by exact fun _ => rfl) hf (.reveal hawaits) a

theorem shift_markTimedOut (r : Round) (operator a : Address) :
    Shift r a (.markTimedOut operator) (r.standingOf a)
      ((r.markTimedOut operator).1.standingOf a) := by
  unfold markTimedOut
  split
  · exact .stay _ _
  rename_i p hf
  split
  · exact .stay _ _
  rename_i hstands
  apply shift_setStanding hf
  rw [not_not.mp hstands]
  exact .expire

theorem shift_beginRecovery (r : Round) (operator a : Address) :
    Shift r a (.beginRecovery operator) (r.standingOf a)
      ((r.beginRecovery operator).1.standingOf a) := by
  unfold beginRecovery
  split
  · exact .stay _ _
  rename_i p hf
  split
  · exact .stay _ _
  rename_i hstands
  apply shift_setStanding hf
  rw [not_not.mp hstands]
  exact .recover

theorem shift_applyRecovery (r : Round) (params : DelayParams) (proof : Recovery) (a : Address) :
    Shift r a (.applyRecovery params proof) (r.standingOf a)
      ((r.applyRecovery params proof).1.standingOf a) := by
  unfold applyRecovery
  split
  · exact .stay _ _
  split
  · exact .stay _ _
  rename_i p hf
  split
  · exact .stay _ _
  rename_i hstands
  rw [Bool.not_eq_true] at hstands
  split
  · exact shift_modify (by exact fun _ => rfl) hf (.recovered rfl hstands) a
  · split
    · exact shift_setStanding hf (.convicted rfl hstands) a
    · exact .stay _ _

theorem shift_markFaulted (r : Round) (operator a : Address) :
    Shift r a (.markFaulted operator) (r.standingOf a)
      ((r.markFaulted operator).1.standingOf a) := by
  unfold markFaulted
  split
  · exact .stay _ _
  rename_i p hf
  split
  · exact .stay _ _
  rename_i hstands
  rw [Bool.not_eq_true] at hstands
  exact shift_setStanding hf (.fault hstands) a

/-- Whatever the operation, each operator makes one of the shifts, or stays. -/
theorem shift_perform (r : Round) (op : Operation) (a : Address) :
    Shift r a op (r.standingOf a) ((r.perform op).1.standingOf a) := by
  -- The operations that turn the phase leave the records alone.
  have hsame (hop : op.turnsPhase = true) :
      Shift r a op (r.standingOf a) ((r.perform op).1.standingOf a) := by
    rw [standingOf, standingOf, find?, find?, r.records_perform op hop]
    exact .stay _ _
  cases op with
  | acceptCommit operator cvs sealed => exact shift_acceptCommit r operator cvs sealed a
  | closeCommits => exact hsame rfl
  | acceptCos operator cos => exact shift_acceptCos r operator cos a
  | closeCos => exact shift_closeCos r a
  | installOrder combined order => exact hsame rfl
  | beginRevealing => exact hsame rfl
  | nextToRequest => exact shift_nextToRequest r a
  | acceptReveal operator secret => exact shift_acceptReveal r operator secret a
  | markTimedOut operator => exact shift_markTimedOut r operator a
  | beginRecovery operator => exact shift_beginRecovery r operator a
  | applyRecovery params proof => exact shift_applyRecovery r params proof a
  | markFaulted operator => exact shift_markFaulted r operator a
  | finish => exact hsame rfl

end Round

end Beacon
