import Beacon.Proofs.Round.Turns

/-
  Nobody is forgotten. Closing the wait for first stages times out those that only committed
  and did not disclose; so if the order is fixed right then, whoever has still only committed
  is on it (`committed_disclosed`), and ahead of the cursor.

  From there on this is an invariant (`Remaining`): nobody comes to have only committed, and
  the cursor passes nobody who has without asking. So once nobody is left to ask, everyone
  was asked, is timed out or being recovered, or is resolved (`nobody_forgotten`).
-/

namespace Beacon

namespace Round

variable {r : Round} {op : Operation} {ops : List Operation} {id : UInt64}
  {eligible : List Address} {a : Address}

/-- Whenever the order is fixed, the wait for first stages was closed right before. -/
def InstallsOnClosing (r : Round) (ops : List Operation) : Prop :=
  ∀ before combined order after, ops = before ++ .installOrder combined order :: after →
    ((r.run before).perform (.installOrder combined order)).2 = .ok .done →
      ∃ earlier, before = earlier ++ [.closeCos]

theorem InstallsOnClosing.of_append {ops' : List Operation}
    (h : InstallsOnClosing r (ops ++ ops')) : InstallsOnClosing r ops := by
  rintro before combined order after rfl hdone
  exact h before combined order (after ++ ops') (by simp) hdone

/-- Once the order is fixed, whoever has only committed is ahead of the cursor. -/
def Remaining (r : Round) : Prop :=
  r.phase.pastOrder → ∀ a, r.standingOf a = some .committed → a ∈ r.ahead

/-- After the wait for first stages is closed, whoever has only committed did disclose. -/
theorem committed_disclosed (hd : r.committed.Nodup) (hphase : r.phase = .collectingCos)
    (hstands : r.closeCos.1.standingOf a = some .committed) :
    a ∈ r.closeCos.1.disclosed.map (·.1) := by
  rw [closeCos_eq hphase] at hstands ⊢
  rw [disclosed_closed, mem_disclosed hd]
  rw [standingOf_closed, Option.map_eq_some_iff] at hstands
  obtain ⟨p, hf, hmark⟩ := hstands
  refine ⟨p, hf, Option.isSome_iff_ne_none.mpr fun hcos => ?_⟩
  -- Without a first stage the operator is timed out, or stood elsewhere before.
  unfold Missing.mark at hmark
  split at hmark
  · cases hmark
  · rename_i hkept
    simp [hcos, hmark] at hkept

/-- The order keeps to the invariant if it is fixed right after the wait is closed. -/
theorem remaining_installOrder {combined : Option Word} {order : List Address}
    (hd : r.committed.Nodup)
    (hdone : (r.closeCos.1.perform (.installOrder combined order)).2 = .ok .done) :
    (r.closeCos.1.perform (.installOrder combined order)).1.Remaining := by
  obtain ⟨hphase, -, -, hcovers⟩ := installOrder_eq_done.mp hdone
  have hbefore : r.phase = .collectingCos := by
    unfold closeCos at hphase
    split at hphase
    · exact hphase
    · exact hphase
  intro _ a hstands
  rw [installOrder_of_done hdone] at hstands ⊢
  exact hcovers a (committed_disclosed hd hbefore hstands)

theorem ahead_ask {passed rest : List Address} {b : Address} {s : Standing}
    (hahead : r.ahead = passed ++ b :: rest) :
    ({ r with cursor := r.cursor + passed.length + 1 }.setStanding b s).ahead = rest := by
  show r.order.drop (r.cursor + (passed.length + 1)) = rest
  rw [← List.drop_drop]
  show r.ahead.drop (passed.length + 1) = rest
  rw [hahead, List.drop_length_add_append]
  rfl

/-- Every operation keeps to the invariant, if fixing the order does. -/
theorem Remaining.perform (h : r.Remaining)
    (hinstall : ∀ combined order, op = .installOrder combined order →
      (r.perform op).2 = .ok .done → (r.perform op).1.Remaining) :
    (r.perform op).1.Remaining := by
  have hkept : ∀ a, r.phase.pastOrder → (r.perform op).1.standingOf a = some .committed →
      r.standingOf a = some .committed := by
    intro a hp hstands
    have hshift := shift_perform r op a
    rw [hstands] at hshift
    refine hshift.of_committed.resolve_right fun hphase => ?_
    simp [Phase.pastOrder, hphase] at hp
  have hturn := turn_perform r op
  generalize hafter : (r.perform op).1 = r' at hkept hinstall hturn ⊢
  generalize (r.perform op).2 = result at hinstall hturn
  intro hp a hstands
  cases hturn with
  | stay horder hcursor hphase =>
    rw [ahead, horder, hcursor]
    exact h (hphase hp) a (hkept a (hphase hp) hstands)
  | fix => exact hinstall _ _ rfl rfl hp a hstands
  | @ask passed rest b hphase hahead hpassed hb =>
    have hcommitted := hkept a (.inr (.inl hphase)) hstands
    have hmem := h (.inr (.inl hphase)) a hcommitted
    rw [hahead, List.mem_append, List.mem_cons] at hmem
    rw [ahead_ask hahead]
    rcases hmem with hmem | rfl | hmem
    · exact absurd hcommitted (hpassed a hmem)
    · obtain ⟨p, hf, -⟩ := standingOf_eq_some.mp hb
      have hasked : some Standing.revealRequested = some .committed := by
        rw [← hstands, setStanding, standingOf_modify (by exact fun _ => rfl)]
        show _ = (r.find? a).map _
        rw [hf, Option.map_some, if_pos rfl]
      cases hasked
    · exact hmem
  | exhaust hphase hpassed =>
    have hcommitted := hkept a (.inr (.inl hphase)) hstands
    exact absurd hcommitted (hpassed a (h (.inr (.inl hphase)) a hcommitted))

/-- Every run that fixes the order right after the wait is closed keeps to the invariant. -/
theorem remaining_run (h : InstallsOnClosing (start id eligible) ops) :
    ((start id eligible).run ops).Remaining := by
  induction ops using List.reverseRecOn with
  | nil => exact fun hp => by simp [run, start, Phase.pastOrder] at hp
  | append_singleton ops op ih =>
    rw [run_append]
    refine (ih h.of_append).perform ?_
    rintro combined order rfl hdone
    obtain ⟨earlier, rfl⟩ := h ops combined order [] rfl hdone
    rw [run_append] at hdone ⊢
    exact remaining_installOrder (reachable_run id eligible earlier).nodup hdone

/-! ## When nobody is left to ask -/

def NobodyWaits (r : Round) : Prop :=
  r.phase ≠ .collectingCommits ∧ ∀ a, r.standingOf a ≠ some .committed

/-- A search that found nobody to ask has passed everyone who was ahead. -/
theorem nobodyWaits_of_exhausted (h : r.Remaining) (hphase : r.phase = .revealing)
    (hnone : (r.perform .nextToRequest).2 = .ok (.next none)) :
    (r.perform .nextToRequest).1.NobodyWaits := by
  rw [perform, nextToRequest_of_revealing hphase] at hnone ⊢
  rcases requestFirst_spec (r.order.drop r.cursor) r with ⟨_, a, _, -, -, -, hfound⟩ | ⟨hpassed, hall⟩
  · rw [hfound] at hnone
    cases hnone
  · rw [hall]
    refine ⟨fun hcommits => ?_, fun a hstands => ?_⟩
    · exact absurd (hphase.symm.trans hcommits) (by decide)
    · exact hpassed a (h (.inr (.inl hphase)) a hstands) hstands

theorem NobodyWaits.run (hr : r.Reachable) (h : r.NobodyWaits) (ops : List Operation) :
    (r.run ops).NobodyWaits := by
  induction ops generalizing r with
  | nil => exact h
  | cons op ops ih =>
    refine ih (hr.perform op) ⟨((step_perform hr.nodup op).frozen h.1).1, fun a hstands => ?_⟩
    have hshift := shift_perform r op a
    rw [hstands] at hshift
    rcases hshift.of_committed with hcommitted | hphase
    · exact h.2 a hcommitted
    · exact h.1 hphase

theorem awaitsSecret_cases {s : Standing} :
    s.awaitsSecret = true ↔ s = .revealRequested ∨ s = .timedOut ∨ s = .recovering := by
  cases s <;> decide

/-- During the reveals a round is kept from completion by those that are not resolved. -/
theorem isComplete_eq_false (hphase : r.phase = .revealing) :
    r.isComplete = false ↔ ∃ p ∈ r.records, p.standing.isResolved = false := by
  simp [isComplete, hphase]

/-- Nobody has only committed: everyone was asked, is timed out or being recovered, or is
resolved. So the reveals are kept from completion just by those that are awaited. -/
structure NobodyForgotten (r : Round) : Prop where
  uncommitted : ∀ p ∈ r.records, p.standing ≠ .committed
  standings : ∀ p ∈ r.records, p.standing = .revealRequested ∨ p.standing = .timedOut ∨
    p.standing = .recovering ∨ p.standing.isResolved = true
  incomplete_iff : r.phase = .revealing → (r.isComplete = false ↔ ∃ p ∈ r.records,
    p.standing = .revealRequested ∨ p.standing = .timedOut ∨ p.standing = .recovering)

theorem NobodyWaits.nobodyForgotten (hd : r.committed.Nodup) (h : r.NobodyWaits) :
    r.NobodyForgotten := by
  have huncommitted : ∀ p ∈ r.records, p.standing ≠ .committed := by
    intro p hp hcommitted
    apply h.2 p.operator
    rw [standingOf_of_find? ((find?_eq_some hd).mpr ⟨hp, rfl⟩), hcommitted]
  have hawaits : ∀ p ∈ r.records, p.standing.isResolved = false ↔
      p.standing = .revealRequested ∨ p.standing = .timedOut ∨ p.standing = .recovering := by
    intro p hp
    rw [← awaitsSecret_cases, Standing.awaitsSecret_iff]
    exact (and_iff_right (huncommitted p hp)).symm
  refine ⟨huncommitted, ?_, ?_⟩
  · intro p hp
    cases hresolved : p.standing.isResolved with
    | true => exact .inr (.inr (.inr rfl))
    | false =>
      rcases (hawaits p hp).mp hresolved with hs | hs | hs
      · exact .inl hs
      · exact .inr (.inl hs)
      · exact .inr (.inr (.inl hs))
  · intro hphase
    rw [isComplete_eq_false hphase]
    exact exists_congr fun p => and_congr_right fun hp => hawaits p hp

/-- If the order is fixed right after the wait for first stages is closed, then from the
first search on that finds nobody left to ask, nobody is forgotten. -/
theorem nobody_forgotten (id : UInt64) (eligible : List Address) (before after : List Operation)
    (hinstalls : InstallsOnClosing (start id eligible) (before ++ .nextToRequest :: after))
    (hphase : ((start id eligible).run before).phase = .revealing)
    (hnone : (((start id eligible).run before).perform .nextToRequest).2 = .ok (.next none)) :
    ((start id eligible).run (before ++ .nextToRequest :: after)).NobodyForgotten := by
  have hr := reachable_run id eligible before
  have hwaits := nobodyWaits_of_exhausted (remaining_run hinstalls.of_append) hphase hnone
  refine NobodyWaits.nobodyForgotten (reachable_run id eligible _).nodup ?_
  rw [run_append]
  exact hwaits.run (hr.perform .nextToRequest) after

/-- A course in which `a` discloses and is asked, and `b` misses its first stage. -/
def askAndMiss (a b : Address) (cvs cos : Word) : List Operation :=
  [.acceptCommit a cvs Word.zero, .acceptCommit b Word.zero Word.zero, .closeCommits,
   .acceptCos a cos, .closeCos, .installOrder none [a], .beginRevealing, .nextToRequest]

theorem run_askAndMiss {b : Address} {cvs cos : Word} (hab : a ≠ b)
    (hcos : cosOpens cvs cos = true) :
    ((start 1 [a, b]).run (askAndMiss a b cvs cos)).phase = .revealing ∧
      (((start 1 [a, b]).run (askAndMiss a b cvs cos)).perform .nextToRequest).2 =
        .ok (.next none) ∧
      ((start 1 [a, b]).run (askAndMiss a b cvs cos ++ [.nextToRequest])).records.map
        (·.standing) = [.revealRequested, .timedOut] := by
  simp [askAndMiss, run, perform, answer, start, acceptCommit, isEligible, find?, closeCommits,
    Beacon.merkleRoot, MerkleTree.ofWords, Except.map, acceptCos, modify, closeCos, Missing.mark,
    installOrder, disclosed, Covers, beginRevealing, nextToRequest, requestFirst, standingOf,
    setStanding, hab, hab.symm, hcos]

theorem installsOnClosing_askAndMiss {b : Address} {cvs cos : Word} :
    InstallsOnClosing (start 1 [a, b]) (askAndMiss a b cvs cos ++ [.nextToRequest]) := by
  intro before combined order after h _
  -- Fixing the order is the sixth of the operations.
  obtain ⟨rfl, -⟩ : before = [.acceptCommit a cvs Word.zero, .acceptCommit b Word.zero Word.zero,
      .closeCommits, .acceptCos a cos, .closeCos] ∧ combined = none := by
    simp [askAndMiss, List.cons_eq_append_iff] at h
    exact ⟨h.1, h.2.1.1⟩
  exact ⟨[.acceptCommit a cvs Word.zero, .acceptCommit b Word.zero Word.zero, .closeCommits,
    .acceptCos a cos], rfl⟩

theorem nobody_forgotten_two : ∃ before : List Operation,
    InstallsOnClosing (start 1 [⟨.ofNat 20 1⟩, ⟨.ofNat 20 2⟩]) (before ++ [.nextToRequest]) ∧
    ((start 1 [⟨.ofNat 20 1⟩, ⟨.ofNat 20 2⟩]).run before).phase = .revealing ∧
    (((start 1 [⟨.ofNat 20 1⟩, ⟨.ofNat 20 2⟩]).run before).perform .nextToRequest).2 =
      .ok (.next none) ∧
    ((start 1 [⟨.ofNat 20 1⟩, ⟨.ofNat 20 2⟩]).run (before ++ [.nextToRequest])).records.map
      (·.standing) = [.revealRequested, .timedOut] ∧
    ((start 1 [⟨.ofNat 20 1⟩, ⟨.ofNat 20 2⟩]).run (before ++ [.nextToRequest])).NobodyForgotten := by
  have hab : (⟨.ofNat 20 1⟩ : Address) ≠ ⟨.ofNat 20 2⟩ := by decide
  have hopens : cosOpens (secondStage (.ofNat 32 7)) (.ofNat 32 7) = true := beq_self_eq_true _
  obtain ⟨hphase, hnone, hstands⟩ := run_askAndMiss hab hopens
  exact ⟨_, installsOnClosing_askAndMiss, hphase, hnone, hstands,
    nobody_forgotten 1 _ _ [] installsOnClosing_askAndMiss hphase hnone⟩

end Round

end Beacon
