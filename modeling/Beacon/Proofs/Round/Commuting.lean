import Beacon.Proofs.Round.Frozen
import Beacon.Proofs.Round.Refusal

/-
  Operations on different operators. Six operations are about one operator
  (`Operation.subject`): they take in what it discloses or reveals, end the wait for it, or
  settle what becomes of its secret. Such an operation reads the number and the phase of
  the round and the record of its operator, and writes to this record only
  (`own_perform`). So two of them about different operators can change places: the round
  comes to the same, and both get the same answers (`perform_comm`).

  Over a run it follows that an operator is served as if the others were not there
  (`run_alike`), and that the round comes to the same in whatever order the operations of
  different operators arrive (`run_eq_of_turns`).
-/

namespace Beacon

namespace Round

/-- The operator an operation is about, if it is about the record of one only. -/
def Operation.subject : Operation → Option Address
  | .acceptCos operator _ => some operator
  | .acceptReveal operator _ => some operator
  | .markTimedOut operator => some operator
  | .beginRecovery operator => some operator
  | .applyRecovery _ proof => some proof.operator
  | .markFaulted operator => some operator
  | _ => none

variable {r r' : Round} {a b : Address} {f g op : Operation}

/-! ## Changes to records of different operators -/

theorem modify_eq_self (r : Round) (a : Address) : (r.modify a fun p => p) = r := by
  simp [modify]

theorem modify_modify_comm {change change' : Participant → Participant}
    (h : ∀ p, (change p).operator = p.operator) (h' : ∀ p, (change' p).operator = p.operator)
    (hab : a ≠ b) : (r.modify a change).modify b change' = (r.modify b change').modify a change := by
  simp only [modify, List.map_map]
  congr 1
  apply List.map_congr_left
  intro p _
  by_cases ha : p.operator = a
  · simp [ha, h, hab]
  · by_cases hb : p.operator = b
    · simp [hb, h', hab.symm]
    · simp [ha, hb]

/-! ## What an operation about one operator reads and writes -/

structure Alike (a : Address) (r r' : Round) : Prop where
  id_eq : r'.id = r.id
  phase_eq : r'.phase = r.phase
  find?_eq : r'.find? a = r.find? a

theorem Alike.refl (a : Address) (r : Round) : Alike a r r := ⟨rfl, rfl, rfl⟩

theorem alike_modify {change : Participant → Participant}
    (h : ∀ p, (change p).operator = p.operator) (hab : a ≠ b) : Alike a r (r.modify b change) := by
  refine ⟨rfl, rfl, ?_⟩
  rw [find?_modify h]
  simp only [if_neg hab, Option.map_id']

/-- What is done to the record of the operator, and what is answered, is the same in
every round that is the same for it. -/
def Own {α : Type} (a : Address) (r : Round) (act : Round → Round × Except RoundError α) : Prop :=
  ∃ (change : Participant → Participant) (x : Except RoundError α),
    (∀ p, (change p).operator = p.operator) ∧ ∀ r', Alike a r r' → act r' = (r'.modify a change, x)

section Own

variable {α : Type} {act : Round → Round × Except RoundError α}

theorem own_answered (x : Except RoundError α) (h : ∀ r', Alike a r r' → act r' = (r', x)) :
    Own a r act :=
  ⟨fun p => p, x, fun _ => rfl, fun r' hr' => by rw [h r' hr', modify_eq_self]⟩

theorem Own.answer (h : Own a r act) (reply : α → Reply) :
    Own a r fun r => Round.answer reply (act r) := by
  obtain ⟨change, x, hchange, hact⟩ := h
  exact ⟨change, x.map reply, hchange, fun r' hr' => by simp only [Round.answer, hact r' hr']⟩

end Own

theorem own_acceptCos (r : Round) (a : Address) (cos : Word) : Own a r (·.acceptCos a cos) := by
  by_cases hphase : r.phase = .collectingCos
  · cases hf : r.find? a with
    | none =>
      exact own_answered (.error (.notCommitted a)) fun r' h => by
        simp [acceptCos, h.phase_eq, h.find?_eq, hphase, hf]
    | some p =>
      by_cases hcos : p.cos.isSome
      · exact own_answered (.ok false) fun r' h => by
          simp [acceptCos, h.phase_eq, h.find?_eq, hphase, hf, hcos]
      by_cases hopens : cosOpens p.cvs cos
      · exact ⟨fun p => { p with cos := some cos }, .ok true, fun _ => rfl, fun r' h => by
          simp [acceptCos, h.phase_eq, h.find?_eq, hphase, hf, hcos, hopens]⟩
      · exact own_answered (.error (.invalidCos a)) fun r' h => by
          simp [acceptCos, h.phase_eq, h.find?_eq, hphase, hf, hcos, hopens]
  · exact own_answered (.error (.wrongPhase .collectingCos r.phase)) fun r' h => by
      simp [acceptCos, h.phase_eq, hphase]

theorem own_acceptReveal (r : Round) (a : Address) (secret : Word) :
    Own a r (·.acceptReveal a secret) := by
  by_cases hphase : r.phase = .revealing
  · cases hf : r.find? a with
    | none =>
      exact own_answered (.error (.notCommitted a)) fun r' h => by
        simp [acceptReveal, h.phase_eq, h.find?_eq, hphase, hf]
    | some p =>
      by_cases hcommitted : p.standing = .committed
      · exact own_answered (.error (.notRequested a)) fun r' h => by
          simp [acceptReveal, h.phase_eq, h.find?_eq, hphase, hf, hcommitted]
      by_cases hresolved : p.standing.isResolved
      · exact own_answered (.error (.alreadyResolved a)) fun r' h => by
          simp [acceptReveal, h.phase_eq, h.find?_eq, hphase, hf, hcommitted, hresolved]
      by_cases hopens : secretOpens p.cvs secret
      · exact ⟨fun p => { p with secret := some secret, standing := .revealed }, .ok p.standing,
          fun _ => rfl, fun r' h => by
            simp [acceptReveal, h.phase_eq, h.find?_eq, hphase, hf, hcommitted, hresolved, hopens]⟩
      · exact own_answered (.error (.invalidSecret a)) fun r' h => by
          simp [acceptReveal, h.phase_eq, h.find?_eq, hphase, hf, hcommitted, hresolved, hopens]
  · exact own_answered (.error (.wrongPhase .revealing r.phase)) fun r' h => by
      simp [acceptReveal, h.phase_eq, hphase]

theorem own_markTimedOut (r : Round) (a : Address) : Own a r (·.markTimedOut a) := by
  cases hf : r.find? a with
  | none =>
    exact own_answered (.error (.notCommitted a)) fun r' h => by
      simp [markTimedOut, h.find?_eq, hf]
  | some p =>
    by_cases hstands : p.standing = .revealRequested
    · exact ⟨fun p => { p with standing := .timedOut }, .ok true, fun _ => rfl, fun r' h => by
        simp [markTimedOut, setStanding, h.find?_eq, hf, hstands]⟩
    · exact own_answered (.ok false) fun r' h => by
        simp [markTimedOut, h.find?_eq, hf, hstands]

theorem own_beginRecovery (r : Round) (a : Address) : Own a r (·.beginRecovery a) := by
  cases hf : r.find? a with
  | none =>
    exact own_answered (.error (.notCommitted a)) fun r' h => by
      simp [beginRecovery, h.find?_eq, hf]
  | some p =>
    by_cases hstands : p.standing = .timedOut
    · exact ⟨fun p => { p with standing := .recovering }, .ok (p.puzzle r.id), fun _ => rfl,
        fun r' h => by simp [beginRecovery, setStanding, h.id_eq, h.find?_eq, hf, hstands]⟩
    · exact own_answered (.error (.invalidState a p.standing)) fun r' h => by
        simp [beginRecovery, h.find?_eq, hf, hstands]

theorem own_applyRecovery (r : Round) (params : DelayParams) (proof : Recovery) :
    Own proof.operator r (·.applyRecovery params proof) := by
  by_cases hphase : r.phase = .collectingCommits ∨ r.phase = .abandoned
  · exact own_answered (.error (.wrongPhase .revealing r.phase)) fun r' h => by
      simp [applyRecovery, h.phase_eq, hphase]
  cases hf : r.find? proof.operator with
  | none =>
    exact own_answered (.error (.notCommitted proof.operator)) fun r' h => by
      simp [applyRecovery, h.phase_eq, h.find?_eq, hphase, hf]
  | some p =>
    by_cases hresolved : p.standing.isResolved
    · exact own_answered (.error (.alreadyResolved proof.operator)) fun r' h => by
        simp [applyRecovery, h.phase_eq, h.find?_eq, hphase, hf, hresolved]
    cases hcheck : (p.puzzle r.id).check params proof with
    | ok secret =>
      exact ⟨fun p => { p with
          secret := some secret, standing := .recovered, recovery := some proof },
        .ok .recovered, fun _ => rfl, fun r' h => by
          simp [applyRecovery, h.phase_eq, h.id_eq, h.find?_eq, hphase, hf, hresolved, hcheck]⟩
    | error e =>
      by_cases hfault : e.isFault
      · exact ⟨fun p => { p with standing := .faulted }, .ok .faulted, fun _ => rfl,
          fun r' h => by
            simp [applyRecovery, setStanding, h.phase_eq, h.id_eq, h.find?_eq, hphase, hf,
              hresolved, hcheck, hfault]⟩
      · exact own_answered (.error (.invalidRecovery e)) fun r' h => by
          simp [applyRecovery, h.phase_eq, h.id_eq, h.find?_eq, hphase, hf, hresolved, hcheck,
            hfault]

theorem own_markFaulted (r : Round) (a : Address) : Own a r (·.markFaulted a) := by
  cases hf : r.find? a with
  | none =>
    exact own_answered (.error (.notCommitted a)) fun r' h => by
      simp [markFaulted, h.find?_eq, hf]
  | some p =>
    by_cases hresolved : p.standing.isResolved
    · exact own_answered (.error (.alreadyResolved a)) fun r' h => by
        simp [markFaulted, h.find?_eq, hf, hresolved]
    · exact ⟨fun p => { p with standing := .faulted }, .ok (), fun _ => rfl, fun r' h => by
        simp [markFaulted, setStanding, h.find?_eq, hf, hresolved]⟩

/-- An operation about one operator does the same to its record, and answers the same, in
every round that is the same for it; and it does nothing else. -/
theorem own_perform (hop : op.subject = some a) (r : Round) :
    ∃ (change : Participant → Participant) (x : Except RoundError Reply),
      (∀ p, (change p).operator = p.operator) ∧
        ∀ r', Alike a r r' → r'.perform op = (r'.modify a change, x) := by
  cases op with
  | acceptCos operator cos =>
    cases hop
    exact (own_acceptCos r a cos).answer .accepted
  | acceptReveal operator secret =>
    cases hop
    exact (own_acceptReveal r a secret).answer .stands
  | markTimedOut operator =>
    cases hop
    exact (own_markTimedOut r a).answer .accepted
  | beginRecovery operator =>
    cases hop
    exact (own_beginRecovery r a).answer .puzzle
  | applyRecovery params proof =>
    cases hop
    exact (own_applyRecovery r params proof).answer .stands
  | markFaulted operator =>
    cases hop
    exact (own_markFaulted r a).answer fun _ => .done
  | _ => cases hop

/-! ## Two operations -/

theorem alike_perform (hop : op.subject = some b) (hab : a ≠ b) : Alike a r (r.perform op).1 := by
  obtain ⟨change, x, hchange, hact⟩ := own_perform hop r
  rw [hact r (.refl b r)]
  exact alike_modify hchange hab

/-- Two operations about different operators can change places, whatever they are and
wherever the round stands: the round comes to the same, and each is answered the same. -/
theorem perform_comm (hf : f.subject = some a) (hg : g.subject = some b) (hab : a ≠ b)
    (r : Round) :
    ((r.perform f).1.perform g).1 = ((r.perform g).1.perform f).1 ∧
      ((r.perform g).1.perform f).2 = (r.perform f).2 ∧
      ((r.perform f).1.perform g).2 = (r.perform g).2 := by
  obtain ⟨change, x, hchange, hact⟩ := own_perform hf r
  obtain ⟨change', x', hchange', hact'⟩ := own_perform hg r
  have hfirst : r.perform f = (r.modify a change, x) := hact r (.refl a r)
  have hfirst' : r.perform g = (r.modify b change', x') := hact' r (.refl b r)
  have hsecond : (r.modify a change).perform g = ((r.modify a change).modify b change', x') :=
    hact' _ (alike_modify hchange hab.symm)
  have hsecond' : (r.modify b change').perform f = ((r.modify b change').modify a change, x) :=
    hact _ (alike_modify hchange' hab)
  rw [hfirst, hfirst', hsecond, hsecond']
  exact ⟨modify_modify_comm hchange hchange' hab, rfl, rfl⟩

/-- The round in which `a` was asked for its secret and `b` missed its first stage. -/
def oneAsked (a b : Address) (cvs cos : Word) : Round :=
  (start 1 [a, b]).run
    [.acceptCommit a cvs Word.zero, .acceptCommit b Word.zero Word.zero, .closeCommits,
     .acceptCos a cos, .closeCos, .installOrder none [a], .beginRevealing, .nextToRequest]

theorem oneAsked_perform {a b : Address} {cvs cos secret : Word} (hab : a ≠ b)
    (hcos : cosOpens cvs cos = true) (hsecret : secretOpens cvs secret = true) :
    ((oneAsked a b cvs cos).perform (.acceptReveal a secret)).2 = .ok (.stands .revealRequested) ∧
      ((oneAsked a b cvs cos).perform (.beginRecovery b)).2 =
        .ok (.puzzle ⟨1, b, Word.zero, Word.zero⟩) := by
  constructor <;>
    simp [oneAsked, run, perform, answer, start, acceptCommit, isEligible, find?, closeCommits,
      Beacon.merkleRoot, MerkleTree.ofWords, Except.map, acceptCos, modify, closeCos, Missing.mark,
      installOrder, disclosed, Covers, beginRevealing, nextToRequest, requestFirst, standingOf,
      setStanding, acceptReveal, Standing.isResolved, beginRecovery, Participant.puzzle, hab,
      hab.symm, hcos, hsecret]

theorem perform_comm_two : ∃ (r : Round) (a b : Address) (secret : Word) (p : Puzzle),
    r.Reachable ∧ a ≠ b ∧
    (r.perform (.acceptReveal a secret)).2 = .ok (.stands .revealRequested) ∧
    (r.perform (.beginRecovery b)).2 = .ok (.puzzle p) ∧
    ((r.perform (.acceptReveal a secret)).1.perform (.beginRecovery b)).1 =
      ((r.perform (.beginRecovery b)).1.perform (.acceptReveal a secret)).1 ∧
    ((r.perform (.beginRecovery b)).1.perform (.acceptReveal a secret)).2 =
      .ok (.stands .revealRequested) ∧
    ((r.perform (.acceptReveal a secret)).1.perform (.beginRecovery b)).2 = .ok (.puzzle p) := by
  have hab : (⟨.ofNat 20 1⟩ : Address) ≠ ⟨.ofNat 20 2⟩ := by decide
  have hopens : secretOpens (secondStage (firstStage (.ofNat 32 7))) (.ofNat 32 7) = true :=
    beq_self_eq_true _
  obtain ⟨hreveal, hrecover⟩ := oneAsked_perform hab hopens hopens
  obtain ⟨hround, hfirst, hsecond⟩ :=
    perform_comm (f := .acceptReveal ⟨.ofNat 20 1⟩ (.ofNat 32 7)) (g := .beginRecovery ⟨.ofNat 20 2⟩)
      rfl rfl hab (oneAsked _ _ _ _)
  exact ⟨_, _, _, _, _, reachable_run 1 _ _, hab, hreveal, hrecover, hround,
    hfirst.trans hreveal, hsecond.trans hrecover⟩

/-! ## Runs of operations about one operator each -/

def turns (a : Address) (ops : List Operation) : List Operation :=
  ops.filter (·.subject = some a)

/-- What the operations of a list that are about an operator are answered. -/
def answersTo (a : Address) : Round → List Operation → List (Except RoundError Reply)
  | _, [] => []
  | r, op :: ops =>
    if op.subject = some a then (r.perform op).2 :: answersTo a (r.perform op).1 ops
    else answersTo a (r.perform op).1 ops

/-- Every operation of a list is about one operator. -/
def OneEach (ops : List Operation) : Prop := ∀ op ∈ ops, op.subject.isSome = true

theorem Alike.perform (h : Alike a r r') (hop : op.subject = some a) :
    Alike a (r.perform op).1 (r'.perform op).1 ∧ (r'.perform op).2 = (r.perform op).2 := by
  obtain ⟨change, x, hchange, hact⟩ := own_perform hop r
  rw [hact r (.refl a r), hact r' h]
  exact ⟨⟨h.id_eq, h.phase_eq, by rw [find?_modify hchange, find?_modify hchange, h.find?_eq]⟩, rfl⟩

theorem Alike.trans {r'' : Round} (h : Alike a r r') (h' : Alike a r' r'') : Alike a r r'' :=
  ⟨h'.id_eq.trans h.id_eq, h'.phase_eq.trans h.phase_eq, h'.find?_eq.trans h.find?_eq⟩

/-- An operator is served as if the others were not there: its record and the answers to
it are those of a run of the operations about it alone. -/
theorem run_alike {ops : List Operation} (hops : OneEach ops) (h : Alike a r r') :
    Alike a (r.run (turns a ops)) (r'.run ops) ∧
      r'.answersTo a ops = r.answersTo a (turns a ops) := by
  induction ops generalizing r r' with
  | nil => exact ⟨h, rfl⟩
  | cons op ops ih =>
    have hrest : OneEach ops := fun op hop => hops op (.tail _ hop)
    obtain ⟨b, hb⟩ := Option.isSome_iff_exists.mp (hops op (.head _))
    by_cases hab : a = b
    · subst hab
      obtain ⟨halike, hanswer⟩ := h.perform hb
      obtain ⟨hlast, hanswers⟩ := ih hrest halike
      have hturns : turns a (op :: ops) = op :: turns a ops := by simp [turns, hb]
      rw [hturns, answersTo, answersTo, if_pos hb, if_pos hb, hanswer, hanswers]
      exact ⟨hlast, rfl⟩
    · have hne : op.subject ≠ some a := by simp [hb, Ne.symm hab]
      have hturns : turns a (op :: ops) = turns a ops := by simp [turns, hne]
      rw [hturns, answersTo, if_neg hne]
      exact ih hrest (h.trans (alike_perform hb hab))

theorem records_eq_filterMap (hd : r.committed.Nodup) :
    r.records = r.committed.filterMap r.find? := by
  have hfound : ∀ p ∈ r.records, r.find? p.operator = some p := fun p hp =>
    (find?_eq_some hd).mpr ⟨hp, rfl⟩
  rw [committed, List.filterMap_map]
  exact (List.filterMap_eq_map_iff_forall_eq_some.mpr hfound |>.trans (List.map_id' _)).symm

/-- Such a run leaves everything but the records, and who has one. -/
theorem run_eq_with_records {ops : List Operation} (hops : OneEach ops) (r : Round) :
    ∃ records, r.run ops = { r with records } ∧ records.map (·.operator) = r.committed := by
  induction ops generalizing r with
  | nil => exact ⟨r.records, rfl, rfl⟩
  | cons op ops ih =>
    obtain ⟨a, ha⟩ := Option.isSome_iff_exists.mp (hops op (.head _))
    obtain ⟨change, x, hchange, hact⟩ := own_perform ha r
    obtain ⟨records, hrun, hcommitted⟩ := ih (fun op hop => hops op (.tail _ hop)) (r.perform op).1
    refine ⟨records, hrun.trans ?_, hcommitted.trans ?_⟩
    · rw [hact r (.refl a r)]
      rfl
    · rw [hact r (.refl a r), committed, committed, modify, List.map_map]
      apply List.map_congr_left
      intro p _
      simp only [Function.comp_apply]
      split
      · exact hchange p
      · rfl

/-- In whatever order the operations about different operators arrive, the round comes
to the same and every operator gets the same answers, as long as each gets its own turns
in the same order. -/
theorem run_eq_of_turns (hd : r.committed.Nodup) {ops ops' : List Operation}
    (hops : OneEach ops) (hops' : OneEach ops') (h : ∀ a, turns a ops = turns a ops') :
    r.run ops = r.run ops' ∧ ∀ a, r.answersTo a ops = r.answersTo a ops' := by
  have hsame : ∀ a, (r.run ops).find? a = (r.run ops').find? a ∧
      r.answersTo a ops = r.answersTo a ops' := by
    intro a
    obtain ⟨halike, hanswers⟩ := run_alike hops (.refl a r)
    obtain ⟨halike', hanswers'⟩ := run_alike hops' (.refl a r)
    rw [halike.find?_eq, halike'.find?_eq, hanswers, hanswers', h a]
    exact ⟨rfl, rfl⟩
  refine ⟨?_, fun a => (hsame a).2⟩
  obtain ⟨records, hrun, hcommitted⟩ := run_eq_with_records hops r
  obtain ⟨records', hrun', hcommitted'⟩ := run_eq_with_records hops' r
  -- Both runs have the same operators, in the same order, with the same records.
  have hrecords : (r.run ops).records = (r.run ops').records := by
    have hc : (r.run ops).committed = r.committed := by rw [hrun, committed, hcommitted]
    have hc' : (r.run ops').committed = r.committed := by rw [hrun', committed, hcommitted']
    rw [records_eq_filterMap (hc ▸ hd), records_eq_filterMap (hc' ▸ hd), hc, hc',
      funext fun a => (hsame a).1]
  rw [hrun, hrun'] at hrecords ⊢
  obtain rfl : records = records' := hrecords
  rfl

end Round

end Beacon
