import Beacon.Proofs.Round.Coherence
import Beacon.Proofs.Round.Frozen
import Mathlib.Data.List.Induction
import Mathlib.Logic.Relation

/-
  The history of a round. A phase moves along the edges of `Phase.Edge` and the standing
  of an operator along those of `Standing.Edge`; no edge leads back, and none leaves a
  resolved standing. Records are added by commits only, and what is written once stays:
  the commitment of a record, its first stage, secret and recovery, and the root, the
  combined value and the order of the round.

  One operation moves phase and standings by one edge at most (`advance_perform`), and a
  run by a path of edges (`history_run`). The second follows from the first by induction
  on the run; the first is read off the steps, with the invariant that a record without
  a resolved standing has neither secret nor recovery to lose.
-/

namespace Beacon

open Relation (ReflGen ReflTransGen)

inductive Phase.Edge : Phase → Phase → Prop where
  | close : Edge .collectingCommits .collectingCos
  | abandon : Edge .collectingCommits .abandoned
  | install : Edge .collectingCos .orderDetermined
  | begin : Edge .orderDetermined .revealing
  | complete : Edge .revealing .completed

inductive Standing.Edge : Standing → Standing → Prop where
  | ask : Edge .committed .revealRequested
  | miss : Edge .committed .timedOut
  | expire : Edge .revealRequested .timedOut
  | recover : Edge .timedOut .recovering
  | reveal {s : Standing} (h : s.awaitsSecret = true) : Edge s .revealed
  | recovered {s : Standing} (h : s.isResolved = false) : Edge s .recovered
  | fault {s : Standing} (h : s.isResolved = false) : Edge s .faulted

theorem Standing.Edge.unresolved {s t : Standing} (h : Edge s t) : s.isResolved = false := by
  cases h with
  | reveal h => exact (awaitsSecret_iff.mp h).2
  | recovered h => exact h
  | fault h => exact h
  | _ => rfl

theorem Phase.Edge.ne_collectingCommits {p q : Phase} (h : Edge p q) : q ≠ .collectingCommits := by
  cases h <;> decide

theorem Phase.Edge.pastOrder {p q : Phase} (h : Edge p q) (hp : p.pastOrder) : q.pastOrder := by
  cases h <;> simp [Phase.pastOrder] at hp ⊢

/-! ## Records -/

/-- A record goes on as another: nothing written is lost or changed, the standing moves
as `moves` says, and a resolved one stays. -/
structure Participant.Continues (moves : Standing → Standing → Prop) (p q : Participant) :
    Prop where
  operator_eq : q.operator = p.operator
  commitIndex_eq : q.commitIndex = p.commitIndex
  cvs_eq : q.cvs = p.cvs
  sealed_eq : q.sealed = p.sealed
  cos_kept : ∀ cos, p.cos = some cos → q.cos = some cos
  secret_kept : ∀ secret, p.secret = some secret → q.secret = some secret
  recovery_kept : ∀ proof, p.recovery = some proof → q.recovery = some proof
  moves : moves p.standing q.standing
  final : p.standing.isResolved = true → q.standing = p.standing

namespace Participant.Continues

variable {p q s : Participant}

theorem refl {moves : Standing → Standing → Prop} (hm : ∀ s, moves s s) (p : Participant) :
    p.Continues moves p :=
  ⟨rfl, rfl, rfl, rfl, fun _ h => h, fun _ h => h, fun _ h => h, hm _, fun _ => rfl⟩

/-- A record that goes on by an edge of its standing has no secret and no recovery yet. -/
theorem of_edge {id : UInt64} (h : p.Coherent id) (hedge : Standing.Edge p.standing q.standing)
    (hcommitment : q.operator = p.operator ∧ q.commitIndex = p.commitIndex ∧ q.cvs = p.cvs ∧
      q.sealed = p.sealed) (hcos : q.cos = p.cos) :
    p.Continues (ReflGen Standing.Edge) q := by
  obtain ⟨hsecret, hrecovery⟩ := h.unresolved hedge.unresolved
  refine ⟨hcommitment.1, hcommitment.2.1, hcommitment.2.2.1, hcommitment.2.2.2,
    fun _ h => hcos.trans h, ?_, ?_, .single hedge, ?_⟩
  · simp [hsecret]
  · simp [hrecovery]
  · intro hresolved
    rw [hedge.unresolved] at hresolved
    cases hresolved

theorem trans (h : p.Continues (ReflTransGen Standing.Edge) q)
    (h' : q.Continues (ReflGen Standing.Edge) s) :
    p.Continues (ReflTransGen Standing.Edge) s where
  operator_eq := h'.operator_eq.trans h.operator_eq
  commitIndex_eq := h'.commitIndex_eq.trans h.commitIndex_eq
  cvs_eq := h'.cvs_eq.trans h.cvs_eq
  sealed_eq := h'.sealed_eq.trans h.sealed_eq
  cos_kept cos hcos := h'.cos_kept cos (h.cos_kept cos hcos)
  secret_kept secret hs := h'.secret_kept secret (h.secret_kept secret hs)
  recovery_kept proof hp := h'.recovery_kept proof (h.recovery_kept proof hp)
  moves := h.moves.trans h'.moves.to_reflTransGen
  final hp := by
    have hq := h.final hp
    exact (h'.final (hq ▸ hp)).trans hq

end Participant.Continues

theorem Participant.Move.continues {id : UInt64} {phase : Phase} {p q : Participant}
    (hm : Move id phase p q) (h : p.Coherent id) : p.Continues (ReflGen Standing.Edge) q := by
  have hcommitment := hm.commitment_eq
  cases hm with
  | stay => exact .refl (fun _ => .refl) p
  | disclose hphase hcos hopens =>
    refine ⟨rfl, rfl, rfl, rfl, ?_, fun _ h => h, fun _ h => h, .refl, fun _ => rfl⟩
    simp [hcos]
  | miss _ _ hstands => exact .of_edge h (hstands ▸ .miss) hcommitment rfl
  | ask _ hstands => exact .of_edge h (hstands ▸ .ask) hcommitment rfl
  | reveal _ hstands _ => exact .of_edge h (.reveal hstands) hcommitment rfl
  | expire hstands => exact .of_edge h (hstands ▸ .expire) hcommitment rfl
  | recover hstands => exact .of_edge h (hstands ▸ .recover) hcommitment rfl
  | recovered _ hstands _ => exact .of_edge h (.recovered hstands) hcommitment rfl
  | exposed _ hstands _ _ => exact .of_edge h (.fault hstands) hcommitment rfl
  | fault hstands => exact .of_edge h (.fault hstands) hcommitment rfl

namespace Round

variable {r r' : Round} {op : Operation}

/-! ## What is not written yet -/

/-- Before its phase nothing stands where the root, the combined value and the order will. -/
structure Unwritten (r : Round) : Prop where
  root : ¬r.phase.pastCommits → r.merkleRoot = none
  order : ¬r.phase.pastOrder → r.combined = none ∧ r.order = []

theorem Unwritten.step (h : r.Unwritten) (hs : Step r r') : r'.Unwritten := by
  cases hs with
  | stay => exact h
  | commit => exact ⟨h.root, h.order⟩
  | move => exact ⟨h.root, h.order⟩
  | close hphase =>
    exact ⟨fun hp => absurd (by simp [Phase.pastCommits]) hp,
      fun _ => h.order (by simp [Phase.pastOrder, hphase])⟩
  | abandon hphase =>
    exact ⟨fun _ => h.root (by simp [Phase.pastCommits, hphase]),
      fun _ => h.order (by simp [Phase.pastOrder, hphase])⟩
  | install =>
    exact ⟨fun hp => absurd (by simp [Phase.pastCommits]) hp,
      fun hp => absurd (by simp [Phase.pastOrder]) hp⟩
  | begin =>
    exact ⟨fun hp => absurd (by simp [Phase.pastCommits]) hp,
      fun hp => absurd (by simp [Phase.pastOrder]) hp⟩
  | complete =>
    exact ⟨fun hp => absurd (by simp [Phase.pastCommits]) hp,
      fun hp => absurd (by simp [Phase.pastOrder]) hp⟩

theorem Reachable.unwritten (h : r.Reachable) : r.Unwritten :=
  (h.induct (fun _ _ => ⟨fun _ => rfl, fun _ => ⟨rfl, rfl⟩⟩) fun _ _ _ hs hw => hw.step hs).2

/-! ## One operation -/

def AddedBy (r : Round) (op : Operation) (p : Participant) : Prop :=
  ∃ operator cvs sealed, op = .acceptCommit operator cvs sealed ∧
    p = { operator, commitIndex := r.records.length, cvs, sealed
          cos := none, secret := none, standing := .committed, recovery := none }

/-- How one operation takes a round on: by one edge at most. -/
structure Advance (op : Operation) (r r' : Round) : Prop where
  phase : ReflGen Phase.Edge r.phase r'.phase
  records : ∃ kept added, r'.records = kept ++ added ∧
    List.Forall₂ (Participant.Continues (ReflGen Standing.Edge)) r.records kept ∧
    (added = [] ∨ r.phase = .collectingCommits ∧ ∃ p, added = [p] ∧ r.AddedBy op p)
  root : r'.merkleRoot = r.merkleRoot ∨ r.phase = .collectingCommits ∧ r'.phase = .collectingCos ∧
    r.merkleRoot = none ∧ r'.merkleRoot.isSome = true
  order : r'.combined = r.combined ∧ r'.order = r.order ∨ r.phase = .collectingCos ∧
    r'.phase = .orderDetermined ∧ r.combined = none ∧ r.order = []

theorem continues_same {moves : Standing → Standing → Prop} (hm : ∀ s, moves s s)
    (ps : List Participant) : List.Forall₂ (Participant.Continues moves) ps ps :=
  List.forall₂_same.mpr fun p _ => .refl hm p

theorem advance_of_step (hr : r.Reachable) (hs : Step r r')
    (hlength : r'.records.length = r.records.length) : Advance op r r' := by
  have hunwritten := hr.unwritten
  have hsame : ∃ kept added, r.records = kept ++ added ∧
      List.Forall₂ (Participant.Continues (ReflGen Standing.Edge)) r.records kept ∧
      (added = [] ∨ r.phase = .collectingCommits ∧ ∃ p, added = [p] ∧ r.AddedBy op p) :=
    ⟨r.records, [], (List.append_nil _).symm, continues_same (fun _ => .refl) _, .inl rfl⟩
  cases hs with
  | stay => exact ⟨.refl, hsame, .inl rfl, .inl ⟨rfl, rfl⟩⟩
  | commit => simp at hlength
  | close hphase =>
    have hroot := hunwritten.root (by simp [Phase.pastCommits, hphase])
    exact ⟨hphase ▸ .single .close, hsame, .inr ⟨hphase, rfl, hroot, rfl⟩, .inl ⟨rfl, rfl⟩⟩
  | abandon hphase => exact ⟨hphase ▸ .single .abandon, hsame, .inl rfl, .inl ⟨rfl, rfl⟩⟩
  | install hphase =>
    have horder := hunwritten.order (by simp [Phase.pastOrder, hphase])
    exact ⟨hphase ▸ .single .install, hsame, .inl rfl, .inr ⟨hphase, rfl, horder⟩⟩
  | begin hphase => exact ⟨hphase ▸ .single .begin, hsame, .inl rfl, .inl ⟨rfl, rfl⟩⟩
  | @move records cursor hmoved =>
    -- Every record that moved was coherent, so it has lost nothing.
    have hkept :
        List.Forall₂ (Participant.Continues (ReflGen Standing.Edge)) r.records records := by
      refine List.forall₂_iff_get.mpr ⟨hmoved.length_eq, fun i hi hi' => ?_⟩
      exact (hmoved.get hi hi').continues (hr.coherent.records _ (List.getElem_mem hi))
    exact ⟨.refl, ⟨records, [], (List.append_nil _).symm, hkept, .inl rfl⟩, .inl rfl,
      .inl ⟨rfl, rfl⟩⟩
  | complete hcomplete =>
    simp only [isComplete, Bool.and_eq_true, Bool.or_eq_true, decide_eq_true_eq] at hcomplete
    refine ⟨?_, hsame, .inl rfl, .inl ⟨rfl, rfl⟩⟩
    rcases hcomplete.1 with hphase | hphase
    · exact hphase ▸ .single .complete
    · exact hphase ▸ .refl

/-- An operation takes a round on by one edge at most, and writes nothing twice. -/
theorem advance_perform (hr : r.Reachable) (op : Operation) : Advance op r (r.perform op).1 := by
  have hs := step_perform hr.nodup op
  by_cases hop : ∃ operator cvs sealed, op = .acceptCommit operator cvs sealed
  · obtain ⟨operator, cvs, sealed, rfl⟩ := hop
    simp only [perform, answer] at hs ⊢
    unfold acceptCommit at hs ⊢
    split
    · exact advance_of_step hr (.stay r) rfl
    rename_i hphase
    split
    · exact advance_of_step hr (.stay r) rfl
    split
    · exact advance_of_step hr (.stay r) rfl
    exact ⟨.refl, ⟨r.records, _, rfl, continues_same (fun _ => .refl) _,
      .inr ⟨not_not.mp hphase, _, rfl, operator, cvs, sealed, rfl, rfl⟩⟩, .inl rfl, .inl ⟨rfl, rfl⟩⟩
  · exact advance_of_step hr hs (length_records_perform fun operator cvs sealed h =>
      hop ⟨operator, cvs, sealed, h⟩)

/-! ## Runs -/

/-- How a run takes a round on: along paths of edges. -/
structure History (r r' : Round) : Prop where
  phase : ReflTransGen Phase.Edge r.phase r'.phase
  records : ∃ kept added, r'.records = kept ++ added ∧
    List.Forall₂ (Participant.Continues (ReflTransGen Standing.Edge)) r.records kept ∧
    (r.phase ≠ .collectingCommits → added = [])
  root : ∀ root, r.merkleRoot = some root → r'.merkleRoot = some root
  order : r.phase.pastOrder → r'.combined = r.combined ∧ r'.order = r.order

namespace History

theorem refl (r : Round) : History r r :=
  ⟨.refl, ⟨r.records, [], (List.append_nil _).symm, continues_same (fun _ => .refl) _,
    fun _ => rfl⟩, fun _ h => h, fun _ => ⟨rfl, rfl⟩⟩

/-- No edge leads back to the commits, nor to before the order was fixed. -/
theorem phase_ne {p q : Phase} (h : ReflTransGen Phase.Edge p q) (hp : p ≠ .collectingCommits) :
    q ≠ .collectingCommits := by
  cases h with
  | refl => exact hp
  | tail _ hedge => exact hedge.ne_collectingCommits

theorem phase_pastOrder {p q : Phase} (h : ReflTransGen Phase.Edge p q) (hp : p.pastOrder) :
    q.pastOrder := by
  induction h with
  | refl => exact hp
  | tail _ hedge ih => exact hedge.pastOrder ih

theorem trans {r₁ r₂ r₃ : Round} (h : History r₁ r₂) (ha : Advance op r₂ r₃) : History r₁ r₃ where
  phase := h.phase.trans ha.phase.to_reflTransGen
  records := by
    obtain ⟨kept, added, hrecords, hkept, hadded⟩ := h.records
    obtain ⟨kept', added', hrecords', hkept', hadded'⟩ := ha.records
    rw [hrecords] at hkept'
    -- The records kept by the second part are those of the first, and those it added.
    refine ⟨kept'.take kept.length, kept'.drop kept.length ++ added', ?_, ?_, ?_⟩
    · rw [← List.append_assoc, List.take_append_drop, hrecords']
    · have hlength := hkept.length_eq
      refine List.forall₂_iff_get.mpr ⟨?_, fun i hi hi' => ?_⟩
      · have := hkept'.length_eq
        simp only [List.length_append] at this
        simp only [List.length_take]
        omega
      · have hi₂ : i < kept.length := hlength ▸ hi
        have hnext := hkept'.get (i := i) (by simp; omega) (by simp at hi'; omega)
        simp only [List.get_eq_getElem, List.getElem_append_left hi₂] at hnext
        simpa using (hkept.get hi hi₂).trans hnext
    · intro hphase
      have hphase₂ : r₂.phase ≠ .collectingCommits := phase_ne h.phase hphase
      obtain rfl := hadded hphase
      have hadded₂ : added' = [] := hadded'.resolve_right fun hp => hphase₂ hp.1
      have hlength := hkept'.length_eq
      simp only [List.append_nil] at hlength
      simp [hadded₂, hlength]
  root root hroot := by
    have hroot₂ := h.root root hroot
    rcases ha.root with hsame | ⟨-, -, hnone, -⟩
    · exact hsame.trans hroot₂
    · rw [hroot₂] at hnone
      cases hnone
  order hp := by
    obtain ⟨hcombined, horder⟩ := h.order hp
    have hp₂ := phase_pastOrder h.phase hp
    rcases ha.order with ⟨hc, ho⟩ | ⟨hphase, -⟩
    · exact ⟨hc.trans hcombined, ho.trans horder⟩
    · simp [Phase.pastOrder, hphase] at hp₂

end History

theorem history_run (hr : r.Reachable) (ops : List Operation) : History r (r.run ops) := by
  induction ops using List.reverseRecOn with
  | nil => exact .refl r
  | append_singleton ops op ih =>
    rw [run_append]
    exact ih.trans (advance_perform (hr.run ops) op)

/-- At any point of any run the next operation takes the round on by one edge at most,
and the rest of the run along paths of edges; neither loses or changes what is written. -/
theorem lifecycle_run (id : UInt64) (eligible : List Address) (before : List Operation)
    (op : Operation) (after : List Operation) :
    Advance op ((start id eligible).run before) ((start id eligible).run (before ++ [op])) ∧
      History ((start id eligible).run before) ((start id eligible).run (before ++ after)) := by
  have hr := reachable_run id eligible before
  rw [run_append, run_append]
  exact ⟨advance_perform hr op, history_run hr after⟩

end Round

end Beacon
