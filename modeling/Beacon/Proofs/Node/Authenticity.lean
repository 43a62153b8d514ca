import Beacon.Operator.Basic
import Beacon.Proofs.Leader.Frame
import Beacon.Proofs.Message.SignedBytes

/-
  Who can make a node act. Whatever arrives on whatever path, a leader changes nothing
  unless the payload is a message for leaders and the operator that it names signed it; and
  then it changes nothing that is not that operator's. An operator does nothing unless the
  payload is a message of a leader, signed by the leader it was told of.
-/

namespace Beacon

/-- What may change in a leader that is told something: the entry of the operator that
registers, the record of the operator that says something in a round. Leaders are told
nothing else. -/
def Body.Confines : {k : Kind} → Body k → Leader → Leader → Prop
  | _, .register operator _ => Leader.OnlyEntry operator
  | _, .commit id operator _ _ => Leader.OnlyRecord id operator
  | _, .cos id operator _ => Leader.OnlyRecord id operator
  | _, .secretValue id operator _ => Leader.OnlyRecord id operator
  | _, .roundOpened .. => fun _ _ => False
  | _, .commitClosed .. => fun _ _ => False
  | _, .requestSecret .. => fun _ _ => False

/-! ## Leaders -/

namespace Leader

open Acting (Within)

variable {kind : Kind} {payload : Payload}

/-- Without a signed message the rest of a handler is not reached. -/
theorem refused_or_signed {act : Body kind → Acting Leader Unit} (l : Leader)
    (hact : ∀ b : Body kind, Within b.Confines (act b)) :
    (∃ e, (signedBody kind payload >>= act) l = (l, .error e)) ∨
      ∃ m : Message kind, payload.SignedAs m ∧
        m.body.Confines l ((signedBody kind payload >>= act) l).1 := by
  cases hd : payload.decodeSigned kind with
  | error e =>
    have hbody : signedBody kind payload l = (l, .error (.message e)) := by rw [signedBody, hd]; rfl
    exact .inl ⟨_, Acting.bind_of_error hbody⟩
  | ok m =>
    have hbody : signedBody kind payload l = (l, .ok m.body) := by rw [signedBody, hd]; rfl
    rw [Acting.bind_of_ok hbody]
    exact .inr ⟨m, Payload.decodeSigned_eq_ok.mp hd, hact m.body l⟩

theorem refused_or_confined (kind : Kind) (payload : Payload) (l : Leader) :
    (∃ e, receive kind payload l = (l, .error e)) ∨
      ∃ m : Message kind, payload.SignedAs m ∧ m.body.Confines l (receive kind payload l).1 := by
  -- The answer of a handler is left out.
  have hunit {id : UInt64} {a : Address} {α : Type} {x : Acting Leader α}
      (hx : Within (OnlyRecord id a) x) :
      Within (OnlyRecord id a) (x >>= fun _ => (pure () : Acting Leader Unit)) :=
    .bind .trans hx fun _ => within_pure ()
  cases kind with
  | register =>
    refine refused_or_signed l fun b => ?_
    cases b with
    | register operator peer => exact within_register peer
  | commit =>
    refine refused_or_signed l fun b => ?_
    cases b with
    | commit id operator cvs shut => exact hunit (within_commit cvs shut)
  | cos =>
    refine refused_or_signed l fun b => ?_
    cases b with
    | cos id operator first => exact hunit (within_disclose first)
  | secretValue =>
    refine refused_or_signed l fun b => ?_
    cases b with
    | secretValue id operator secret => exact within_reveal secret
  | _ => exact .inl ⟨_, rfl⟩

end Leader

/-! ## Operators -/

namespace Operator

variable {o : Operator} {k : Kind} {payload : Payload}

theorem signedAs_of_leaderMessage {b : Body k} (h : o.leaderMessage k payload = .ok b) :
    ∃ m : Message k, payload.SignedAs m ∧ m.body.sender = o.settings.leaderAddress := by
  simp only [leaderMessage, bind, Except.bind] at h
  cases hd : payload.decodeSigned k with
  | error e =>
    rw [hd] at h
    cases h
  | ok m =>
    rw [hd] at h
    simp only [Except.mapError] at h
    split_ifs at h with hsender
    exact ⟨m, Payload.decodeSigned_eq_ok.mp hd, hsender⟩

/-- Without a message of the leader the rest of a handler is not reached. -/
theorem refused_or_led (o : Operator) (act : Body k → Acting Operator Unit) :
    (∃ e, (Acting.give id (o.leaderMessage k payload) >>= act) o = (o, .error e)) ∨
      ∃ m : Message k, payload.SignedAs m ∧ m.body.sender = o.settings.leaderAddress := by
  cases hm : o.leaderMessage k payload with
  | error e => exact .inl ⟨_, Acting.bind_of_error (Acting.give_error id e o)⟩
  | ok b => exact .inr (signedAs_of_leaderMessage hm)

theorem refused_or_ofLeader (kind : Kind) (payload : Payload) (draw : Draw) (o : Operator) :
    (∃ e, receive kind payload draw o = (o, .error e)) ∨
      kind ∈ [Kind.roundOpened, .commitClosed, .requestSecret] ∧
        ∃ m : Message kind, payload.SignedAs m ∧ m.body.sender = o.settings.leaderAddress := by
  rw [receive, Acting.bind_of_ok (Acting.state_apply o)]
  cases kind with
  | roundOpened => exact (refused_or_led o _).imp_right fun h => ⟨by decide, h⟩
  | commitClosed => exact (refused_or_led o _).imp_right fun h => ⟨by decide, h⟩
  | requestSecret => exact (refused_or_led o _).imp_right fun h => ⟨by decide, h⟩
  | _ => exact .inl ⟨_, rfl⟩

end Operator

/-! ## Nodes -/

/-- Whatever a node is given, and whatever state it is in, it refuses it and is what it was,
or the payload is a signed message. A leader acts for the operator that signed, and on
nothing but what is that operator's. An operator acts for its own leader only. -/
theorem refused_or_authenticated (kind : Kind) (payload : Payload) :
    (∀ l : Leader, (∃ e, Leader.receive kind payload l = (l, .error e)) ∨
      ∃ m : Message kind, payload.SignedAs m ∧
        m.body.Confines l (Leader.receive kind payload l).1) ∧
    ∀ (o : Operator) (draw : Draw), (∃ e, Operator.receive kind payload draw o = (o, .error e)) ∨
      kind ∈ [Kind.roundOpened, .commitClosed, .requestSecret] ∧
        ∃ m : Message kind, payload.SignedAs m ∧ m.body.sender = o.settings.leaderAddress :=
  ⟨Leader.refused_or_confined kind payload,
    fun o draw => Operator.refused_or_ofLeader kind payload draw o⟩

end Beacon
