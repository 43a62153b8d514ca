import Beacon.Operator.Basic
import Beacon.Proofs.Node.Acting

/-
  What the actions of an operator change. A sending action adds to what was delivered and
  changes nothing else. What it adds is backed by the disk: a commit says what the kept
  commitment of its round says, and a first stage or a secret opens it.
-/

namespace Beacon

/-- The disk backs what a message says of a commitment. -/
def Body.Backed (disk : Disk) : {k : Kind} → Body k → Prop
  | _, .commit round _ cvs shut => ∃ c, disk.loadCommitment round = .ok (some c) ∧
      c.commitment.cvs = cvs ∧ c.sealed = shut
  | _, .cos round _ first => ∃ c, disk.loadCommitment round = .ok (some c) ∧
      keccak256 first.bytes = c.commitment.cvs
  | _, .secretValue round _ secret => ∃ c, disk.loadCommitment round = .ok (some c) ∧
      keccak256 (keccak256 secret.bytes).bytes = c.commitment.cvs
  | _, _ => True

/-- What is delivered is a message, and the disk backs it. -/
def Delivery.Backed (disk : Disk) (d : Delivery) : Prop :=
  ∃ m : Message d.kind, d.payload = .text m.json ∧ m.body.Backed disk

/-- Every commitment on disk is bound to its secret. -/
def Disk.Bound (disk : Disk) : Prop :=
  ∀ round c, disk.loadCommitment round = .ok (some c) → c.commitment.checkBinding = .ok ()

theorem Commitment.checkBinding_eq_ok {c : Commitment} (h : c.checkBinding = .ok ()) :
    keccak256 c.cos.bytes = c.cvs ∧ keccak256 (keccak256 c.secret.bytes).bytes = c.cvs := by
  unfold checkBinding at h
  split at h
  · cases h
  · next hfirst =>
    split at h
    · cases h
    · next hsecond =>
      have hcos : firstStage c.secret = c.cos := Decidable.not_not.mp hfirst
      have hcvs : secondStage (firstStage c.secret) = c.cvs := Decidable.not_not.mp hsecond
      exact ⟨by rw [← hcvs, hcos]; rfl, hcvs⟩

theorem Commitment.checkBinding_draw (round : UInt64) (a : Address) (seconds : Int) (nonce : Word) :
    (draw round a seconds nonce).checkBinding = .ok () := by
  simp [checkBinding, draw, ofSecret]

namespace Operator

variable {o o' : Operator} {round : UInt64}

def delivering (o : Operator) (ds : List Delivery) : Operator :=
  { o with network := { o.network with delivered := o.network.delivered ++ ds } }

@[simp] theorem delivering_nil (o : Operator) : o.delivering [] = o := by
  simp [delivering]

/-- One message is delivered, or the sending fails and none is. -/
theorem send_spec {k : Kind} {make : Address → Body k} {result : Except NodeError Unit}
    (h : send make o = (o', result)) :
    (∃ e, result = .error e) ∧ o' = o ∨
      ∃ m : Message k, result = .ok () ∧ m.body = make o.address ∧
        o' = o.delivering [⟨o.settings.leaderPeer, k, .text m.json⟩] := by
  rw [send, Acting.bind_of_ok (Acting.state_apply o)] at h
  cases hsigned : Message.signed make o.signer with
  | error e =>
    rw [hsigned, Acting.bind_of_error (Acting.give_error _ e o)] at h
    cases h
    exact .inl ⟨⟨_, rfl⟩, rfl⟩
  | ok m =>
    rw [hsigned, Acting.bind_of_ok (Acting.give_ok _ m o)] at h
    have hbody : m.body = make o.address := by
      rw [Message.signed] at hsigned
      cases hg : o.signer.sign (make o.signer.address).signingDigest with
      | error e => rw [hg] at hsigned; cases hsigned
      | ok g =>
        rw [hg] at hsigned
        cases hsigned
        rfl
    simp only [Acting.within, Acting.ofOperation, Network.sendMessage, Network.send] at h
    cases hreach : o.network.reach o.settings.leaderPeer with
    | error e =>
      rw [hreach] at h
      cases h
      exact .inl ⟨⟨_, rfl⟩, rfl⟩
    | ok u =>
      rw [hreach] at h
      cases h
      exact .inr ⟨m, rfl, hbody, rfl⟩

/-- What the operator sent is backed by its disk, and nothing else changed. -/
def Reports (o o' : Operator) : Prop := ∃ ds, o' = o.delivering ds ∧ ∀ d ∈ ds, d.Backed o.disk

theorem Reports.refl (o : Operator) : Reports o o :=
  ⟨[], (delivering_nil o).symm, List.forall_mem_nil _⟩

theorem reports_send {k : Kind} {make : Address → Body k}
    (h : (make o.address).Backed o.disk) : Reports o (send make o).1 := by
  rcases hsend : send make o with ⟨o', result⟩
  rcases send_spec hsend with ⟨-, rfl⟩ | ⟨m, -, hbody, rfl⟩
  · exact .refl o'
  · refine ⟨_, rfl, fun d hd => ?_⟩
    rw [List.mem_singleton.mp hd]
    exact ⟨m, rfl, hbody ▸ h⟩

theorem reports_kept {act : Commitment → Acting Operator Unit}
    (h : ∀ c, o.disk.loadCommitment round = .ok (some c) → Reports o (act c.commitment o).1) :
    Reports o ((kept round >>= act) o).1 := by
  cases hload : o.disk.loadCommitment round with
  | error e =>
    have hkept : kept round o = (o, .error (.store e)) := by
      rw [kept, Acting.bind_of_ok (Acting.state_apply o), hload]
      rfl
    rw [Acting.bind_of_error hkept]
    exact .refl o
  | ok found =>
    cases found with
    | none =>
      have hkept : kept round o = (o, .error (.noCommitment round)) := by
        rw [kept, Acting.bind_of_ok (Acting.state_apply o), hload]
        rfl
      rw [Acting.bind_of_error hkept]
      exact .refl o
    | some c =>
      have hkept : kept round o = (o, .ok c.commitment) := by
        rw [kept, Acting.bind_of_ok (Acting.state_apply o), hload]
        rfl
      rw [Acting.bind_of_ok hkept]
      exact h c hload

theorem reports_register (o : Operator) : Reports o (register o).1 := by
  rw [register, Acting.bind_of_ok (Acting.state_apply o)]
  exact reports_send trivial

theorem reports_disclose (round : UInt64) (hbound : o.disk.Bound) :
    Reports o (disclose round o).1 :=
  reports_kept fun c hc =>
    reports_send ⟨c, hc, (Commitment.checkBinding_eq_ok (hbound round c hc)).1⟩

theorem reports_reveal (round : UInt64) (hbound : o.disk.Bound) :
    Reports o (reveal round o).1 := by
  rw [reveal, Acting.bind_of_ok (Acting.state_apply o)]
  split
  · exact .refl o
  · exact reports_kept fun c hc =>
      reports_send ⟨c, hc, (Commitment.checkBinding_eq_ok (hbound round c hc)).2⟩

/-- The operator is left alone, or commits, discloses or reveals. -/
def Follows (draw : Draw) (o : Operator) (x : Acting Operator Unit) : Prop :=
  (x o).1 = o ∨ ∃ round, (x o).1 = (commit round draw o).1 ∨ (x o).1 = (disclose round o).1 ∨
    (x o).1 = (reveal round o).1

theorem follows_give {draw : Draw} {k : Kind} {m : Except NodeError (Body k)}
    {act : Body k → Acting Operator Unit} (h : ∀ b, Follows draw o (act b)) :
    Follows draw o (Acting.give id m >>= act) := by
  cases m with
  | error e => exact .inl (congrArg Prod.fst (Acting.bind_of_error (Acting.give_error id e o)))
  | ok b =>
    have hact := h b
    rwa [Follows, ← Acting.bind_of_ok (f := act) (Acting.give_ok id b o)] at hact

/-- What a message makes the operator do. -/
theorem follows_receive (kind : Kind) (payload : Payload) (draw : Draw) (o : Operator) :
    Follows draw o (receive kind payload draw) := by
  rw [Follows, receive, Acting.bind_of_ok (Acting.state_apply o)]
  cases kind with
  | roundOpened =>
    refine follows_give fun body => ?_
    cases body with
    | roundOpened round eligible leader =>
      by_cases hmember : o.address ∈ eligible
      · refine .inr ⟨round, .inl ?_⟩
        rcases hcommit : commit round draw o with ⟨o', e | w⟩
        · simp only [if_pos hmember, Acting.bind_of_error hcommit]
        · simp only [if_pos hmember, Acting.bind_of_ok hcommit]
          rfl
      · simp only [if_neg hmember]
        exact .inl rfl
  | commitClosed =>
    refine follows_give fun body => ?_
    cases body with
    | commitClosed round root committed leader =>
      by_cases hmember : o.address ∈ committed
      · simp only [if_pos hmember]
        exact .inr ⟨round, .inr (.inl rfl)⟩
      · simp only [if_neg hmember]
        exact .inl rfl
  | requestSecret =>
    refine follows_give fun body => ?_
    cases body with
    | requestSecret round leader => exact .inr ⟨round, .inr (.inr rfl)⟩
  | _ => exact .inl rfl

theorem drawSealed_spec {draw : Draw} {made : SealedCommitment}
    (h : o.drawSealed round draw = .ok made) :
    made.commitment.round = round ∧ made.commitment.checkBinding = .ok () := by
  simp only [drawSealed, bind, Except.bind] at h
  split at h
  · cases h
  · split at h
    · cases h
    · cases h
      exact ⟨rfl, Commitment.checkBinding_draw ..⟩

end Operator

end Beacon
