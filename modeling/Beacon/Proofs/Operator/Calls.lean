import Beacon.Proofs.Operator.Turns

/-
  One commitment for each round. An operator at work has any number of calls under way
  that make a commitment. They take their steps in any order, between which messages
  arrive, peers come and go, writing fails, calls are given up and the operator is started
  again on the same data directory.

  What carries the result is `Sound`: a round is claimed by at most one call, every call
  finds what it relies on, and the disk backs whatever was sent. A step of one call touches
  no file but that of the round it claims, so the others find what they rely on still
  (`Sound.advanced`). Every event keeps this, and none changes the file of a commitment.
-/

namespace Beacon

/-- An operator at work, and the calls that make a commitment, each for its round. -/
structure Service where
  operator : Operator
  calls : List (UInt64 × CommitTask)

namespace Service

inductive Event where
  /-- A call begins. A message that opens a round begins one, too. -/
  | call (round : UInt64)
  /-- A call takes its next step. -/
  | advance (i : Nat) (draw : Draw)
  /-- A call is given up where it stands, and its claim stays. -/
  | abandon (i : Nat)
  /-- A message arrives, and is acted on at once. -/
  | receive (kind : Kind) (payload : Payload) (draw : Draw)
  | register
  | disclose (round : UInt64)
  | reveal (round : UInt64)
  | withhold (on : Bool)
  | stop
  /-- Peers come, go, or take nothing more. -/
  | peers (peers : List (String × PeerState))
  /-- The coming replacements of files fail at these steps. -/
  | faults (faults : List (Option WriteFault))
  /-- The private key is read, or kept if there is none. -/
  | loadSigner (fresh : Signer)
  /-- The operator is started on its data directory, wherever its calls were. -/
  | restart (settings : OperatorSettings) (signer : Signer)

def step (s : Service) : Event → Service
  | .call round => { s with calls := s.calls ++ [(round, .claiming)] }
  | .advance i draw =>
    match s.calls[i]? with
    | none => s
    | some (round, task) =>
      let next := task.step round draw s.operator
      { operator := next.1, calls := s.calls.set i (round, next.2) }
  | .abandon i =>
    match s.calls[i]? with
    | none => s
    | some (round, _) => { s with calls := s.calls.set i (round, .finished (.error .stopped)) }
  | .receive kind payload draw =>
    { s with operator := (Operator.receive kind payload draw s.operator).1 }
  | .register => { s with operator := (Operator.register s.operator).1 }
  | .disclose round => { s with operator := (Operator.disclose round s.operator).1 }
  | .reveal round => { s with operator := (Operator.reveal round s.operator).1 }
  | .withhold on => { s with operator := s.operator.withhold on }
  | .stop => { s with operator := s.operator.stop }
  | .peers peers =>
    { s with operator := { s.operator with network := { s.operator.network with peers } } }
  | .faults faults =>
    { s with operator := { s.operator with disk := { s.operator.disk with faults } } }
  | .loadSigner fresh =>
    { s with operator := { s.operator with disk := (s.operator.disk.loadSigner fresh).1 } }
  | .restart settings signer =>
    { operator := .start settings signer s.operator.disk s.operator.network, calls := [] }

def run (s : Service) (events : List Event) : Service := events.foldl step s

def start (settings : OperatorSettings) (signer : Signer) (disk : Disk) (network : Network) :
    Service := { operator := .start settings signer disk network, calls := [] }

/-! ## The invariant -/

variable {past : List Delivery} {s : Service}

/-- What holds of a service that started when `past` had been delivered. -/
structure Sound (past : List Delivery) (s : Service) : Prop where
  /-- Every commitment on disk is bound to its secret. -/
  bound : s.operator.disk.Bound
  /-- A call that claims its round is known to the operator. -/
  pending : ∀ (i : Nat) round (t : CommitTask), s.calls[i]? = some (round, t) → t.Claims →
    round ∈ s.operator.pending
  /-- No other call claims the round. -/
  alone : ∀ (i j : Nat) round (t u : CommitTask), s.calls[i]? = some (round, t) →
    s.calls[j]? = some (round, u) → t.Claims → u.Claims → i = j
  /-- The disk is as the calls rely on. -/
  relies : ∀ (i : Nat) round (t : CommitTask), s.calls[i]? = some (round, t) →
    t.Relies s.operator.disk round
  /-- The disk backs what was sent. -/
  sent : s.operator.disk.Backs past s.operator.network.delivered

/-- The service is sound still, and no commitment that was kept has changed. -/
def Holds (past : List Delivery) (s s' : Service) : Prop :=
  Sound past s' ∧ s.operator.disk.Preserves s'.operator.disk

theorem sound_start (settings : OperatorSettings) (signer : Signer) {disk : Disk}
    (network : Network) (hdisk : disk.Bound) :
    Sound network.delivered (start settings signer disk network) where
  bound := hdisk
  pending _ _ _ h := by simp [start] at h
  alone _ _ _ _ _ h := by simp [start] at h
  relies _ _ _ h := by simp [start] at h
  sent := .refl disk network.delivered

/-- The operator changed, and no call came to claim a round: its commitments are as before,
it knows the claimed rounds, and what it sent is backed. -/
theorem Sound.acted (hs : Sound past s) {o : Operator} {calls : List (UInt64 × CommitTask)}
    (hcalls : ∀ (i : Nat) round (t : CommitTask), calls[i]? = some (round, t) → t.Claims →
      s.calls[i]? = some (round, t) ∧ (round ∈ s.operator.pending → round ∈ o.pending))
    (hdisk : ∀ round, o.disk.find? (FileKey.commitment round).name =
      s.operator.disk.find? (FileKey.commitment round).name)
    (hsent : s.operator.disk.Backs s.operator.network.delivered o.network.delivered) :
    Holds past s { operator := o, calls } := by
  have hpres : s.operator.disk.Preserves o.disk := fun round e he => (hdisk round).trans he
  refine ⟨⟨?_, ?_, ?_, ?_, ?_⟩, hpres⟩
  · intro round c hc
    exact hs.bound round c ((Disk.load_congr (hdisk round)).symm.trans hc)
  · intro i round t hi ht
    obtain ⟨hi', hknown⟩ := hcalls i round t hi ht
    exact hknown (hs.pending i round t hi' ht)
  · intro i j round t u hi hj ht hu
    exact hs.alone i j round t u (hcalls i round t hi ht).1 (hcalls j round u hj hu).1 ht hu
  · intro i round t hi
    by_cases ht : t.Claims
    · exact (hs.relies i round t (hcalls i round t hi ht).1).congr (hdisk round)
    · exact CommitTask.relies_of_not_claims ht
  · exact (hs.sent.trans hsent).preserved hpres

theorem Sound.reported (hs : Sound past s) {o : Operator} (h : s.operator.Reports o) :
    Holds past s { s with operator := o } := by
  obtain ⟨ds, rfl, hds⟩ := h
  exact hs.acted (fun _ _ _ h _ => ⟨h, id⟩) (fun _ => rfl) ⟨ds, rfl, hds⟩

/-- One call took its turn, and the others stand where they stood. -/
theorem Sound.advanced (hs : Sound past s) {i : Nat} {round : UInt64} {t t' : CommitTask}
    {o : Operator} (hi : s.calls[i]? = some (round, t))
    (hturn : CommitTask.Turn round s.operator o t t') :
    Holds past s { operator := o, calls := s.calls.set i (round, t') } := by
  have hlt : i < s.calls.length := (List.getElem?_eq_some_iff.mp hi).1
  -- Every call is the one that went on, or another that is where it was.
  have hcases {j : Nat} {r : UInt64} {u : CommitTask}
      (hj : (s.calls.set i (round, t'))[j]? = some (r, u)) :
      j = i ∧ r = round ∧ u = t' ∨ j ≠ i ∧ s.calls[j]? = some (r, u) := by
    by_cases hji : j = i
    · subst hji
      rw [List.getElem?_set_self hlt] at hj
      cases hj
      exact .inl ⟨rfl, rfl, rfl⟩
    · rw [List.getElem?_set_ne (Ne.symm hji)] at hj
      exact .inr ⟨hji, hj⟩
  -- Another call that claims its round has another one than a call that claims.
  have hother {j : Nat} {r : UInt64} {u : CommitTask} (hne : j ≠ i)
      (hj : s.calls[j]? = some (r, u)) (hu : u.Claims) : ¬(r = round ∧ t.Claims) := by
    rintro ⟨rfl, ht⟩
    exact hne (hs.alone j i r u t hj hi hu ht)
  have hforeign {j : Nat} {u : CommitTask} (hne : j ≠ i) (hj : s.calls[j]? = some (round, u))
      (hu : u.Claims) (ht' : t'.Claims) : False := by
    rcases (hturn.claims ht').1 with ht | hfresh
    · exact hother hne hj hu ⟨rfl, ht⟩
    · exact hfresh (hs.pending j round u hj hu)
  refine ⟨⟨hturn.bound, ?_, ?_, ?_, ?_⟩, hturn.preserves⟩
  · intro j r u hj hu
    rcases hcases hj with ⟨-, rfl, rfl⟩ | ⟨hne, hj⟩
    · exact (hturn.claims hu).2
    · exact (hturn.pending r (hs.pending j r u hj hu)).resolve_right (hother hne hj hu)
  · intro j k r u v hj hk hu hv
    rcases hcases hj with ⟨hji, rfl, rfl⟩ | ⟨hji, hj'⟩
    · rcases hcases hk with ⟨hki, -, -⟩ | ⟨hki, hk'⟩
      · exact hji.trans hki.symm
      · exact (hforeign hki hk' hv hu).elim
    · rcases hcases hk with ⟨-, rfl, rfl⟩ | ⟨-, hk'⟩
      · exact (hforeign hji hj' hu hv).elim
      · exact hs.alone j k r u v hj' hk' hu hv
  · intro j r u hj
    rcases hcases hj with ⟨-, rfl, rfl⟩ | ⟨hne, hj⟩
    · exact hturn.relies
    · by_cases hu : u.Claims
      · exact (hs.relies j r u hj).congr ((hturn.file r).resolve_right (hother hne hj hu))
      · exact CommitTask.relies_of_not_claims hu
  · exact (hs.sent.preserved hturn.preserves).trans hturn.sent

/-! ## All events -/

theorem step_advance {i : Nat} {round : UInt64} {draw : Draw} {t t' : CommitTask} {o : Operator}
    (hi : s.calls[i]? = some (round, t)) (h : t.step round draw s.operator = (o, t')) :
    s.step (.advance i draw) = { operator := o, calls := s.calls.set i (round, t') } := by
  simp [step, hi, h]

theorem holds_advance (hs : Sound past s) (i : Nat) (draw : Draw) :
    Holds past s (s.step (.advance i draw)) := by
  cases hi : s.calls[i]? with
  | none =>
    have hstep : s.step (.advance i draw) = s := by simp [step, hi]
    rw [hstep]
    exact ⟨hs, .refl _⟩
  | some call =>
    obtain ⟨round, t⟩ := call
    rcases hstep : t.step round draw s.operator with ⟨o, t'⟩
    rw [step_advance hi hstep]
    exact hs.advanced hi (CommitTask.turn_step hs.bound (hs.pending i round t hi)
      (hs.relies i round t hi) hstep)

theorem Holds.trans {s₁ s₂ s₃ : Service} (h : Holds past s₁ s₂) (h' : Holds past s₂ s₃) :
    Holds past s₁ s₃ := ⟨h'.1, h.2.trans h'.2⟩

theorem Sound.kept (hs : Sound past s) {o : Operator} (hpending : o.pending = s.operator.pending)
    (hdisk : ∀ round, o.disk.find? (FileKey.commitment round).name =
      s.operator.disk.find? (FileKey.commitment round).name)
    (hsent : o.network.delivered = s.operator.network.delivered) :
    Holds past s { s with operator := o } :=
  hs.acted (fun _ _ _ hi _ => ⟨hi, fun hround => hpending ▸ hround⟩) hdisk
    (hsent ▸ .refl _ _)

theorem holds_call (hs : Sound past s) (round : UInt64) : Holds past s (s.step (.call round)) := by
  refine hs.acted (fun i r t hi ht => ⟨?_, id⟩) (fun _ => rfl)
    (.refl _ _)
  rcases Nat.lt_trichotomy i s.calls.length with hlt | heq | hgt
  · rwa [List.getElem?_append_left hlt] at hi
  · rw [heq, List.getElem?_concat_length] at hi
    cases hi
    exact ht.elim
  · rw [List.getElem?_eq_none (by simpa using Nat.succ_le_of_lt hgt)] at hi
    cases hi

theorem holds_abandon (hs : Sound past s) (i : Nat) : Holds past s (s.step (.abandon i)) := by
  cases hi : s.calls[i]? with
  | none =>
    have hstep : s.step (.abandon i) = s := by simp [step, hi]
    rw [hstep]
    exact ⟨hs, .refl _⟩
  | some call =>
    have hstep : s.step (.abandon i) =
        { s with calls := s.calls.set i (call.1, .finished (.error .stopped)) } := by
      simp [step, hi]
    rw [hstep]
    exact hs.advanced hi (.passed hs.bound nofun trivial)

/-- A call that takes all its steps at once takes them one after the other. -/
theorem holds_finish {round : UInt64} (draw : Draw) {calls : List (UInt64 × CommitTask)}
    {o : Operator} {t : CommitTask}
    (hs : Sound past { operator := o, calls := calls ++ [(round, t)] }) :
    ∃ t', Holds past { operator := o, calls := calls ++ [(round, t)] }
      { operator := (t.finish round draw o).1, calls := calls ++ [(round, t')] } := by
  fun_induction CommitTask.finish round draw o t with
  | case1 o t result h => exact ⟨t, hs, .refl _⟩
  | case2 o t h next ih =>
    have hadvance := holds_advance hs calls.length draw
    have hnext : t.step round draw o = (next.1, next.2) := rfl
    have hset : (calls ++ [(round, t)]).set calls.length (round, next.2) =
        calls ++ [(round, next.2)] := by
      rw [List.set_append_right _ _ le_rfl, Nat.sub_self, List.set_cons_zero]
    rw [step_advance List.getElem?_concat_length hnext, hset] at hadvance
    obtain ⟨t', ht'⟩ := ih hadvance.1
    exact ⟨t', hadvance.trans ht'⟩

theorem holds_commit (hs : Sound past s) (round : UInt64) (draw : Draw) :
    Holds past s { s with operator := (Operator.commit round draw s.operator).1 } := by
  have hcall := holds_call hs round
  obtain ⟨t, hfinish⟩ := holds_finish draw hcall.1
  refine (hcall.trans hfinish).trans (hfinish.1.acted (fun i r u hi _ => ⟨?_, id⟩) (fun _ => rfl)
    (.refl _ _))
  rw [List.getElem?_append_left (List.getElem?_eq_some_iff.mp hi).1]
  exact hi

theorem holds_receive (hs : Sound past s) (kind : Kind) (payload : Payload) (draw : Draw) :
    Holds past s (s.step (.receive kind payload draw)) := by
  change Holds past s { s with operator := (Operator.receive kind payload draw s.operator).1 }
  rcases Operator.follows_receive kind payload draw s.operator with h | ⟨round, h | h | h⟩
  · rw [h]
    exact ⟨hs, .refl _⟩
  · rw [h]
    exact holds_commit hs round draw
  · rw [h]
    exact hs.reported (Operator.reports_disclose round hs.bound)
  · rw [h]
    exact hs.reported (Operator.reports_reveal round hs.bound)

theorem holds_loadSigner (hs : Sound past s) (fresh : Signer) :
    Holds past s (s.step (.loadSigner fresh)) := by
  refine hs.kept rfl (fun round => ?_) rfl
  change (s.operator.disk.loadSigner fresh).1.find? _ = _
  rw [Disk.loadSigner]
  split
  · rfl
  · rfl
  · -- The key file is none of a commitment.
    rcases hr : s.operator.disk.replaceFile .privateKey fresh.secretText with ⟨disk, result⟩
    exact (Disk.replaceFile_spec hr).1 (.commitment round) nofun

theorem holds_step (hs : Sound past s) (e : Event) : Holds past s (s.step e) := by
  cases e with
  | call round => exact holds_call hs round
  | advance i draw => exact holds_advance hs i draw
  | abandon i => exact holds_abandon hs i
  | receive kind payload draw => exact holds_receive hs kind payload draw
  | register => exact hs.reported (Operator.reports_register s.operator)
  | disclose round => exact hs.reported (Operator.reports_disclose round hs.bound)
  | reveal round => exact hs.reported (Operator.reports_reveal round hs.bound)
  | withhold on => exact hs.kept rfl (fun _ => rfl) rfl
  | stop => exact hs.kept rfl (fun _ => rfl) rfl
  | peers peers => exact hs.kept rfl (fun _ => rfl) rfl
  | faults faults => exact hs.kept rfl (fun _ => rfl) rfl
  | loadSigner fresh => exact holds_loadSigner hs fresh
  | restart settings signer =>
    exact hs.acted (fun _ _ _ hi => by simp at hi) (fun _ => rfl)
      (.refl _ _)

theorem holds_run (hs : Sound past s) (events : List Event) : Holds past s (s.run events) := by
  induction events generalizing s with
  | nil => exact ⟨hs, .refl _⟩
  | cons e events ih =>
    have hstep := holds_step hs e
    exact hstep.trans (ih hstep.1)

/-! ## What is sent -/

/-- One of the deliveries reads as a message with this body. -/
def Sent (ds : List Delivery) {k : Kind} (b : Body k) : Prop :=
  ∃ d ∈ ds, d.kind = k ∧ ∃ m : Message k, d.payload.decode k = .ok m ∧ m.body = b

theorem Sent.backed {disk : Disk} {ds : List Delivery} (hds : ∀ d ∈ ds, d.Backed disk) {k : Kind}
    {b : Body k} (h : Sent ds b) : b.Backed disk := by
  obtain ⟨d, hd, rfl, m, hm, rfl⟩ := h
  obtain ⟨m', hpayload, hbacked⟩ := hds d hd
  rw [hpayload, m'.decode_json] at hm
  cases hm
  exact hbacked

/-- Along every run the operator makes one commitment for each round. A file of a commitment
stays as it is from when it is there. Whatever is sent is a message; all commits that are sent
for a round say the same, which is what the file of the round says, and every first stage and
every secret that is sent opens it. The disk at the start may hold commitments of earlier
runs, each of them bound to its secret. -/
theorem one_commitment (settings : OperatorSettings) (signer : Signer) {disk : Disk}
    (network : Network) (hdisk : disk.Bound) (before after : List Event) :
    let first := start settings signer disk network
    let mid := first.run before
    let last := first.run (before ++ after)
    (∀ round e, mid.operator.disk.find? (FileKey.commitment round).name = some e →
      last.operator.disk.find? (FileKey.commitment round).name = some e) ∧
    ∃ sent, last.operator.network.delivered = network.delivered ++ sent ∧
      (∀ d ∈ sent, ∃ m, d.payload.decode d.kind = .ok m) ∧
      (∀ round a a' cvs cvs' shut shut', Sent sent (.commit round a cvs shut) →
        Sent sent (.commit round a' cvs' shut') → cvs = cvs' ∧ shut = shut') ∧
      (∀ round a cvs shut, Sent sent (.commit round a cvs shut) →
        ∃ c, last.operator.disk.loadCommitment round = .ok (some c) ∧
          c.commitment.cvs = cvs ∧ c.sealed = shut) ∧
      (∀ round a cos, Sent sent (.cos round a cos) →
        ∃ c, last.operator.disk.loadCommitment round = .ok (some c) ∧
          keccak256 cos.bytes = c.commitment.cvs) ∧
      (∀ round a secret, Sent sent (.secretValue round a secret) →
        ∃ c, last.operator.disk.loadCommitment round = .ok (some c) ∧
          keccak256 (keccak256 secret.bytes).bytes = c.commitment.cvs) := by
  intro first mid last
  have hmid : Holds network.delivered first mid :=
    holds_run (sound_start settings signer network hdisk) before
  have hrun : mid.run after = last := (List.foldl_append ..).symm
  have hlast : Holds network.delivered mid last := hrun ▸ holds_run hmid.1 after
  obtain ⟨sent, hsent, hbacked⟩ := hlast.1.sent
  refine ⟨hlast.2, sent, hsent, fun d hd => ?_, ?_, fun _ _ _ _ h => h.backed hbacked,
    fun _ _ _ h => h.backed hbacked, fun _ _ _ h => h.backed hbacked⟩
  · obtain ⟨m, hm, -⟩ := hbacked d hd
    exact ⟨m, hm ▸ m.decode_json⟩
  · intro round a a' cvs cvs' shut shut' h h'
    obtain ⟨c, hc, hcvs, hshut⟩ := h.backed hbacked
    obtain ⟨c', hc', hcvs', hshut'⟩ := h'.backed hbacked
    obtain rfl : c = c' := Option.some.inj (Except.ok.inj (hc.symm.trans hc'))
    exact ⟨hcvs.symm.trans hcvs', hshut.symm.trans hshut'⟩

/-- Two calls for one round, of which the second is refused, and a restart where the first one
has made its commitment and not sent it. -/
theorem one_commitment_restart :
    let settings : OperatorSettings := ⟨⟨.ofNat 20 1⟩, "leader", "op", ⟨5, 3⟩⟩
    let signer : Signer := ⟨1, by decide, by decide⟩
    let draw : Draw := ⟨.ok (.ofNat 32 7), 0, ⟨⟨1970, 1, 1⟩, ⟨0, 0, 0, 0⟩, by decide, by decide⟩⟩
    let before := [.call 4, .call 4, .advance 0 draw, .advance 1 draw]
    let after := [.advance 0 draw, .advance 0 draw, .advance 0 draw, .restart settings signer,
      .call 4, .disclose 4]
    let first := start settings signer .empty (Network.empty.join "leader")
    Disk.empty.Bound ∧
      (first.run before).calls[1]? = some (4, .finished (.error (.alreadyCommitted 4))) ∧
      ∃ sent, (first.run (before ++ after)).operator.network.delivered = sent ∧
        ∀ a cvs shut a' cos, Sent sent (.commit 4 a cvs shut) → Sent sent (.cos 4 a' cos) →
          keccak256 cos.bytes = cvs := by
  intro settings signer draw before after first
  have hdisk : Disk.empty.Bound := fun round c h => by cases h
  obtain ⟨-, sent, hsent, -, -, hcommits, hstages, -⟩ :=
    one_commitment settings signer (Network.empty.join "leader") hdisk before after
  refine ⟨hdisk, rfl, sent, ?_, ?_⟩
  · rw [hsent]
    rfl
  · intro a cvs shut a' cos h h'
    obtain ⟨c, hc, hcvs, -⟩ := hcommits 4 a cvs shut h
    obtain ⟨c', hc', hcos⟩ := hstages 4 a' cos h'
    have hsame : c' = c := Option.some.inj (Except.ok.inj (hc'.symm.trans hc))
    exact hcos.trans (hsame ▸ hcvs)

end Service

end Beacon
