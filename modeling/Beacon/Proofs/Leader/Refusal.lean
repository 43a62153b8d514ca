import Beacon.Proofs.Leader.Numbers
import Beacon.Proofs.Round.Refusal

/-
  What a refused request leaves of a leader. A request is a message, a recovery or the
  opening of a round. What a leader holds is its book and its rounds. A refusal leaves
  that alone, with one exception: what was taken in and could then not be kept on disk
  stays taken in (`refused_iff`).
-/

namespace Beacon

def NodeError.IsStore (e : NodeError) : Prop := ∃ cause, e = .store cause

namespace Leader

variable {l l' : Leader} {id : UInt64} {a : Address} {r : Round} {e : NodeError} {α β : Type}

/-- The book is the same, and under every number there is the same round. -/
def SameHoldings (l l' : Leader) : Prop :=
  l'.book = l.book ∧ ∀ id, l'.registry.find? id = l.registry.find? id

theorem SameHoldings.refl (l : Leader) : l.SameHoldings l := ⟨rfl, fun _ => rfl⟩

/-- What a refusal with `e` leaves: what was held, unless the disk refused. -/
def Spared (l l' : Leader) (e : NodeError) : Prop := l.SameHoldings l' ↔ ¬e.IsStore

theorem spared_of_same (h : l.SameHoldings l') (he : ¬e.IsStore) : l.Spared l' e :=
  iff_of_true h he

theorem spared_of_store (h : ¬l.SameHoldings l') (he : e.IsStore) : l.Spared l' e :=
  iff_of_false h (not_not.mpr he)

/-! ## Requests about a round -/

theorem spared_of_onRound {f : Round → Round × Except RoundError α}
    (hf : ∀ r c, (f r).2 = .error c → (f r).1 = r) (h : onRound id f l = (l', .error e)) :
    l.Spared l' e := by
  rcases onRound_eq_error h with ⟨rfl, rfl⟩ | ⟨r, c, hr, hc, rfl, rfl⟩
  · exact spared_of_same (.refl _) nofun
  · refine spared_of_same ⟨rfl, fun id' => ?_⟩ nofun
    rw [hf r c hc]
    exact Registry.find?_replace_found hr id'

theorem spared_of_keepRecord {r' : Round} {k : Unit → Acting Leader β}
    (hr : l.registry.find? id = some r) (hid : r'.id = r.id) (hne : r' ≠ r)
    (hk : ∀ l₁ : Leader, l₁.registry.find? id = some r' → ∀ u l₂ e, k u l₁ ≠ (l₂, .error e))
    (h : (keepRecord id a >>= k) (l.withRound r') = (l', .error e)) : l.Spared l' e := by
  have hr' : (l.withRound r').registry.find? id = some r' :=
    Registry.find?_replace_self hr (hid.trans (Registry.id_of_find? hr))
  rcases Acting.bind_eq_error h with h | ⟨l₁, _, hkeep, h⟩
  · -- The changed round stays, since keeping a record is a matter of the disk only.
    obtain ⟨⟨disk, rfl⟩, hstore⟩ := keepRecord_eq hr' h
    refine spared_of_store (fun hsame => hne ?_) (hstore e rfl)
    have hfind := hsame.2 id
    rw [registry_withDisk, hr', hr] at hfind
    exact Option.some.inj hfind
  · obtain ⟨⟨disk, rfl⟩, -⟩ := keepRecord_eq hr' hkeep
    exact absurd h (hk ((l.withRound r').withDisk disk) hr' _ l' e)

/-- A request that does something to a round, all or nothing, and then keeps the
record. -/
theorem spared_of_kept {f : Round → Round × Except RoundError α} {k : α → Unit → Acting Leader β}
    (hf : ∀ r : Round, r.AllOrNothing (f r))
    (hk : ∀ x r (l₁ : Leader), l₁.registry.find? id = some r →
      ∀ u l₂ e, k x u l₁ ≠ (l₂, .error e))
    (h : (onRound id f >>= fun x => keepRecord id a >>= k x) l = (l', .error e)) :
    l.Spared l' e := by
  rcases Acting.bind_eq_error h with h | ⟨l₁, x, hround, h⟩
  · refine spared_of_onRound (fun r c hc => ?_) h
    rcases hf r with ⟨_, hr⟩ | ⟨_, _, hr, -⟩
    · rw [hr]
    · rw [hr] at hc
      cases hc
  · obtain ⟨r, hr, hx, rfl⟩ := onRound_eq_ok hround
    rcases hf r with ⟨_, hr'⟩ | ⟨r', _, hr', hne, hid⟩
    · rw [hr'] at hx
      cases hx
    · rw [hr'] at h
      exact spared_of_keepRecord hr hid hne (hk x r') h

theorem spared_commit {cvs sealed : Word} (h : commit id a cvs sealed l = (l', .error e)) :
    l.Spared l' e := by
  refine spared_of_kept (fun r => r.acceptCommit_allOrNothing a cvs sealed) ?_ h
  intro x r l₁ hr u l₂ e h
  rw [Acting.bind_of_ok (round_of_find? hr)] at h
  split at h <;> cases h

theorem spared_reveal {secret : Word} (h : reveal id a secret l = (l', .error e)) :
    l.Spared l' e := by
  rw [reveal, acceptSecret, bind_assoc] at h
  simp only [bind_assoc, pure_bind] at h
  exact spared_of_kept (fun r => r.acceptReveal_allOrNothing a secret) (by intros; nofun) h

theorem spared_submitRecovery {proof : Recovery} (h : submitRecovery proof l = (l', .error e)) :
    l.Spared l' e := by
  rw [submitRecovery, acceptRecovery, bind_assoc, Acting.bind_of_ok (Acting.state_apply l)] at h
  simp only [bind_assoc, pure_bind] at h
  exact spared_of_kept (fun r => r.applyRecovery_allOrNothing l.settings.delay proof)
    (by intros; nofun) h

theorem spared_disclose {cos : Word} (h : disclose id a cos l = (l', .error e)) :
    l.Spared l' e := by
  rcases Acting.bind_eq_error h with h | ⟨l₁, x, hround, h⟩
  · refine spared_of_onRound (fun r c hc => ?_) h
    rcases r.acceptCos_allOrNothing a cos with hr | ⟨_, hr⟩ | ⟨_, _, hr, -⟩
    · rw [hr] at hc
      cases hc
    · rw [hr]
    · rw [hr] at hc
      cases hc
  · obtain ⟨r, hr, hx, rfl⟩ := onRound_eq_ok hround
    cases x with
    | false => cases h
    | true =>
      rcases r.acceptCos_allOrNothing a cos with hr' | ⟨_, hr'⟩ | ⟨r', _, hr', hne, hid⟩
      · rw [hr'] at hx
        cases hx
      · rw [hr'] at hx
        cases hx
      · rw [hr'] at h
        refine spared_of_keepRecord hr hid hne ?_ h
        intro l₂ hr₂ u l₃ e h
        rw [Acting.bind_of_ok (round_of_find? hr₂)] at h
        split at h <;> cases h

/-! ## Registrations and openings -/

/-- A refused registration is entered in the book, and the disk refused it. -/
theorem register_eq_error {peer : String} (h : register a peer l = (l', .error e)) :
    l.book.peer? a ≠ some peer ∧ l'.book.peer? a = some peer ∧ e.IsStore := by
  unfold register enroll at h
  split at h
  · cases h
  rename_i l₁ book henroll
  split at henroll
  · cases henroll
  rename_i hpeer
  cases henroll
  obtain ⟨⟨disk, rfl⟩, hstore⟩ := onDisk_eq h
  exact ⟨hpeer, AddressBook.peer?_insert a peer l.book, hstore e rfl⟩

theorem spared_register {peer : String} (h : register a peer l = (l', .error e)) :
    l.Spared l' e := by
  obtain ⟨hbefore, hafter, hstore⟩ := register_eq_error h
  exact spared_of_store (fun hsame => hbefore (hsame.1 ▸ hafter)) hstore

/-- Sent again, a refused registration is accepted, and still not kept on disk. -/
theorem register_again {peer : String} (h : register a peer l = (l', .error e)) :
    register a peer l' = (l', .ok ()) := by
  rw [register, enroll, if_pos (register_eq_error h).2.1]

/-- A new registration is refused if no file can be opened, and stays in the book. -/
theorem register_unkept {peer : String} (hpeer : l.book.peer? a ≠ some peer)
    (hdisk : l.disk.faults.head? = some (some .opening)) :
    ∃ l' e, register a peer l = (l', .error e) ∧ ¬l.SameHoldings l' := by
  obtain ⟨faults, hfaults⟩ := List.head?_eq_some_iff.mp hdisk
  have hrefused : (register a peer l).2 = .error (.store (.io FileKey.addressBook.name)) := by
    rw [register, enroll, if_neg hpeer]
    simp only [keepBook, onDisk_apply, Disk.saveBook, Disk.save, Disk.replaceFile, Disk.replace,
      Disk.nextFault, hfaults, List.headD_cons, true_or, if_true]
    rfl
  have hregister : register a peer l = ((register a peer l).1, .error _) := Prod.ext rfl hrefused
  obtain ⟨hbefore, hafter, -⟩ := register_eq_error hregister
  exact ⟨_, _, hregister, fun hsame => hbefore (hsame.1 ▸ hafter)⟩

theorem create_eq {eligible : List Address} {l₁ : Leader} {result : Except NodeError Round}
    (h : (Acting.within (·.registry) (fun l registry => { l with registry })
      (.ofOperation .round (·.create id eligible)) : Acting Leader Round) l = (l₁, result)) :
    (l₁ = l ∧ ∃ c, result = .error (.round c)) ∨
      l.registry.find? id = none ∧ (∃ r, l₁.registry.find? id = some r) ∧ result.isOk = true := by
  obtain ⟨-, hcreate⟩ | ⟨hnew, hcreate⟩ := l.registry.create_spec id eligible
  · simp only [Acting.within, Acting.ofOperation, hcreate] at h
    cases h
    exact .inl ⟨rfl, _, rfl⟩
  · have hfree := Registry.find?_eq_none_iff.mpr hnew
    simp only [Acting.within, Acting.ofOperation, hcreate] at h
    cases h
    exact .inr ⟨hfree, ⟨_, Registry.find?_insertRound (r := .start id eligible) hfree⟩, rfl⟩

theorem spared_openRound {eligible : List Address}
    (h : openRound id eligible l = (l', .error e)) : l.Spared l' e := by
  rw [openRound, Acting.bind_of_ok (Acting.state_apply l)] at h
  rcases Acting.bind_eq_error h with hnotice | ⟨l₁, notice, hnotice, hrest⟩
  · obtain ⟨hl, he⟩ := Acting.give_eq hnotice
    obtain ⟨c, rfl⟩ := he e rfl
    refine hl ▸ spared_of_same (.refl _) ?_
    rintro ⟨cause, hcause⟩
    cases hcause
  have hl : l₁ = l := (Acting.give_eq hnotice).1
  subst hl
  rcases Acting.bind_eq_error hrest with hcreate | ⟨l₂, r, hcreate, hkeep⟩
  · rcases create_eq hcreate with ⟨rfl, c, hc⟩ | ⟨-, -, hok⟩
    · cases hc
      refine spared_of_same (.refl _) ?_
      rintro ⟨cause, hcause⟩
      cases hcause
    · cases hok
  rcases create_eq hcreate with ⟨-, c, hc⟩ | ⟨hfree, ⟨r, hr⟩, -⟩
  · cases hc
  -- The round is there now, and only the disk can refuse its number.
  rcases Acting.bind_eq_error hkeep with hraise | ⟨l₃, _, -, hdone⟩
  · obtain ⟨hregistry, -, -, -, ⟨hok, -⟩ | ⟨cause, hstore⟩⟩ := raiseLatest_spec hraise
    · cases hok
    · refine spared_of_store (fun hsame => ?_) ⟨cause, Except.error.inj hstore⟩
      have hfind := hsame.2 id
      rw [hregistry, hr, hfree] at hfind
      cases hfind
  · cases hdone

/-! ## Messages -/

theorem spared_or_signed {kind : Kind} {payload : Payload} {f : Body kind → Acting Leader Unit}
    (h : (signedBody kind payload >>= f) l = (l', .error e)) :
    l.Spared l' e ∨ ∃ body, f body l = (l', .error e) := by
  cases hd : payload.decodeSigned kind with
  | error c =>
    rw [signedBody, hd] at h
    cases h
    exact .inl (spared_of_same (.refl _) nofun)
  | ok m =>
    rw [signedBody, hd] at h
    exact .inr ⟨m.body, h⟩

theorem spared_receive {kind : Kind} {payload : Payload}
    (h : receive kind payload l = (l', .error e)) : l.Spared l' e := by
  unfold receive at h
  split at h
  case h_1 =>
    rcases spared_or_signed h with h | ⟨⟨operator, peer⟩, h⟩
    · exact h
    · exact spared_register h
  case h_2 =>
    rcases spared_or_signed h with h | ⟨⟨id, operator, cvs, sealed⟩, h⟩
    · exact h
    · rcases Acting.bind_eq_error h with h | ⟨_, _, _, h⟩
      · exact spared_commit h
      · cases h
  case h_3 =>
    rcases spared_or_signed h with h | ⟨⟨id, operator, cos⟩, h⟩
    · exact h
    · rcases Acting.bind_eq_error h with h | ⟨_, _, _, h⟩
      · exact spared_disclose h
      · cases h
  case h_4 =>
    rcases spared_or_signed h with h | ⟨⟨id, operator, secret⟩, h⟩
    · exact h
    · exact spared_reveal h
  case h_5 =>
    cases h
    exact spared_of_same (.refl _) nofun

/-! ## Requests -/

inductive Request where
  | message (kind : Kind) (payload : Payload)
  | recovery (proof : Recovery)
  | opening (id : UInt64) (eligible : List Address)

def Request.act : Request → Acting Leader Unit
  | .message kind payload => receive kind payload
  | .recovery proof => do let _ ← submitRecovery proof
  | .opening id eligible => openRound id eligible

/-- A refused request leaves the book, the numbers of the rounds and every round as they
were exactly if it was not the disk that refused. What the disk refuses to keep is
there all the same. -/
theorem refused_iff {request : Request} (h : request.act l = (l', .error e)) :
    l.SameHoldings l' ↔ ¬e.IsStore := by
  cases request with
  | message kind payload => exact spared_receive h
  | recovery proof =>
    rcases Acting.bind_eq_error h with h | ⟨_, _, _, h⟩
    · exact spared_submitRecovery h
    · cases h
  | opening id eligible => exact spared_openRound h

end Leader

end Beacon
