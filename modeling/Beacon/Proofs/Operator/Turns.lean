import Beacon.Proofs.Operator.Actions
import Beacon.Proofs.Store.Files

/-
  One step of a call that makes a commitment. Where it stands, a call relies on the disk
  (`CommitTask.Relies`): when it is about to keep its commitment there is no file of the
  round, and when it is about to send it the file holds it. A step keeps what the call
  relies on, sends nothing but what the disk backs, and touches no file but that of a round
  that the call has claimed (`CommitTask.turn_step`).
-/

namespace Beacon

/-! ## Calls -/

namespace CommitTask

/-- A call that has claimed its round and not given it up. -/
def Claims : CommitTask → Prop
  | .claiming => False
  | .finished _ => False
  | _ => True

/-- What a call relies on from the disk: no file of its round while there is none to be
sent, and then the file it made. -/
def Relies (disk : Disk) (round : UInt64) : CommitTask → Prop
  | .drawing => disk.find? (FileKey.commitment round).name = none
  | .keeping made => disk.find? (FileKey.commitment round).name = none ∧
      made.commitment.round = round ∧ made.commitment.checkBinding = .ok ()
  | .sending made => disk.loadCommitment round = .ok (some made)
  | _ => True

theorem relies_of_not_claims {disk : Disk} {round : UInt64} {t : CommitTask} (h : ¬t.Claims) :
    t.Relies disk round := by
  cases t with
  | claiming => trivial
  | finished => trivial
  | _ => exact absurd trivial h

theorem Relies.congr {disk disk' : Disk} {round : UInt64} {t : CommitTask} (h : t.Relies disk round)
    (hfile : disk'.find? (FileKey.commitment round).name =
      disk.find? (FileKey.commitment round).name) : t.Relies disk' round := by
  cases t with
  | drawing => exact hfile.trans h
  | keeping made => exact ⟨hfile.trans h.1, h.2⟩
  | sending made => exact (Disk.load_congr hfile).trans h
  | _ => trivial

theorem after_releasing {α : Type} (r : Except NodeError Word) (x : Acting Operator α)
    (o : Operator) :
    ∃ result, after (fun _ => .releasing r) x o = ((x o).1, .releasing result) := by
  unfold after
  rcases x o with ⟨o', e | a⟩
  · exact ⟨.error e, rfl⟩
  · exact ⟨r, rfl⟩

end CommitTask

/-! ## Disks -/

namespace Disk

/-- No file of a commitment that is there has changed. -/
def Preserves (disk disk' : Disk) : Prop :=
  ∀ round e, disk.find? (FileKey.commitment round).name = some e →
    disk'.find? (FileKey.commitment round).name = some e

theorem Preserves.refl (disk : Disk) : Preserves disk disk := fun _ _ h => h

theorem Preserves.trans {d₁ d₂ d₃ : Disk} (h : Preserves d₁ d₂) (h' : Preserves d₂ d₃) :
    Preserves d₁ d₃ := fun round e he => h' round e (h round e he)

theorem Preserves.loadCommitment {disk disk' : Disk} (h : Preserves disk disk') {round : UInt64}
    {c : SealedCommitment} (hc : disk.loadCommitment round = .ok (some c)) :
    disk'.loadCommitment round = .ok (some c) := by
  obtain ⟨e, he⟩ := find?_of_load_some hc
  exact (load_congr ((h round e he).trans he.symm)).trans hc

/-- Where a round has no file its commitment is kept, or there is no file still. -/
theorem saveCommitment_spec {disk disk' : Disk} {made : SealedCommitment}
    {result : Except StoreError Unit} (hbound : disk.Bound)
    (hfree : disk.find? (FileKey.commitment made.commitment.round).name = none)
    (hbinding : made.commitment.checkBinding = .ok ())
    (h : disk.saveCommitment made = (disk', result)) :
    (∀ round, round ≠ made.commitment.round → disk'.find? (FileKey.commitment round).name =
      disk.find? (FileKey.commitment round).name) ∧
    disk.Preserves disk' ∧ disk'.Bound ∧
    (result = .ok () ∧ disk'.loadCommitment made.commitment.round = .ok (some made) ∨
      ∃ e, result = .error e) := by
  obtain ⟨hothers, hresult⟩ := replaceFile_spec h
  have hother (round : UInt64) (hround : round ≠ made.commitment.round) :
      disk'.find? (FileKey.commitment round).name = disk.find? (FileKey.commitment round).name :=
    hothers (.commitment round) fun hkey => hround (FileKey.commitment.inj hkey)
  have hpres : disk.Preserves disk' := by
    intro round e he
    by_cases hround : round = made.commitment.round
    · rw [hround, hfree] at he
      cases he
    · exact (hother round hround).trans he
  -- Whatever the file of this round holds now is what was made.
  have hbound' (hmade : ∀ c, disk'.loadCommitment made.commitment.round = .ok (some c) →
      c = made) : disk'.Bound := by
    intro round c hc
    by_cases hround : round = made.commitment.round
    · rw [hmade c (hround ▸ hc)]
      exact hbinding
    · exact hbound round c ((load_congr (hother round hround)).symm.trans hc)
  rcases hresult with ⟨rfl, hfile⟩ | ⟨rfl, hfile⟩
  · have hload : disk'.loadCommitment made.commitment.round = .ok (some made) :=
      load_of_file (Format.keeps_sealedCommitment made) hfile
    refine ⟨hother, hpres, hbound' fun c hc => ?_, .inl ⟨rfl, hload⟩⟩
    exact Option.some.inj (Except.ok.inj (hc.symm.trans hload))
  · refine ⟨hother, hpres, hbound' fun c hc => ?_, .inr ⟨_, rfl⟩⟩
    obtain ⟨e, he⟩ := find?_of_load_some hc
    rw [hfile, hfree] at he
    cases he

end Disk

theorem Body.Backed.preserved {disk disk' : Disk} {k : Kind} {b : Body k} (h : b.Backed disk)
    (hpres : disk.Preserves disk') : b.Backed disk' := by
  cases b with
  | commit round a cvs shut =>
    obtain ⟨c, hc, hsame⟩ := h
    exact ⟨c, hpres.loadCommitment hc, hsame⟩
  | cos round a first =>
    obtain ⟨c, hc, hopens⟩ := h
    exact ⟨c, hpres.loadCommitment hc, hopens⟩
  | secretValue round a secret =>
    obtain ⟨c, hc, hopens⟩ := h
    exact ⟨c, hpres.loadCommitment hc, hopens⟩
  | _ => trivial

theorem Delivery.Backed.preserved {disk disk' : Disk} {d : Delivery} (h : d.Backed disk)
    (hpres : disk.Preserves disk') : d.Backed disk' := by
  obtain ⟨m, hm, hbacked⟩ := h
  exact ⟨m, hm, hbacked.preserved hpres⟩

namespace Disk

/-- The disk backs what was delivered since `past`. -/
def Backs (disk : Disk) (past now : List Delivery) : Prop :=
  ∃ ds, now = past ++ ds ∧ ∀ d ∈ ds, d.Backed disk

theorem Backs.refl (disk : Disk) (past : List Delivery) : disk.Backs past past :=
  ⟨[], (List.append_nil past).symm, List.forall_mem_nil _⟩

theorem Backs.preserved {disk disk' : Disk} {past now : List Delivery} (h : disk.Backs past now)
    (hpres : disk.Preserves disk') : disk'.Backs past now := by
  obtain ⟨ds, hds, hbacked⟩ := h
  exact ⟨ds, hds, fun d hd => (hbacked d hd).preserved hpres⟩

theorem Backs.trans {disk : Disk} {past mid now : List Delivery} (h : disk.Backs past mid)
    (h' : disk.Backs mid now) : disk.Backs past now := by
  obtain ⟨ds, rfl, hds⟩ := h
  obtain ⟨ds', rfl, hds'⟩ := h'
  exact ⟨ds ++ ds', List.append_assoc .., List.forall_mem_append.mpr ⟨hds, hds'⟩⟩

end Disk

/-! ## Steps of a call -/

namespace CommitTask

/-- What a step of a call changes at most. Only a call that claims its round touches the file
of the round and gives the claim up, and a call comes to claim a round that no one claims. -/
structure Turn (round : UInt64) (o o' : Operator) (t t' : CommitTask) : Prop where
  file : ∀ r, o'.disk.find? (FileKey.commitment r).name =
    o.disk.find? (FileKey.commitment r).name ∨ r = round ∧ t.Claims
  preserves : o.disk.Preserves o'.disk
  bound : o'.disk.Bound
  pending : ∀ r ∈ o.pending, r ∈ o'.pending ∨ r = round ∧ t.Claims
  claims : t'.Claims → (t.Claims ∨ round ∉ o.pending) ∧ round ∈ o'.pending
  relies : t'.Relies o'.disk round
  sent : o'.disk.Backs o.network.delivered o'.network.delivered

variable {round : UInt64} {draw : Draw} {o o' : Operator} {t t' : CommitTask}

theorem Turn.passed (hbound : o.disk.Bound) (hclaims : t'.Claims → t.Claims ∧ round ∈ o.pending)
    (hrelies : t'.Relies o.disk round) : Turn round o o t t' where
  file _ := .inl rfl
  preserves := .refl o.disk
  bound := hbound
  pending _ hr := .inl hr
  claims ht' := ⟨.inl (hclaims ht').1, (hclaims ht').2⟩
  relies := hrelies
  sent := .refl o.disk _

theorem turn_claiming (hbound : o.disk.Bound) (h : step round draw o .claiming = (o', t')) :
    Turn round o o' .claiming t' := by
  by_cases hround : round ∈ o.pending
  · have hstep : step round draw o .claiming =
        (o, .finished (.error (.alreadyCommitted round))) := if_pos hround
    cases hstep.symm.trans h
    exact .passed hbound nofun trivial
  · have hstep : step round draw o .claiming =
        ({ o with pending := round :: o.pending }, .searching) := if_neg hround
    cases hstep.symm.trans h
    exact
      { file := fun _ => .inl rfl
        preserves := .refl o.disk
        bound := hbound
        pending := fun r hr => .inl (List.mem_cons_of_mem round hr)
        claims := fun _ => ⟨.inr hround, List.mem_cons_self⟩
        relies := trivial
        sent := .refl o.disk _ }

theorem turn_searching (hbound : o.disk.Bound) (hround : round ∈ o.pending)
    (h : step round draw o .searching = (o', t')) : Turn round o o' .searching t' := by
  cases hload : o.disk.loadCommitment round with
  | error e =>
    have hstep : step round draw o .searching = (o, .releasing (.error (.store e))) := by
      simp only [step, hload]
    cases hstep.symm.trans h
    exact .passed hbound (fun _ => ⟨trivial, hround⟩) trivial
  | ok found =>
    cases found with
    | some c =>
      have hstep : step round draw o .searching =
          (o, .releasing (.error (.alreadyCommitted round))) := by
        simp only [step, hload]
      cases hstep.symm.trans h
      exact .passed hbound (fun _ => ⟨trivial, hround⟩) trivial
    | none =>
      have hstep : step round draw o .searching = (o, .drawing) := by
        simp only [step, hload]
      cases hstep.symm.trans h
      exact .passed hbound (fun _ => ⟨trivial, hround⟩) (Disk.find?_of_load_none hload)

theorem turn_drawing (hbound : o.disk.Bound) (hround : round ∈ o.pending)
    (hrelies : drawing.Relies o.disk round) (h : step round draw o .drawing = (o', t')) :
    Turn round o o' .drawing t' := by
  cases hdraw : o.drawSealed round draw with
  | error e =>
    have hstep : step round draw o .drawing = (o, .releasing (.error e)) := by
      simp only [step, hdraw]
    cases hstep.symm.trans h
    exact .passed hbound (fun _ => ⟨trivial, hround⟩) trivial
  | ok made =>
    have hstep : step round draw o .drawing = (o, .keeping made) := by
      simp only [step, hdraw]
    cases hstep.symm.trans h
    exact .passed hbound (fun _ => ⟨trivial, hround⟩)
      ⟨hrelies, Operator.drawSealed_spec hdraw⟩

theorem turn_keeping {made : SealedCommitment} (hbound : o.disk.Bound) (hround : round ∈ o.pending)
    (hrelies : (keeping made).Relies o.disk round)
    (h : step round draw o (.keeping made) = (o', t')) : Turn round o o' (.keeping made) t' := by
  obtain ⟨hfree, rfl, hbinding⟩ := hrelies
  rcases hsave : o.disk.saveCommitment made with ⟨disk, result⟩
  obtain ⟨hother, hpreserves, hbound', hresult⟩ :=
    Disk.saveCommitment_spec hbound hfree hbinding hsave
  have hfile (r : UInt64) : disk.find? (FileKey.commitment r).name =
      o.disk.find? (FileKey.commitment r).name ∨
        r = made.commitment.round ∧ (keeping made).Claims := by
    by_cases hr : r = made.commitment.round
    · exact .inr ⟨hr, trivial⟩
    · exact .inl (hother r hr)
  -- Whether it was kept or not, the call does not give its claim up yet.
  have hturn {next : CommitTask} (hnext : next.Relies disk made.commitment.round) :
      Turn made.commitment.round o { o with disk } (.keeping made) next :=
    { file := hfile
      preserves := hpreserves
      bound := hbound'
      pending := fun _ hr => .inl hr
      claims := fun _ => ⟨.inl trivial, hround⟩
      relies := hnext
      sent := .refl disk _ }
  rcases hresult with ⟨rfl, hload⟩ | ⟨e, rfl⟩
  · have hstep : step made.commitment.round draw o (.keeping made) =
        ({ o with disk }, .sending made) := by
      simp only [step, after, Operator.onDisk, Acting.within, Acting.ofOperation, hsave,
        Except.mapError]
    cases hstep.symm.trans h
    exact hturn hload
  · have hstep : step made.commitment.round draw o (.keeping made) =
        ({ o with disk }, .releasing (.error (.store e))) := by
      simp only [step, after, Operator.onDisk, Acting.within, Acting.ofOperation, hsave,
        Except.mapError]
    cases hstep.symm.trans h
    exact hturn trivial

theorem turn_sending {made : SealedCommitment} (hbound : o.disk.Bound) (hround : round ∈ o.pending)
    (hrelies : (sending made).Relies o.disk round)
    (h : step round draw o (.sending made) = (o', t')) : Turn round o o' (.sending made) t' := by
  -- What is about to be sent is what the file holds.
  have hload : o.disk.loadCommitment round = .ok (some made) := hrelies
  obtain ⟨ds, hds, hbacked⟩ : o.Reports
      (Operator.send (.commit round · made.commitment.cvs made.sealed) o).1 :=
    Operator.reports_send ⟨made, hload, rfl, rfl⟩
  have hstep : step round draw o (.sending made) =
      after (fun _ => .releasing (.ok made.commitment.cvs))
        (Operator.send (.commit round · made.commitment.cvs made.sealed)) o := rfl
  obtain ⟨result, hafter⟩ := after_releasing (.ok made.commitment.cvs)
    (Operator.send (.commit round · made.commitment.cvs made.sealed)) o
  rw [hds] at hafter
  cases (hstep.trans hafter).symm.trans h
  exact
    { file := fun _ => .inl rfl
      preserves := .refl o.disk
      bound := hbound
      pending := fun _ hr => .inl hr
      claims := fun _ => ⟨.inl trivial, hround⟩
      relies := trivial
      sent := ⟨ds, rfl, hbacked⟩ }

theorem turn_releasing {result : Except NodeError Word} (hbound : o.disk.Bound)
    (h : step round draw o (.releasing result) = (o', t')) :
    Turn round o o' (.releasing result) t' := by
  have hstep : step round draw o (.releasing result) =
      ({ o with pending := o.pending.erase round }, .finished result) := rfl
  cases hstep.symm.trans h
  refine
    { file := fun _ => .inl rfl
      preserves := .refl o.disk
      bound := hbound
      pending := fun r hr => ?_
      claims := nofun
      relies := trivial
      sent := .refl o.disk _ }
  by_cases hr' : r = round
  · exact .inr ⟨hr', trivial⟩
  · exact .inl ((List.mem_erase_of_ne hr').mpr hr)

/-- Every step of a call that is known to the operator and finds what it relies on. -/
theorem turn_step (hbound : o.disk.Bound) (hknown : t.Claims → round ∈ o.pending)
    (hrelies : t.Relies o.disk round) (h : t.step round draw o = (o', t')) :
    Turn round o o' t t' := by
  cases t with
  | claiming => exact turn_claiming hbound h
  | searching => exact turn_searching hbound (hknown trivial) h
  | drawing => exact turn_drawing hbound (hknown trivial) hrelies h
  | keeping made => exact turn_keeping hbound (hknown trivial) hrelies h
  | sending made => exact turn_sending hbound (hknown trivial) hrelies h
  | releasing result => exact turn_releasing hbound h
  | finished result =>
    have hstep : step round draw o (.finished result) = (o, .finished result) := rfl
    cases hstep.symm.trans h
    exact .passed hbound nofun trivial

end CommitTask

end Beacon
