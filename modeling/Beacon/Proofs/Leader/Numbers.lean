import Beacon.Proofs.Leader.Registration
import Beacon.Proofs.Leader.Work
import Beacon.Proofs.Round.Registry

/-
  The numbers of rounds that a leader has given away. There are three places for them: the
  highest number, its file, and the registry. Work on rounds that are open changes none of the
  first two and adds nothing to the third (`SameNumbers`), whether it is a handler's, a
  driver's or a recovery task's, since this frame bears with all that work is made of
  (`bears_sameNumbers`). Only the opening of a round does more, and `Opens` says what.
-/

namespace Beacon.Leader

open Acting (Within)

variable {l l' l'' : Leader} {id : UInt64} {α : Type}

/-! ## The frame -/

/-- The book is in order, and what is in its file can be loaded. -/
def BookLoads (l : Leader) : Prop := l.book.Ascending ∧ ∃ book, l.disk.loadBook = .ok book

/-- The highest number and its file are as they were, rounds may have gone but none has come,
and the book still loads if it did. -/
structure SameNumbers (l l' : Leader) : Prop where
  latest : l'.latest = l.latest
  file : l'.disk.loadLatest = l.disk.loadLatest
  ids : l'.registry.ids.Sublist l.registry.ids
  book : l.BookLoads → l'.BookLoads

namespace SameNumbers

theorem refl (l : Leader) : l.SameNumbers l := ⟨rfl, rfl, .refl _, id⟩

theorem trans (h : l.SameNumbers l') (h' : l'.SameNumbers l'') : l.SameNumbers l'' where
  latest := h'.latest.trans h.latest
  file := h'.file.trans h.file
  ids := h'.ids.trans h.ids
  book := h'.book ∘ h.book

theorem of_eq (hlatest : l'.latest = l.latest) (hdisk : l'.disk = l.disk)
    (hregistry : l'.registry = l.registry) (hbook : l'.book = l.book) : l.SameNumbers l' where
  latest := hlatest
  file := by rw [hdisk]
  ids := by rw [hregistry]
  book h := by
    rw [BookLoads, hbook, hdisk]
    exact h

theorem of_save {s : Saving} (hlatest : RecordKey.latestRound ≠ s.key)
    (hbook : RecordKey.addressBook ≠ s.key) : l.SameNumbers (l.withDisk (s.act l.disk).1) where
  latest := rfl
  file := Disk.load_act (.inl hlatest)
  ids := .refl _
  book := by
    rintro ⟨horder, book, hload⟩
    exact ⟨horder, book, (Disk.loadBook_act (.inl hbook)).trans hload⟩

end SameNumbers

/-- Done or refused, an action leaves the numbers alone. -/
def KeepsNumbers (x : Acting Leader α) : Prop := Within SameNumbers x

theorem bears_sameNumbers : Bears (fun _ => True) SameNumbers where
  refl := .refl
  trans := .trans
  operation op _ _ := by
    refine ⟨rfl, rfl, ?_, fun hbook => hbook⟩
    show (Registry.replace _ _).ids.Sublist _
    rw [Registry.ids_replace]
  saving _ _ hlatest hbook := .of_save hlatest hbook
  network _ _ := .of_eq rfl rfl rfl rfl
  waking _ _ := .of_eq rfl rfl rfl rfl
  waiters _ _ _ := .of_eq rfl rfl rfl rfl
  recoveries _ _ := .of_eq rfl rfl rfl rfl
  outcomes _ _ := .of_eq rfl rfl rfl rfl
  pruning l keep := ⟨rfl, rfl, l.registry.ids_prune keep, fun hbook => hbook⟩

namespace KeepsNumbers

theorem register (a : Address) (peer : String) : KeepsNumbers (Leader.register a peer) := by
  intro l
  obtain ⟨hrest, -, hfiles⟩ := within_register (a := a) peer l
  have hregistry : (Leader.register a peer l).1.registry = l.registry :=
    (congrArg Leader.registry hrest :)
  refine ⟨(congrArg Leader.latest hrest :), ?_, by rw [hregistry], ?_⟩
  · refine Disk.load_congr (hfiles _ (fun hname => ?_) (FileKey.name_ne_temporary _ _))
    cases FileKey.name_injective hname
  · -- Both the book and its file may change, and each is in order again.
    rintro ⟨horder, book, hload⟩
    obtain ⟨horder', -, hload'⟩ := register_keeps horder hload (a, peer)
    exact ⟨horder', _, hload'⟩

theorem reveal (id : UInt64) (a : Address) (secret : Word) :
    KeepsNumbers (Leader.reveal id a secret) := by
  refine bears_sameNumbers.bind (bears_sameNumbers.acceptSecret id a secret) fun before l => ?_
  show l.SameNumbers (noteSecret id a before l)
  unfold noteSecret
  split <;> exact .of_eq rfl rfl rfl rfl

theorem receive (kind : Kind) (payload : Payload) : KeepsNumbers (Leader.receive kind payload) := by
  have h := bears_sameNumbers
  have hsigned (k : Kind) : KeepsNumbers (signedBody k payload) :=
    h.bind (h.give _ _) fun m => h.answer m.body
  unfold Leader.receive
  split
  · exact h.bind (hsigned .register) fun (.register a peer) => register a peer
  · exact h.bind (hsigned .commit) fun (.commit id a cvs sealed) =>
      h.bind (h.commit id a cvs sealed) fun _ => h.answer ()
  · exact h.bind (hsigned .cos) fun (.cos id a cos) =>
      h.bind (h.disclose id a cos) fun _ => h.answer ()
  · exact h.bind (hsigned .secretValue) fun (.secretValue id a secret) => reveal id a secret
  · exact h.refuse _

theorem submitRecovery (proof : Recovery) : KeepsNumbers (Leader.submitRecovery proof) :=
  bears_sameNumbers.submitRecovery proof

theorem conclude (t : RecoveryTask) : KeepsNumbers (Leader.conclude t) :=
  bears_sameNumbers.conclude t

end KeepsNumbers

theorem sameNumbers_drive (d : Driver) (l : Leader) : l.SameNumbers (drive d l) := by
  have hkeeps := bears_sameNumbers.step d (fun _ => trivial) l
  unfold drive
  rcases hstep : step d l with ⟨l', e | _ | next⟩ <;> rw [hstep] at hkeeps
  · exact hkeeps.trans (.of_eq rfl rfl rfl rfl)
  · exact hkeeps.trans (.of_eq rfl rfl rfl rfl)
  · exact hkeeps.trans (.of_eq rfl rfl rfl rfl)

/-! ## The opening of a round -/

/-- What the opening of a round changes: the highest number and its file rise together or not
at all, the number may come to the registry, and the book still loads. It is done only if the
highest number has come up to that of the round, and refused for a round's reason only if the
registry has the number. -/
structure Opens (id : UInt64) (l l' : Leader) (answer : Except NodeError Unit) : Prop where
  latest : l'.latest = l.latest ∧ l'.disk.loadLatest = l.disk.loadLatest ∨
    l.latest < id ∧ l'.latest = id ∧ l'.disk.loadLatest = .ok (some id)
  ids : ∀ n ∈ l'.registry.ids, n = id ∨ n ∈ l.registry.ids
  ascending : l.registry.Ascending → l'.registry.Ascending
  book : l.BookLoads → l'.BookLoads
  done : answer = .ok () → id ≤ l'.latest
  taken : ∀ c, answer = .error (.round c) → id ∈ l.registry.ids

/-- Saving the highest number puts it in its file or is refused, and leaves the book alone. -/
theorem saveLatest_spec (d : Disk) (id : UInt64) :
    (d.saveLatest id).1.loadBook = d.loadBook ∧
      ((d.saveLatest id).2 = .ok () ∧ (d.saveLatest id).1.loadLatest = .ok (some id) ∨
        ∃ c, (d.saveLatest id).2 = .error c ∧ (d.saveLatest id).1.loadLatest = d.loadLatest) := by
  refine ⟨Disk.loadBook_act (s := .latestRound id) (.inl nofun), ?_⟩
  cases hanswer : (d.saveLatest id).2 with
  | ok _ => exact .inl ⟨rfl, Disk.load_act_key (s := .latestRound id) trivial hanswer⟩
  | error c =>
    refine .inr ⟨c, rfl, Disk.load_act (s := .latestRound id) (k := .latestRound) (.inr ?_)⟩
    intro hok
    cases hanswer.symm.trans hok

/-- The highest number rises on disk first. -/
theorem raiseLatest_spec {result : Except NodeError Unit} (h : raiseLatest id l = (l', result)) :
    l'.registry = l.registry ∧ l'.book = l.book ∧ l'.disk.loadBook = l.disk.loadBook ∧
      (l'.latest = l.latest ∧ l'.disk.loadLatest = l.disk.loadLatest ∨
        l.latest < id ∧ l'.latest = id ∧ l'.disk.loadLatest = .ok (some id)) ∧
      (result = .ok () ∧ id ≤ l'.latest ∨ ∃ c, result = .error (.store c)) := by
  rw [raiseLatest, Acting.bind_of_ok (Acting.state_apply l)] at h
  by_cases hlt : l.latest < id
  · rw [if_pos hlt] at h
    obtain ⟨hbook, ⟨hok, hload⟩ | ⟨c, herror, hload⟩⟩ := saveLatest_spec l.disk id
    · have hsave : onDisk (·.saveLatest id) l = (l.withDisk (l.disk.saveLatest id).1, .ok ()) := by
        rw [onDisk_apply, hok]
        rfl
      rw [Acting.bind_of_ok hsave] at h
      cases h
      exact ⟨rfl, rfl, hbook, .inr ⟨hlt, rfl, hload⟩, .inl ⟨rfl, UInt64.le_refl id⟩⟩
    · have hsave : onDisk (·.saveLatest id) l =
          (l.withDisk (l.disk.saveLatest id).1, .error (.store c)) := by
        rw [onDisk_apply, herror]
        rfl
      rw [Acting.bind_of_error hsave] at h
      cases h
      exact ⟨rfl, rfl, hbook, .inl ⟨rfl, hload⟩, .inr ⟨c, rfl⟩⟩
  · rw [if_neg hlt] at h
    cases h
    exact ⟨rfl, rfl, rfl, .inl ⟨rfl, rfl⟩, .inl ⟨rfl, UInt64.not_lt.mp hlt⟩⟩

theorem Opens.of_refused {e : NodeError} (htaken : ∀ c, e = .round c → id ∈ l.registry.ids) :
    Opens id l l (.error e) where
  latest := .inl ⟨rfl, rfl⟩
  ids _ h := .inr h
  ascending h := h
  book h := h
  done := nofun
  taken c h := htaken c (Except.error.inj h)

/-- The number has come to the registry, and the highest number rises or is refused. -/
theorem opens_of_raise {eligible : List Address} {answer : Except NodeError Unit}
    (h : raiseLatest id { l with registry := (l.registry.create id eligible).1 } = (l', answer)) :
    Opens id l l' answer := by
  obtain ⟨hregistry, hbook, hload, hlatest, hanswer⟩ := raiseLatest_spec h
  refine ⟨hlatest, ?_, ?_, ?_, ?_, ?_⟩
  · rw [hregistry]
    exact fun n hn => Registry.mem_ids_create hn
  · rw [hregistry]
    exact fun hl => hl.create id eligible
  · rw [BookLoads, BookLoads, hbook, hload]
    exact fun hl => hl
  · rintro rfl
    obtain ⟨-, hle⟩ | ⟨c, hrefused⟩ := hanswer
    · exact hle
    · cases hrefused
  · rintro c rfl
    obtain ⟨hok, -⟩ | ⟨c', hrefused⟩ := hanswer
    · cases hok
    · cases hrefused

theorem openRound_opens (id : UInt64) (eligible : List Address) (l : Leader) :
    Opens id l (openRound id eligible l).1 (openRound id eligible l).2 := by
  rcases h : openRound id eligible l with ⟨l', answer⟩
  have hcreate : (Acting.within (·.registry) (fun l registry => { l with registry })
      (.ofOperation .round (·.create id eligible)) : Acting Leader Round) l =
        ({ l with registry := (l.registry.create id eligible).1 },
          (l.registry.create id eligible).2.mapError .round) := rfl
  rw [openRound, Acting.bind_of_ok (Acting.state_apply l)] at h
  cases hnotice : Message.signed (.roundOpened id eligible ·) l.signer with
  | error e =>
    rw [hnotice, Acting.bind_of_error (Acting.give_error _ e l)] at h
    cases h
    exact .of_refused nofun
  | ok notice =>
    rw [hnotice, Acting.bind_of_ok (Acting.give_ok _ notice l)] at h
    obtain ⟨hid, hspec⟩ | ⟨-, hspec⟩ := l.registry.create_spec id eligible
    · rw [hspec] at hcreate
      rw [Acting.bind_of_error hcreate] at h
      cases h
      exact .of_refused fun _ _ => hid
    · rw [show (l.registry.create id eligible).2.mapError NodeError.round = .ok (.start id eligible)
        by rw [hspec]; rfl] at hcreate
      rw [Acting.bind_of_ok hcreate] at h
      rcases hraise : raiseLatest id { l with registry := (l.registry.create id eligible).1 } with
        ⟨l₁, e | _⟩
      · rw [Acting.bind_of_error hraise] at h
        cases h
        exact opens_of_raise hraise
      · -- The driver that is started and the notices do not matter here.
        rw [Acting.bind_of_ok hraise] at h
        cases h
        have hopens := opens_of_raise hraise
        exact ⟨hopens.latest, hopens.ids, hopens.ascending, hopens.book, hopens.done, hopens.taken⟩

end Beacon.Leader
