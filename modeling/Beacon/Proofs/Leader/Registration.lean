import Beacon.Leader.Inbound
import Beacon.Proofs.Leader.Rounds
import Beacon.Proofs.Store.Holdings
import Mathlib.Data.List.Perm.Basic

/-
  The book of a leader and the file it is kept in. A registration enters the operator in the
  book, and then keeps a copy of the book; a leader that is started again has the copy that
  was kept last.

  A registration that finds the operator in the book keeps nothing, and the copy is not
  compared with the book when it is kept. So the file can fall behind the book in two ways.
  Registrations that come one after the other: what could not be kept is not kept later by
  the same registration, though that is accepted (`acknowledged_known_iff`). Registrations
  side by side: an older copy may be kept after a newer one (`kept_iff_last_copy`).
-/

namespace Beacon.Leader

variable {l l' : Leader} {a : Address} {peer : String} {book kept : AddressBook}
  {settings : LeaderSettings} {signer : Signer} {disk : Disk} {network : Network} {clock : Nat}

/-! ## The book and its file -/

theorem start_eq_ok (h : start settings signer disk network clock = .ok l) :
    l.disk = disk ∧ disk.loadBook = .ok l.book ∧ l.registry = .empty ∧
      ∃ latest, disk.loadLatest = .ok latest ∧ l.latest = latest.getD 0 := by
  unfold start at h
  cases hbook : disk.loadBook with
  | error e =>
    rw [hbook] at h
    cases h
  | ok book =>
    cases hlatest : disk.loadLatest with
    | error e =>
      rw [hbook, hlatest] at h
      cases h
    | ok latest =>
      rw [hbook, hlatest] at h
      cases h
      exact ⟨rfl, rfl, rfl, latest, rfl, rfl⟩

theorem start_of_loads {latest : Option UInt64} (hbook : disk.loadBook = .ok book)
    (hlatest : disk.loadLatest = .ok latest) (settings : LeaderSettings) (signer : Signer)
    (network : Network) (clock : Nat) :
    ∃ l, start settings signer disk network clock = .ok l ∧ l.book = book := by
  unfold start
  rw [hbook, hlatest]
  exact ⟨_, rfl, rfl⟩

theorem ascending_of_loadBook (h : disk.loadBook = .ok book) : book.Ascending := by
  rw [Disk.loadBook, Disk.load_eq] at h
  cases hfile : disk.find? FileKey.addressBook.name with
  | none =>
    rw [hfile] at h
    cases h
    exact .nil
  | some entry =>
    rw [hfile] at h
    cases entry with
    | directory => cases h
    | file text =>
      cases hparse : Format.addressBook.parse text with
      | error e =>
        simp only [hparse] at h
        cases h
      | ok read =>
        simp only [hparse] at h
        cases h
        exact Format.ascending_of_parse hparse

theorem keepBook_spec (hbook : book.Ascending) {result : Except NodeError Unit}
    (h : keepBook book l = (l', result)) :
    l'.book = l.book ∧ l'.disk.loadLatest = l.disk.loadLatest ∧
      (result = .ok () ∧ l'.disk.loadBook = .ok book ∨
        result ≠ .ok () ∧ l'.disk.loadBook = l.disk.loadBook) := by
  rw [keepBook, onDisk_apply] at h
  obtain ⟨rfl, rfl⟩ := Prod.mk.inj h
  have hlatest : (l.disk.saveBook book).1.loadLatest = l.disk.loadLatest :=
    Disk.load_act (s := .addressBook book) (k := .latestRound) (.inl nofun)
  refine ⟨rfl, hlatest, ?_⟩
  cases hanswer : (l.disk.saveBook book).2 with
  | ok _ => exact .inl ⟨rfl, Disk.loadBook_saveBook hbook hanswer⟩
  | error cause =>
    refine .inr ⟨nofun, Disk.loadBook_act (s := .addressBook book) (.inr ?_)⟩
    intro hok
    cases hanswer.symm.trans hok

theorem enroll_known (h : l.book.peer? a = some peer) : enroll a peer l = (l, none) := if_pos h

theorem enroll_new (h : l.book.peer? a ≠ some peer) :
    enroll a peer l =
      ({ l with book := l.book.insert a peer }, some (l.book.insert a peer)) := if_neg h

/-- What a registration does: nothing if the book says so already, and else the operator is
entered, and the new book is kept or the registration refused. -/
theorem register_spec (hbook : l.book.Ascending) {result : Except NodeError Unit}
    (h : register a peer l = (l', result)) :
    l'.disk.loadLatest = l.disk.loadLatest ∧
      (l.book.peer? a = some peer ∧ l' = l ∧ result = .ok () ∨
        l.book.peer? a ≠ some peer ∧ l'.book = l.book.insert a peer ∧
          (result = .ok () ∧ l'.disk.loadBook = .ok l'.book ∨
            result ≠ .ok () ∧ l'.disk.loadBook = l.disk.loadBook)) := by
  by_cases hknown : l.book.peer? a = some peer
  · rw [register, enroll_known hknown] at h
    cases h
    exact ⟨rfl, .inl ⟨hknown, rfl, rfl⟩⟩
  · rw [register, enroll_new hknown] at h
    obtain ⟨hsame, hlatest, hkept⟩ := keepBook_spec (hbook.insert a peer) h
    exact ⟨hlatest, .inr ⟨hknown, hsame, hkept.imp_left fun ⟨hok, hload⟩ => ⟨hok, hsame ▸ hload⟩⟩⟩

/-! ## One after the other -/

/-- Takes in registrations one after the other; the answers stand in the same order. -/
def registerAll (l : Leader) :
    List (Address × String) → Leader × List (Except NodeError Unit)
  | [] => (l, [])
  | m :: rest =>
    let taken := register m.1 m.2 l
    let others := registerAll taken.1 rest
    (others.1, taken.2 :: others.2)

/-- The book that is kept after a registration, if `kept` was before: the new book, if the
registration changed it and was accepted. -/
def keptAfter (l : Leader) (kept : AddressBook) (m : Address × String) : AddressBook :=
  if l.book.peer? m.1 ≠ some m.2 ∧ (register m.1 m.2 l).2.isOk then (register m.1 m.2 l).1.book
  else kept

def keptAfterAll (l : Leader) (kept : AddressBook) : List (Address × String) → AddressBook
  | [] => kept
  | m :: rest => keptAfterAll (register m.1 m.2 l).1 (l.keptAfter kept m) rest

theorem keptAfter_known (h : l.book.peer? a = some peer) : l.keptAfter kept (a, peer) = kept :=
  if_neg fun hchanged => hchanged.1 h

theorem keptAfter_new (h : l.book.peer? a ≠ some peer)
    (hok : register a peer l = (l', .ok ())) : l.keptAfter kept (a, peer) = l'.book := by
  have hchanged : l.book.peer? a ≠ some peer ∧ (register a peer l).2.isOk := by
    rw [hok]
    exact ⟨h, rfl⟩
  rw [keptAfter, if_pos hchanged, hok]

theorem keptAfter_refused {e : NodeError} (he : register a peer l = (l', .error e)) :
    l.keptAfter kept (a, peer) = kept := by
  refine if_neg fun hchanged => ?_
  rw [he] at hchanged
  cases hchanged.2

theorem ascending_register (hbook : l.book.Ascending) (m : Address × String) :
    (register m.1 m.2 l).1.book.Ascending := by
  rcases hregister : register m.1 m.2 l with ⟨l', result⟩
  obtain ⟨-, ⟨-, rfl, -⟩ | ⟨-, hchanged, -⟩⟩ := register_spec hbook hregister
  · exact hbook
  · exact hchanged ▸ hbook.insert m.1 m.2

/-- After a registration the book is in order, and its file holds what is kept. -/
theorem register_keeps (hbook : l.book.Ascending) (hkept : l.disk.loadBook = .ok kept)
    (m : Address × String) :
    (register m.1 m.2 l).1.book.Ascending ∧
      (register m.1 m.2 l).1.disk.loadLatest = l.disk.loadLatest ∧
      (register m.1 m.2 l).1.disk.loadBook = .ok (l.keptAfter kept m) := by
  refine ⟨ascending_register hbook m, ?_⟩
  rcases hregister : register m.1 m.2 l with ⟨l', result⟩
  obtain ⟨hlatest, ⟨hknown, rfl, rfl⟩ | ⟨hnew, -, hstored⟩⟩ := register_spec hbook hregister
  · refine ⟨rfl, ?_⟩
    rw [keptAfter_known hknown, hkept]
  · refine ⟨hlatest, ?_⟩
    cases result with
    | ok _ =>
      obtain ⟨-, hload⟩ | ⟨hrefused, -⟩ := hstored
      · rw [keptAfter_new hnew hregister, hload]
      · exact absurd rfl hrefused
    | error e =>
      obtain ⟨hok, -⟩ | ⟨-, hload⟩ := hstored
      · cases hok
      · rw [keptAfter_refused hregister, hload, hkept]

theorem registerAll_keeps (hbook : l.book.Ascending) (hkept : l.disk.loadBook = .ok kept)
    (ms : List (Address × String)) :
    (l.registerAll ms).1.book.Ascending ∧
      (l.registerAll ms).1.disk.loadLatest = l.disk.loadLatest ∧
      (l.registerAll ms).1.disk.loadBook = .ok (l.keptAfterAll kept ms) := by
  induction ms generalizing l kept with
  | nil => exact ⟨hbook, rfl, hkept⟩
  | cons m rest ih =>
    obtain ⟨hbook, hlatest, hkept⟩ := register_keeps hbook hkept m
    obtain ⟨hall, hlatestAll, hkeptAll⟩ := ih hbook hkept
    exact ⟨hall, hlatestAll.trans hlatest, hkeptAll⟩

theorem keptAfterAll_of_accepted (hbook : l.book.Ascending) (ms : List (Address × String))
    (h : ∀ answer ∈ (l.registerAll ms).2, answer = .ok ()) :
    l.keptAfterAll l.book ms = (l.registerAll ms).1.book := by
  induction ms generalizing l with
  | nil => rfl
  | cons m rest ih =>
    have hbook' := ascending_register hbook m
    rcases hregister : register m.1 m.2 l with ⟨l', result⟩
    rw [hregister] at hbook'
    simp only [registerAll, hregister, List.forall_mem_cons] at h
    obtain ⟨rfl, hrest⟩ := h
    have hkept : l.keptAfter l.book m = l'.book := by
      obtain ⟨-, ⟨hknown, rfl, -⟩ | ⟨hnew, -, -⟩⟩ := register_spec hbook hregister
      · exact keptAfter_known hknown
      · exact keptAfter_new hnew hregister
    simp only [keptAfterAll, registerAll, hregister, hkept]
    exact ih hbook' hrest

/-- A leader is started and takes in registrations in any number, and then accepts one. A
leader that is started again in the directory has the book that was kept last. It knows the
operator at the peer exactly if the book did not say so yet and was kept now, or said so when
it was kept last. That is so if no registration before was refused. -/
theorem acknowledged_known_iff {before : List (Address × String)}
    (hstart : start settings signer disk network clock = .ok l)
    (hregister : register a peer (l.registerAll before).1 = (l', .ok ())) :
    ∀ (network' : Network) (clock' : Nat), ∃ again,
      start settings signer l'.disk network' clock' = .ok again ∧
        l'.disk.loadBook = .ok again.book ∧
        (again.book.peer? a = some peer ↔
          (l.registerAll before).1.book.peer? a ≠ some peer ∨
            (l.keptAfterAll l.book before).peer? a = some peer) ∧
        ((∀ answer ∈ (l.registerAll before).2, answer = .ok ()) →
          again.book.peer? a = some peer) := by
  intro network' clock'
  obtain ⟨rfl, hload, -, latest, hlatest, -⟩ := start_eq_ok hstart
  have hbook : l.book.Ascending := ascending_of_loadBook hload
  obtain ⟨hbefore, hlatestBefore, hkeptBefore⟩ := registerAll_keeps hbook hload before
  obtain ⟨-, hlatestAfter, hkept⟩ := register_keeps hbefore hkeptBefore (a, peer)
  rw [hregister] at hlatestAfter hkept
  have hlatest' : l'.disk.loadLatest = .ok latest := by
    rw [hlatestAfter, hlatestBefore, hlatest]
  obtain ⟨again, hagain, hsame⟩ := start_of_loads hkept hlatest' settings signer network' clock'
  have hiff : again.book.peer? a = some peer ↔
      (l.registerAll before).1.book.peer? a ≠ some peer ∨
        (l.keptAfterAll l.book before).peer? a = some peer := by
    by_cases hknown : (l.registerAll before).1.book.peer? a = some peer
    · -- Nothing is kept now, so that it depends on what was kept last.
      rw [hsame, keptAfter_known hknown, or_iff_right (not_not.mpr hknown)]
    · obtain ⟨-, ⟨hknown', -⟩ | ⟨-, hchanged, -⟩⟩ := register_spec hbefore hregister
      · exact absurd hknown' hknown
      · refine iff_of_true ?_ (.inl hknown)
        rw [hsame, keptAfter_new hknown hregister, hchanged]
        exact AddressBook.peer?_insert a peer _
  refine ⟨again, hagain, hsame ▸ hkept, hiff, fun haccepted => hiff.mpr ?_⟩
  rw [keptAfterAll_of_accepted hbook before haccepted]
  exact (em _).symm

/-- The book cannot be opened for writing when the first operator registers. When the second
one does, all of it is kept, and the first is known when it registers again. -/
theorem acknowledged_known_retried :
    let settings : LeaderSettings := ⟨.ofSeconds 1, .ofSeconds 1, .ofSeconds 1, ⟨5, 3⟩⟩
    let signer : Signer := ⟨1, by decide, by decide⟩
    let a : Address := ⟨.ofNat 20 1⟩
    let before := [(a, "a"), (⟨.ofNat 20 2⟩, "b")]
    ∃ l l' again, start settings signer ⟨[], [some .opening]⟩ .empty 0 = .ok l ∧
      (l.registerAll before).2 = [.error (.store (.io FileKey.addressBook.name)), .ok ()] ∧
      register a "a" (l.registerAll before).1 = (l', .ok ()) ∧
      start settings signer l'.disk .empty 0 = .ok again ∧ again.book.peer? a = some "a" := by
  intro settings signer a before
  obtain ⟨l, hstart⟩ : ∃ l, start settings signer ⟨[], [some .opening]⟩ .empty 0 = .ok l :=
    ⟨_, rfl⟩
  have hl := Except.ok.inj hstart
  have hanswers : (l.registerAll before).2 =
      [.error (.store (.io FileKey.addressBook.name)), .ok ()] := hl ▸ rfl
  have hregister : register a "a" (l.registerAll before).1 = ((l.registerAll before).1, .ok ()) :=
    hl ▸ rfl
  have hkept : (l.keptAfterAll l.book before).peer? a = some "a" := hl ▸ rfl
  obtain ⟨again, hagain, -, hknown, -⟩ := acknowledged_known_iff hstart hregister .empty 0
  exact ⟨l, _, again, hstart, hanswers, hregister, hagain, hknown.mpr (.inr hkept)⟩

/-- The book cannot be opened for writing once. The operator that is refused registers again
and is accepted, and a leader that is started then does not know it. -/
theorem acknowledged_unknown :
    let settings : LeaderSettings := ⟨.ofSeconds 1, .ofSeconds 1, .ofSeconds 1, ⟨5, 3⟩⟩
    let signer : Signer := ⟨1, by decide, by decide⟩
    let a : Address := ⟨.ofNat 20 1⟩
    ∃ l l₁ l₂ again, start settings signer ⟨[], [some .opening]⟩ .empty 0 = .ok l ∧
      register a "a" l = (l₁, .error (.store (.io FileKey.addressBook.name))) ∧
      register a "a" l₁ = (l₂, .ok ()) ∧
      start settings signer l₂.disk .empty 0 = .ok again ∧ again.book.peer? a = none :=
  ⟨_, _, _, _, rfl, rfl, rfl, rfl, rfl⟩

/-! ## Side by side -/

/-- Where the handler of a registration stands: in front of its first step; in front of its
second, with the copy of the book that it is to keep; or at its end, with the answer. -/
inductive Handler where
  | entering (operator : Address) (peer : String)
  | keeping (copy : AddressBook)
  | finished (answer : Except NodeError Unit)

namespace Handler

/-- Takes one step of a handler. The first is taken while the book is held. -/
def step (l : Leader) : Handler → Leader × Handler
  | .entering operator peer =>
    match enroll operator peer l with
    | (l, none) => (l, .finished (.ok ()))
    | (l, some copy) => (l, .keeping copy)
  | .keeping copy => ((keepBook copy l).1, .finished (keepBook copy l).2)
  | .finished answer => (l, .finished answer)

def copy? : Handler → Option AddressBook
  | .keeping copy => some copy
  | _ => none

def IsRefused (h : Handler) : Prop := ∃ e, h = .finished (.error e)

theorem step_known {l : Leader} {a : Address} {peer : String}
    (h : l.book.peer? a = some peer) :
    (entering a peer).step l = (l, .finished (.ok ())) := by
  rw [step, enroll_known h]

theorem step_new {l : Leader} {a : Address} {peer : String} (h : l.book.peer? a ≠ some peer) :
    (entering a peer).step l =
      ({ l with book := l.book.insert a peer }, .keeping (l.book.insert a peer)) := by
  rw [step, enroll_new h]

theorem step_step (l : Leader) (a : Address) (peer : String) :
    ((entering a peer).step l).2.step ((entering a peer).step l).1 =
      ((register a peer l).1, .finished (register a peer l).2) := by
  by_cases h : l.book.peer? a = some peer
  · rw [step_known h, register, enroll_known h]
    rfl
  · rw [step_new h, register, enroll_new h]
    rfl

end Handler

/-- A leader with handlers of registrations, the copies of the book that they took, and those
that they kept, each in the order in which that was done. -/
structure Handling where
  leader : Leader
  handlers : List Handler
  taken : List AddressBook
  kept : List AddressBook

namespace Handling

variable {s : Handling} {i : Nat} {h next : Handler} {first : AddressBook}

def start (l : Leader) (ms : List (Address × String)) : Handling :=
  { leader := l, handlers := ms.map fun m => .entering m.1 m.2, taken := [], kept := [] }

def step (s : Handling) (i : Nat) : Handling :=
  match s.handlers[i]? with
  | none => s
  | some h =>
    let r := h.step s.leader
    { leader := r.1
      handlers := s.handlers.set i r.2
      taken := s.taken ++ r.2.copy?.toList
      kept := match r.2 with
        | .finished (.ok _) => s.kept ++ h.copy?.toList
        | _ => s.kept }

/-- Steps of handlers in any order. -/
def run (s : Handling) (schedule : List Nat) : Handling := schedule.foldl step s

/-- The copies that are still to be kept. -/
def pending (s : Handling) : List AddressBook := s.handlers.filterMap Handler.copy?

/-- What the pending copies are when one handler has moved on: those of the others, and its
own. -/
theorem pending_set (hi : s.handlers[i]? = some h) : ∃ others,
    s.pending.Perm (h.copy?.toList ++ others) ∧
      ∀ next, ((s.handlers.set i next).filterMap Handler.copy?).Perm
        (next.copy?.toList ++ others) := by
  obtain ⟨hlt, hget⟩ := List.getElem?_eq_some_iff.mp hi
  have hcons (k : Handler) (hs : List Handler) :
      (k :: hs).filterMap Handler.copy? = k.copy?.toList ++ hs.filterMap Handler.copy? := by
    rw [List.filterMap_cons]
    cases k.copy? <;> rfl
  refine ⟨(s.handlers.eraseIdx i).filterMap Handler.copy?, ?_, fun next => ?_⟩
  · rw [← hcons, ← hget]
    exact ((List.getElem_cons_eraseIdx_perm hlt).filterMap Handler.copy?).symm
  · rw [← hcons]
    exact (List.set_perm_cons_eraseIdx hlt next).filterMap Handler.copy?

/-- What holds at any moment, if the book was `first` and kept so at the start. The book is the
copy that was taken last, and its file holds the one that was kept last; and as long as no
handler is refused, each copy that was taken was kept once or is still to be kept. -/
structure Sound (first : AddressBook) (s : Handling) : Prop where
  book : s.leader.book = s.taken.getLast?.getD first
  file : s.leader.disk.loadBook = .ok (s.kept.getLast?.getD first)
  ascending : s.leader.book.Ascending
  copies : ∀ copy ∈ s.pending, copy.Ascending
  each : (∀ h ∈ s.handlers, ¬h.IsRefused) → s.taken.Perm (s.kept ++ s.pending)

theorem last_eq_iff {α : Type} {xs ys : List α} {a : α} (h : xs.length = ys.length) :
    xs.getLast?.getD a = ys.getLast?.getD a ↔ xs.getLast? = ys.getLast? := by
  constructor
  · intro hsame
    cases xs with
    | nil => rw [List.eq_nil_of_length_eq_zero h.symm]
    | cons x xs =>
      cases ys with
      | nil => cases h
      | cons y ys => simpa [List.getLast?_cons] using hsame
  · intro hsame
    rw [hsame]

theorem sound_start {l : Leader} (hfile : l.disk.loadBook = .ok l.book)
    (ms : List (Address × String)) : (start l ms).Sound l.book := by
  have hpending : (start l ms).pending = [] := by
    apply List.filterMap_eq_nil_iff.mpr
    intro h hh
    obtain ⟨m, -, rfl⟩ := List.mem_map.mp hh
    rfl
  refine ⟨rfl, hfile, ascending_of_loadBook hfile, ?_, fun _ => ?_⟩
  · rw [hpending]
    exact nofun
  · rw [hpending]
    exact .refl _

theorem Sound.moved (hs : s.Sound first) (hi : s.handlers[i]? = some h) {leader : Leader}
    {taken kept : List AddressBook} (hbook : leader.book = taken.getLast?.getD first)
    (hfile : leader.disk.loadBook = .ok (kept.getLast?.getD first))
    (hascending : leader.book.Ascending)
    (hcopy : ∀ copy, next.copy? = some copy → copy.Ascending)
    (hrefused : h.IsRefused → next.IsRefused)
    (heach : ¬next.IsRefused → ∀ others, s.taken.Perm (s.kept ++ (h.copy?.toList ++ others)) →
      taken.Perm (kept ++ (next.copy?.toList ++ others))) :
    Sound first ⟨leader, s.handlers.set i next, taken, kept⟩ := by
  obtain ⟨others, hpending, hset⟩ := pending_set hi
  have hlt : i < s.handlers.length := (List.getElem?_eq_some_iff.mp hi).1
  refine ⟨hbook, hfile, hascending, fun copy hmem => ?_, fun hnone => ?_⟩
  · rcases List.mem_append.mp ((hset next).mem_iff.mp hmem) with hown | hother
    · exact hcopy copy (Option.mem_toList.mp hown)
    · exact hs.copies copy (hpending.mem_iff.mpr (List.mem_append_right _ hother))
  · -- A handler that was refused before is refused now.
    have hbefore : ∀ k ∈ s.handlers, ¬k.IsRefused := by
      intro k hk hkrefused
      obtain ⟨j, hj⟩ := List.mem_iff_getElem?.mp hk
      by_cases hij : i = j
      · subst hij
        obtain rfl : h = k := Option.some.inj (hi.symm.trans hj)
        exact hnone next (List.mem_set hlt next) (hrefused hkrefused)
      · have hj' : (s.handlers.set i next)[j]? = some k := by
          rw [List.getElem?_set_ne hij, hj]
        exact hnone k (List.mem_of_getElem? hj') hkrefused
    have htaken := (hs.each hbefore).trans (hpending.append_left s.kept)
    have hnext := heach (hnone next (List.mem_set hlt next)) others htaken
    exact hnext.trans ((hset next).symm.append_left kept)

theorem Sound.step (hs : s.Sound first) (i : Nat) : (s.step i).Sound first := by
  cases hi : s.handlers[i]? with
  | none =>
    rw [Handling.step, hi]
    exact hs
  | some h =>
    simp only [Handling.step, hi]
    cases h with
    | entering a peer =>
      by_cases hknown : s.leader.book.peer? a = some peer
      · -- Nothing is taken, and nothing kept.
        simp only [Handler.step_known hknown, Handler.copy?, Option.toList_none, List.append_nil]
        exact hs.moved hi hs.book hs.file hs.ascending nofun nofun fun _ _ heach => heach
      · simp only [Handler.step_new hknown, Handler.copy?, Option.toList_some]
        have horder := hs.ascending.insert a peer
        refine hs.moved hi ?_ hs.file horder ?_ nofun fun _ others heach => ?_
        · rw [List.getLast?_concat]
          rfl
        · rintro copy ⟨⟩
          exact horder
        · have hlast : (others ++ [s.leader.book.insert a peer]).Perm
              (s.leader.book.insert a peer :: others) := List.perm_append_comm
          refine (heach.append_right _).trans ?_
          rw [List.append_assoc]
          exact hlast.append_left s.kept
    | keeping copy =>
      -- The copy is kept as it was taken, whatever the book says by now.
      have horder : copy.Ascending :=
        hs.copies copy (List.mem_filterMap.mpr ⟨_, List.mem_of_getElem? hi, rfl⟩)
      rcases hkeep : keepBook copy s.leader with ⟨l', result⟩
      obtain ⟨hsame, -, hstored⟩ := keepBook_spec horder hkeep
      have hbook : l'.book = s.taken.getLast?.getD first := hsame.trans hs.book
      have hascending : l'.book.Ascending := hsame ▸ hs.ascending
      simp only [Handler.step, hkeep, Handler.copy?, Option.toList_none, Option.toList_some,
        List.append_nil]
      cases result with
      | ok _ =>
        obtain ⟨-, hload⟩ | ⟨hrefused, -⟩ := hstored
        · refine hs.moved hi hbook ?_ hascending nofun nofun fun _ others heach => ?_
          · rw [List.getLast?_concat, hload]
            rfl
          · rwa [List.append_assoc]
        · exact absurd rfl hrefused
      | error e =>
        obtain ⟨hok, -⟩ | ⟨-, hload⟩ := hstored
        · cases hok
        · exact hs.moved hi hbook (hload.trans hs.file) hascending nofun nofun
            fun hnone => absurd ⟨e, rfl⟩ hnone
    | finished answer =>
      simp only [Handler.step, Handler.copy?, Option.toList_none, List.append_nil]
      cases answer with
      | ok _ => exact hs.moved hi hs.book hs.file hs.ascending nofun id fun _ _ heach => heach
      | error e => exact hs.moved hi hs.book hs.file hs.ascending nofun id fun _ _ heach => heach

theorem Sound.run (hs : s.Sound first) (schedule : List Nat) : (s.run schedule).Sound first := by
  induction schedule generalizing s with
  | nil => exact hs
  | cons i rest ih => exact ih (hs.step i)

/-- A leader is started and told of registrations, and their handlers take their steps in any
order. When all are at their end and none was refused, every copy of the book that was taken
was kept; the book is the copy that was taken last, and its file holds the one that was kept
last. So the file holds the book exactly if these are the same. -/
theorem kept_iff_last_copy {l : Leader} {ms : List (Address × String)} {schedule : List Nat}
    (hstart : Leader.start settings signer disk network clock = .ok l)
    (hdone : ∀ h ∈ ((start l ms).run schedule).handlers, h = .finished (.ok ())) :
    let s := (start l ms).run schedule
    s.kept.Perm s.taken ∧ s.leader.book = s.taken.getLast?.getD l.book ∧
      s.leader.disk.loadBook = .ok (s.kept.getLast?.getD l.book) ∧
      (s.leader.disk.loadBook = .ok s.leader.book ↔ s.kept.getLast? = s.taken.getLast?) := by
  intro s
  obtain ⟨rfl, hload, -, -⟩ := start_eq_ok hstart
  have hs : s.Sound l.book := (sound_start hload ms).run schedule
  have hpending : s.pending = [] := by
    apply List.filterMap_eq_nil_iff.mpr
    intro h hh
    rw [hdone h hh]
    rfl
  have hunrefused : ∀ h ∈ s.handlers, ¬h.IsRefused := by
    rintro h hh ⟨e, he⟩
    cases (hdone h hh).symm.trans he
  have hperm : s.taken.Perm s.kept := by
    have heach := hs.each hunrefused
    rwa [hpending, List.append_nil] at heach
  refine ⟨hperm.symm, hs.book, hs.file, ?_⟩
  rw [hs.file, hs.book, Except.ok.injEq]
  exact last_eq_iff hperm.length_eq.symm

/-- Two operators register at once: both copies are taken, and then kept in the same order. -/
theorem kept_iff_last_copy_in_turn :
    let settings : LeaderSettings := ⟨.ofSeconds 1, .ofSeconds 1, .ofSeconds 1, ⟨5, 3⟩⟩
    let signer : Signer := ⟨1, by decide, by decide⟩
    let ms : List (Address × String) := [(⟨.ofNat 20 1⟩, "a"), (⟨.ofNat 20 2⟩, "b")]
    ∃ l, Leader.start settings signer .empty .empty 0 = .ok l ∧
      (∀ h ∈ ((start l ms).run [0, 1, 0, 1]).handlers, h = .finished (.ok ())) ∧
      ((start l ms).run [0, 1, 0, 1]).leader.disk.loadBook = .ok ms := by
  intro settings signer ms
  obtain ⟨l, hstart⟩ : ∃ l, Leader.start settings signer .empty .empty 0 = .ok l := ⟨_, rfl⟩
  have hl := Except.ok.inj hstart
  have hhandlers : ((start l ms).run [0, 1, 0, 1]).handlers =
      [.finished (.ok ()), .finished (.ok ())] := hl ▸ rfl
  have hdone : ∀ h ∈ ((start l ms).run [0, 1, 0, 1]).handlers, h = .finished (.ok ()) := by
    rw [hhandlers]
    simp
  have hlast : ((start l ms).run [0, 1, 0, 1]).kept.getLast? =
      ((start l ms).run [0, 1, 0, 1]).taken.getLast? := hl ▸ rfl
  have hbook : ((start l ms).run [0, 1, 0, 1]).leader.book = ms := hl ▸ rfl
  have hfile := (kept_iff_last_copy hstart hdone).2.2.2.mpr hlast
  rw [hbook] at hfile
  exact ⟨l, hstart, hdone, hfile⟩

/-- Two operators register at once, and the copy that was taken first is kept last: both are
accepted, and the file does not have the second. -/
theorem first_copy_kept_last :
    let settings : LeaderSettings := ⟨.ofSeconds 1, .ofSeconds 1, .ofSeconds 1, ⟨5, 3⟩⟩
    let signer : Signer := ⟨1, by decide, by decide⟩
    let ms : List (Address × String) := [(⟨.ofNat 20 1⟩, "a"), (⟨.ofNat 20 2⟩, "b")]
    ∃ l, Leader.start settings signer .empty .empty 0 = .ok l ∧
      let s := (start l ms).run [0, 1, 1, 0]
      s.handlers = [.finished (.ok ()), .finished (.ok ())] ∧ s.leader.book = ms ∧
        s.leader.disk.loadBook = .ok [(⟨.ofNat 20 1⟩, "a")] := by
  intro settings signer ms
  obtain ⟨l, hstart⟩ : ∃ l, Leader.start settings signer .empty .empty 0 = .ok l := ⟨_, rfl⟩
  have hl := Except.ok.inj hstart
  have hempty : l.disk.loadBook = .ok l.book := hl ▸ rfl
  have hfile := ((sound_start hempty ms).run [0, 1, 1, 0]).file
  have hhandlers : ((start l ms).run [0, 1, 1, 0]).handlers =
      [.finished (.ok ()), .finished (.ok ())] := hl ▸ rfl
  have hbook : ((start l ms).run [0, 1, 1, 0]).leader.book = ms := hl ▸ rfl
  have hkept : ((start l ms).run [0, 1, 1, 0]).kept.getLast?.getD l.book =
      [(⟨.ofNat 20 1⟩, "a")] := hl ▸ rfl
  rw [hkept] at hfile
  exact ⟨l, hstart, hhandlers, hbook, hfile⟩

end Handling

end Beacon.Leader
