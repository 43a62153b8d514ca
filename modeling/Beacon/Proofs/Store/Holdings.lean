import Beacon.Proofs.Record.AddressBook
import Beacon.Proofs.Record.Formats
import Beacon.Proofs.Store.Files
import Mathlib.Logic.Function.Basic

/-
  A data directory is a map from keys to records. Saving a record puts it under its key if
  all steps of the replacement succeed, and changes nothing that is loaded otherwise, so that
  after any number of saves each key loads what was last saved under it with success
  (`loads_last_saved`).

  The map that a directory stands for is `Holdings`, and `Reads d m` says that the directory
  `d` loads as the map `m`. Every save keeps that, if the map takes in what was answered
  (`Reads.act`); the run follows by induction on the saves.
-/

namespace Beacon

/-! ## Keys and records -/

inductive RecordKey where
  | commitment (round : UInt64)
  | participant (round : UInt64) (operator : Address)
  | order (round : UInt64)
  | addressBook
  | latestRound
  deriving DecidableEq

namespace RecordKey

def Carrier : RecordKey → Type
  | .commitment _ => SealedCommitment
  | .participant _ _ => Participant
  | .order _ => OrderRecord
  | .addressBook => AddressBook
  | .latestRound => UInt64

def format : (k : RecordKey) → Format k.Carrier
  | .commitment _ => .sealedCommitment
  | .participant _ _ => .participant
  | .order _ => .orderRecord
  | .addressBook => .addressBook
  | .latestRound => .uint64

def file : RecordKey → FileKey
  | .commitment round => .commitment round
  | .participant round operator => .participant round operator
  | .order round => .order round
  | .addressBook => .addressBook
  | .latestRound => .latestRound

theorem file_injective {k k' : RecordKey} (h : k.file = k'.file) : k = k' := by
  cases k <;> cases k' <;> simp_all [file]

def load (d : Disk) : (k : RecordKey) → Except StoreError (Option k.Carrier)
  | .commitment round => d.loadCommitment round
  | .participant round operator => d.load (.participant round operator) .participant
  | .order round => d.loadOrder round
  | .addressBook => d.load .addressBook .addressBook
  | .latestRound => d.loadLatest

theorem load_eq (d : Disk) (k : RecordKey) : k.load d = d.load k.file k.format := by
  cases k <;> rfl

end RecordKey

inductive Saving where
  | commitment (c : SealedCommitment)
  | participant (round : UInt64) (p : Participant)
  | order (o : OrderRecord)
  | addressBook (book : AddressBook)
  | latestRound (round : UInt64)

namespace Saving

def key : Saving → RecordKey
  | .commitment c => .commitment c.commitment.round
  | .participant round p => .participant round p.operator
  | .order o => .order o.round
  | .addressBook _ => .addressBook
  | .latestRound _ => .latestRound

def record : (s : Saving) → s.key.Carrier
  | .commitment c => c
  | .participant _ p => p
  | .order o => o
  | .addressBook book => book
  | .latestRound round => round

def act (d : Disk) : Saving → Disk × Except StoreError Unit
  | .commitment c => d.saveCommitment c
  | .participant round p => d.saveParticipant round p
  | .order o => d.saveOrder o
  | .addressBook book => d.saveBook book
  | .latestRound round => d.saveLatest round

theorem act_eq (d : Disk) (s : Saving) : s.act d = d.save s.key.file s.key.format s.record := by
  cases s <;> rfl

/-- Places in lists are numbers of 64 bits, and a book is in order. -/
def Fits : Saving → Prop
  | .participant _ p => p.commitIndex < UInt64.size
  | .order o => ∀ i ∈ o.order, i < UInt64.size
  | .addressBook book => book.Ascending
  | .commitment _ => True
  | .latestRound _ => True

theorem Fits.keeps : {s : Saving} → s.Fits → s.key.format.Keeps s.record
  | .commitment c, _ => Format.keeps_sealedCommitment c
  | .participant _ _, h => Format.keeps_participant h
  | .order _, h => Format.keeps_orderRecord h
  | .addressBook _, h => Format.keeps_addressBook h
  | .latestRound n, _ => Format.keeps_uint64 n

/-- Saves records one after the other. The answer is the directory after them, and each
record with what its saving was answered. -/
def actAll (d : Disk) : List Saving → Disk × List (Saving × Except StoreError Unit)
  | [] => (d, [])
  | s :: rest =>
    let saved := s.act d
    let others := actAll saved.1 rest
    (others.1, (s, saved.2) :: others.2)

end Saving

/-! ## The map of a directory -/

/-- At most one record for each key. -/
abbrev Holdings := (k : RecordKey) → Option k.Carrier

namespace Holdings

def empty : Holdings := fun _ => none

/-- The holdings after a save that was answered: with success, the record is under its key. -/
def after (m : Holdings) (e : Saving × Except StoreError Unit) : Holdings :=
  match e.2 with
  | .ok () => Function.update m e.1.key (some e.1.record)
  | .error _ => m

/-- The holdings after saves that were answered: under every key the last record that was
saved with success. -/
def afterAll (m : Holdings) (answers : List (Saving × Except StoreError Unit)) : Holdings :=
  answers.foldl after m

end Holdings

namespace Disk

variable {d : Disk} {m : Holdings} {s : Saving}

/-- Under every key the directory loads what the map holds. -/
def Reads (d : Disk) (m : Holdings) : Prop := ∀ k : RecordKey, k.load d = .ok (m k)

/-- A save that fails changes no record that is loaded, and no save changes a record of
another key. -/
theorem load_act {k : RecordKey} (h : k ≠ s.key ∨ (s.act d).2 ≠ .ok ()) :
    k.load (s.act d).1 = k.load d := by
  rw [Saving.act_eq] at h ⊢
  obtain ⟨hothers, hown⟩ := save_spec d s.key.file s.key.format s.record
  rw [RecordKey.load_eq, RecordKey.load_eq]
  refine load_congr ?_
  by_cases hk : k = s.key
  · obtain ⟨hok, -⟩ | ⟨-, hsame⟩ := hown
    · exact absurd hok (h.resolve_left (not_not.mpr hk))
    · rw [hk]
      exact hsame
  · exact hothers k.file fun hfile => hk (RecordKey.file_injective hfile)

theorem load_act_key (hs : s.Fits) (h : (s.act d).2 = .ok ()) :
    s.key.load (s.act d).1 = .ok (some s.record) := by
  rw [Saving.act_eq] at h ⊢
  obtain ⟨-, hown⟩ := save_spec d s.key.file s.key.format s.record
  rw [RecordKey.load_eq]
  obtain ⟨-, hfile⟩ | ⟨herror, -⟩ := hown
  · exact load_of_file hs.keeps hfile
  · rw [h] at herror
    cases herror

theorem loadBook_act (h : RecordKey.addressBook ≠ s.key ∨ (s.act d).2 ≠ .ok ()) :
    (s.act d).1.loadBook = d.loadBook := by
  have hload : (s.act d).1.load .addressBook .addressBook = d.load .addressBook .addressBook :=
    load_act h
  rw [loadBook, hload, loadBook]

theorem loadBook_saveBook {book : AddressBook} (hbook : book.Ascending)
    (h : (d.saveBook book).2 = .ok ()) : (d.saveBook book).1.loadBook = .ok book := by
  have hload : (d.saveBook book).1.load .addressBook .addressBook = .ok (some book) :=
    load_act_key (s := .addressBook book) hbook h
  rw [loadBook, hload]
  rfl

theorem Reads.act (h : d.Reads m) (hs : s.Fits) :
    (s.act d).1.Reads (m.after (s, (s.act d).2)) := by
  intro k
  cases hanswer : (s.act d).2 with
  | error e =>
    rw [load_act (.inr (by rw [hanswer]; nofun))]
    exact h k
  | ok _ =>
    change _ = Except.ok (Function.update m s.key (some s.record) k)
    by_cases hk : k = s.key
    · subst hk
      rw [load_act_key hs hanswer, Function.update_self]
    · rw [load_act (.inl hk), Function.update_of_ne hk]
      exact h k

theorem Reads.actAll (h : d.Reads m) {ss : List Saving} (hss : ∀ s ∈ ss, s.Fits) :
    (Saving.actAll d ss).1.Reads (m.afterAll (Saving.actAll d ss).2) := by
  induction ss generalizing d m with
  | nil => exact h
  | cons s ss ih =>
    obtain ⟨hs, hss⟩ := List.forall_mem_cons.mp hss
    exact ih (h.act hs) hss

/-! ## When a save fails -/

/-- No name stands for a directory. -/
def Plain (d : Disk) : Prop := ∀ name, d.find? name ≠ some .directory

theorem Plain.put (h : d.Plain) (name text : String) : (d.put name (.file text)).Plain := by
  intro other
  rw [find?_put]
  split_ifs
  · nofun
  · exact h other

theorem Plain.remove (h : d.Plain) (name : String) : (d.remove name).Plain := by
  intro other
  rw [find?_remove]
  split_ifs
  · nofun
  · exact h other

/-- Among plain files a replacement fails exactly if one of its steps does, and it takes up
one entry of the faults. -/
theorem replace_plain (h : d.Plain) (name temporary text : String) :
    (d.replace name temporary text).1.Plain ∧
      (d.replace name temporary text).1.faults = d.faults.tail ∧
      ((d.replace name temporary text).2 = .ok () ↔ d.faults.headD none = none) := by
  have hnext : d.nextFault.2.Plain := h
  have htemporary : d.nextFault.2.find? temporary ≠ some .directory := hnext temporary
  have hput (kept : String) : (d.nextFault.2.put temporary (.file kept)).Plain := hnext.put _ _
  unfold replace
  simp only [htemporary, or_false]
  cases hfault : d.nextFault.1 with
  | some fault =>
    have hhead : d.faults.headD none ≠ none := fun hnone => by
      rw [nextFault, hnone] at hfault
      cases hfault
    cases fault with
    | opening => exact ⟨hnext, rfl, iff_of_false nofun hhead⟩
    | writing kept => exact ⟨hput kept, rfl, iff_of_false nofun hhead⟩
    | flushing => exact ⟨hput text, rfl, iff_of_false nofun hhead⟩
    | _ => exact ⟨hput text, rfl, iff_of_false nofun hhead⟩
  | none =>
    have hname : (d.nextFault.2.put temporary (.file text)).find? name ≠ some .directory :=
      hput text name
    simp only [reduceCtorEq, if_false, rename, if_neg hname]
    exact ⟨((hput text).remove temporary).put name text, rfl, iff_of_true trivial hfault⟩

theorem save_plain (h : d.Plain) {α : Type} (k : FileKey) (f : Format α) (a : α) :
    (d.save k f a).1.Plain ∧ (d.save k f a).1.faults = d.faults.tail ∧
      ((d.save k f a).2 = .ok () ↔ d.faults.headD none = none) := by
  obtain ⟨hplain, hfaults, hanswer⟩ :=
    replace_plain h k.name k.temporary (f.print .pretty a)
  refine ⟨hplain, hfaults, ?_⟩
  rw [← hanswer]
  simp only [save, replaceFile]
  cases (d.replace k.name k.temporary (f.print .pretty a)).2 <;> simp [Except.mapError]

theorem actAll_answers (h : d.Plain) (ss : List Saving) :
    (Saving.actAll d ss).2.map (·.1) = ss ∧ ∀ i e, (Saving.actAll d ss).2[i]? = some e →
      (e.2 = .ok () ↔ d.faults.getD i none = none) := by
  induction ss generalizing d with
  | nil => exact ⟨rfl, fun i e he => by simp [Saving.actAll] at he⟩
  | cons s ss ih =>
    obtain ⟨hplain, hfaults, hanswer⟩ := save_plain h s.key.file s.key.format s.record
    rw [← Saving.act_eq] at hplain hfaults hanswer
    obtain ⟨hsavings, hanswers⟩ := ih hplain
    refine ⟨congrArg (s :: ·) hsavings, fun i e he => ?_⟩
    cases i with
    | zero =>
      obtain rfl : (s, (s.act d).2) = e := Option.some.inj he
      rw [hanswer]
      cases d.faults <;> rfl
    | succ i =>
      rw [hanswers i e he, hfaults]
      cases d.faults <;> rfl

/-! ## When no save fails -/

/-- Whatever is saved, it is saved with success. -/
def Reliable (d : Disk) : Prop := ∀ ss, ∀ e ∈ (Saving.actAll d ss).2, e.2 = .ok ()

theorem Reliable.act (h : d.Reliable) (s : Saving) :
    (s.act d).2 = .ok () ∧ (s.act d).1.Reliable :=
  ⟨h [s] (s, (s.act d).2) (.head _), fun ss e he => h (s :: ss) e (.tail _ he)⟩

theorem reliable_of_plain (h : d.Plain) (hfaults : ∀ fault ∈ d.faults, fault = none) :
    d.Reliable := by
  intro ss e he
  obtain ⟨i, hi⟩ := List.getElem?_of_mem he
  refine ((actAll_answers h ss).2 i e hi).mpr ?_
  rw [List.getD_eq_getElem?_getD]
  cases hfault : d.faults[i]? with
  | none => rfl
  | some fault => exact hfaults fault (List.mem_of_getElem? hfault)

end Disk

/-- In a fresh directory records are saved in any number, and each replacement of a file may
fail at any of its steps. Every key then loads the last record that was saved under it with
success, and nothing if there is none. A further save that fails, or is of another key,
leaves what is loaded as it is. A save fails only if one of its steps does. -/
theorem loads_last_saved (faults : List (Option WriteFault)) {savings : List Saving}
    (hfits : ∀ s ∈ savings, s.Fits) :
    let d := (Saving.actAll ⟨[], faults⟩ savings).1
    let answers := (Saving.actAll ⟨[], faults⟩ savings).2
    let kept := Holdings.empty.afterAll answers
    (∀ k : RecordKey, k.load d = .ok (kept k)) ∧
      d.loadBook = .ok ((kept .addressBook).getD []) ∧
      (∀ (s : Saving) (k : RecordKey), k ≠ s.key ∨ (s.act d).2 ≠ .ok () →
        k.load (s.act d).1 = k.load d) ∧
      answers.map (·.1) = savings ∧
      ∀ i e, answers[i]? = some e → (e.2 = .ok () ↔ faults.getD i none = none) := by
  intro d answers kept
  have hfresh : Disk.Reads ⟨[], faults⟩ .empty := fun k => by
    rw [RecordKey.load_eq]
    rfl
  have hreads : d.Reads kept := hfresh.actAll hfits
  have hplain : Disk.Plain ⟨[], faults⟩ := fun _ => nofun
  refine ⟨hreads, ?_, fun s k => Disk.load_act, Disk.actAll_answers hplain savings⟩
  have hbook : d.load .addressBook .addressBook = .ok (kept .addressBook) := hreads .addressBook
  rw [Disk.loadBook, hbook]
  rfl

theorem loads_last_saved_flushing :
    let book : AddressBook := [(⟨.ofNat 20 1⟩, "a"), (⟨.ofNat 20 2⟩, "b")]
    let savings : List Saving := [.latestRound 3, .latestRound 5, .addressBook book]
    let d := (Saving.actAll ⟨[], [none, some .flushing]⟩ savings).1
    (∀ s ∈ savings, s.Fits) ∧ d.loadLatest = .ok (some 3) ∧ d.loadBook = .ok book ∧
      d.loadOrder 4 = .ok none := by
  intro book savings d
  have hfits : ∀ s ∈ savings, s.Fits := by
    have hbook : book.Ascending := by simp only [AddressBook.Ascending, book]; decide
    simpa [savings, Saving.Fits] using hbook
  obtain ⟨hloads, hbook, -⟩ := loads_last_saved [none, some .flushing] hfits
  exact ⟨hfits, hloads .latestRound, hbook, hloads (.order 4)⟩

end Beacon
