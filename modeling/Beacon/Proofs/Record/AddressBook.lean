import Beacon.Proofs.Json.Keeping
import Beacon.Proofs.Octets
import Beacon.Record.Kept

/-
  The book of registered operators. Its entries stand in the order of their addresses, each
  operator once (`Ascending`). Entering an operator keeps that, says who the operator is now,
  and leaves every other entry alone. A book in order is read back from its text
  (`Format.keeps_addressBook`), and whatever is read is a book in order.
-/

namespace Beacon

namespace AddressBook

variable {a b : Address} {peer : String} {book : AddressBook}

/-- Every operator is entered once, and those of lower address stand in front. -/
def Ascending (book : AddressBook) : Prop := book.Pairwise fun e f => e.1.rank < f.1.rank

/-! ## Entering an operator -/

theorem peer?_insert (a : Address) (peer : String) (book : AddressBook) :
    peer? (insert a peer book) a = some peer := by
  induction book with
  | nil => simp [insert, peer?]
  | cons entry rest ih =>
    obtain ⟨b, p⟩ := entry
    unfold insert
    split
    · simp [peer?]
    rename_i hb
    split
    · simp [peer?]
    · simpa [peer?, hb] using ih

theorem filter_insert (peer : String) (book : AddressBook) :
    (book.insert a peer).filter (·.1 ≠ a) = book.filter (·.1 ≠ a) := by
  induction book with
  | nil => simp [AddressBook.insert]
  | cons entry rest ih =>
    obtain ⟨b, p⟩ := entry
    unfold AddressBook.insert
    split
    · rename_i hb
      simp [hb]
    split
    · simp
    · simp only [List.filter_cons, ih]

theorem mem_insert {e : Address × String} (h : e ∈ book.insert a peer) :
    e = (a, peer) ∨ e ∈ book := by
  induction book with
  | nil => exact .inl (List.mem_singleton.mp h)
  | cons entry rest ih =>
    obtain ⟨b, p⟩ := entry
    unfold insert at h
    split at h
    · rcases List.mem_cons.mp h with h | h
      · exact .inl h
      · exact .inr (List.mem_cons_of_mem _ h)
    split at h
    · exact List.mem_cons.mp h
    · rcases List.mem_cons.mp h with rfl | h
      · exact .inr List.mem_cons_self
      · exact (ih h).imp_right (List.mem_cons_of_mem _)

theorem Ascending.insert (h : book.Ascending) (a : Address) (peer : String) :
    (book.insert a peer).Ascending := by
  induction book with
  | nil => exact List.pairwise_singleton _ _
  | cons entry rest ih =>
    obtain ⟨b, p⟩ := entry
    obtain ⟨hfirst, hrest⟩ := List.pairwise_cons.mp h
    unfold AddressBook.insert
    split
    · rename_i hb
      exact List.pairwise_cons.mpr ⟨hb ▸ hfirst, hrest⟩
    split
    · -- The new entry stands in front of all others.
      rename_i _ hlt
      refine List.pairwise_cons.mpr ⟨List.forall_mem_cons.mpr ⟨hlt, fun e he => ?_⟩, h⟩
      exact Nat.lt_trans hlt (hfirst e he)
    · rename_i hb hlt
      have hne : b.rank ≠ a.rank := fun heq => hb (Address.rank_injective heq)
      have hab : b.rank < a.rank := Nat.lt_of_le_of_ne (Nat.le_of_not_lt hlt) hne
      refine List.pairwise_cons.mpr ⟨fun e he => ?_, ih hrest⟩
      rcases mem_insert he with rfl | he
      · exact hab
      · exact hfirst e he

theorem insert_last (h : ∀ e ∈ book, e.1.rank < a.rank) :
    book.insert a peer = book ++ [(a, peer)] := by
  induction book with
  | nil => rfl
  | cons entry rest ih =>
    obtain ⟨b, p⟩ := entry
    have hb : b.rank < a.rank := h _ List.mem_cons_self
    have hne : b ≠ a := fun heq => Nat.lt_irrefl _ (heq ▸ hb)
    rw [insert, if_neg hne, if_neg (Nat.lt_asymm hb),
      ih fun e he => h e (List.mem_cons_of_mem _ he)]
    rfl

end AddressBook

/-! ## The text of a book -/

namespace Format

open AddressBook (Ascending)

theorem addressBook_entry (book : AddressBook) (e : Address × String) :
    addressBook.entry book (Json.escape e.1.text.toList, text.write e.2) =
      .ok (book.insert e.1 e.2) := by
  have haddress : address.read (.string (Json.escape e.1.text.toList)) = .ok e.1 :=
    (keeps_address e.1).read_write
  simp only [addressBook.entry, haddress, (keeps_text e.2).read_write, bind, Except.bind]
  rfl

theorem foldlM_entry {front rest : AddressBook} (h : Ascending (front ++ rest)) :
    (rest.map fun e => (Json.escape e.1.text.toList, text.write e.2)).foldlM addressBook.entry
      front = .ok (front ++ rest) := by
  induction rest generalizing front with
  | nil =>
    rw [List.append_nil]
    rfl
  | cons e rest ih =>
    have hfront : ∀ f ∈ front, f.1.rank < e.1.rank := fun f hf =>
      (List.pairwise_append.mp h).2.2 f hf e List.mem_cons_self
    rw [List.append_cons] at h ⊢
    rw [List.map_cons, List.foldlM_cons, addressBook_entry, AddressBook.insert_last hfront]
    exact ih h

theorem keeps_addressBook {book : AddressBook} (h : book.Ascending) : addressBook.Keeps book where
  written := by
    refine .object (fun m hm => ?_) fun m hm => ?_
    · obtain ⟨e, -, rfl⟩ := List.mem_map.mp hm
      exact ⟨_, rfl⟩
    · obtain ⟨e, -, rfl⟩ := List.mem_map.mp hm
      exact .ofText e.2
  read_write := by
    have hentries : AddressBook.Ascending ([] ++ book) := h
    exact foldlM_entry hentries

theorem ascending_entry {front next : AddressBook} {m : List Char × Json}
    (hfront : front.Ascending) (h : addressBook.entry front m = .ok next) : next.Ascending := by
  unfold addressBook.entry at h
  cases ha : address.read (.string m.1) with
  | error e =>
    rw [ha] at h
    cases h
  | ok a =>
    rw [ha] at h
    cases hp : text.read m.2 with
    | error e =>
      rw [hp] at h
      cases h
    | ok peer =>
      rw [hp] at h
      cases h
      exact hfront.insert a peer

theorem ascending_foldlM {ms : List (List Char × Json)} {front book : AddressBook}
    (hfront : front.Ascending) (h : ms.foldlM addressBook.entry front = .ok book) :
    book.Ascending := by
  induction ms generalizing front with
  | nil =>
    cases h
    exact hfront
  | cons m ms ih =>
    rw [List.foldlM_cons] at h
    cases hentry : addressBook.entry front m with
    | error e =>
      rw [hentry] at h
      cases h
    | ok next =>
      rw [hentry] at h
      exact ih (ascending_entry hfront hentry) h

/-- Whatever is read as a book is in order. -/
theorem ascending_of_read {v : Json} {book : AddressBook} (h : addressBook.read v = .ok book) :
    book.Ascending := by
  cases v with
  | object ms => exact ascending_foldlM .nil h
  | _ => cases h

theorem ascending_of_parse {s : String} {book : AddressBook} (h : addressBook.parse s = .ok book) :
    book.Ascending := by
  simp only [parse] at h
  cases hread : addressBook.read (Json.document s).value with
  | error e =>
    rw [hread] at h
    cases h
  | ok read =>
    rw [hread, Except.bind] at h
    split_ifs at h
    cases h
    exact ascending_of_read hread

end Format

end Beacon
