import Beacon.Round.Registry

/-
  The numbers in a registry. They stand in ascending order (`Ascending`), so that the number of
  the last round is the highest one (`le_latest`). A new number is put in its place; what is
  done to a round keeps all numbers, and pruning keeps some of them.
-/

namespace Beacon.Registry

variable {g : Registry} {r : Round} {id id' : UInt64}

def ids (g : Registry) : List UInt64 := g.rounds.map (·.id)

/-- Every round has a number above those of all rounds in front of it. -/
def Ascending (g : Registry) : Prop := g.ids.Pairwise (· < ·)

theorem find?_eq_none_iff : g.find? id = none ↔ id ∉ g.ids := by
  simp [find?, ids]

/-! ## New rounds -/

theorem mem_insertRound {rounds : List Round} {s : Round} (h : s ∈ insertRound r rounds) :
    s = r ∨ s ∈ rounds := by
  induction rounds with
  | nil => exact .inl (List.mem_singleton.mp h)
  | cons t rest ih =>
    unfold insertRound at h
    split at h
    · exact List.mem_cons.mp h
    · rcases List.mem_cons.mp h with rfl | h
      · exact .inr List.mem_cons_self
      · exact (ih h).imp_right (List.mem_cons_of_mem t)

theorem insertRound_ascending {rounds : List Round}
    (h : (rounds.map (·.id)).Pairwise (· < ·)) (hnew : r.id ∉ rounds.map (·.id)) :
    ((insertRound r rounds).map (·.id)).Pairwise (· < ·) := by
  induction rounds with
  | nil => exact List.pairwise_singleton _ _
  | cons t rest ih =>
    obtain ⟨hfirst, hrest⟩ := List.pairwise_cons.mp h
    obtain ⟨hne, hnew⟩ := not_or.mp (mt List.mem_cons.mpr hnew)
    unfold insertRound
    split
    · -- The new round stands in front of all others.
      rename_i hlt
      refine List.pairwise_cons.mpr ⟨?_, h⟩
      intro id hid
      rcases List.mem_cons.mp hid with rfl | hid
      · exact hlt
      · exact UInt64.lt_trans hlt (hfirst id hid)
    · rename_i hle
      have hlt : t.id < r.id := by
        have hne' : r.id.toNat ≠ t.id.toNat := fun heq => hne (UInt64.toNat_inj.mp heq)
        rw [UInt64.lt_iff_toNat_lt] at hle ⊢
        omega
      refine List.pairwise_cons.mpr ⟨?_, ih hrest hnew⟩
      intro id hid
      obtain ⟨s, hs, rfl⟩ := List.mem_map.mp hid
      rcases mem_insertRound hs with rfl | hs
      · exact hlt
      · exact hfirst s.id (List.mem_map_of_mem hs)

theorem find?_insertRound {rounds : List Round} {r : Round}
    (h : rounds.find? (·.id = r.id) = none) :
    (insertRound r rounds).find? (·.id = r.id) = some r := by
  induction rounds with
  | nil => simp [insertRound]
  | cons s rest ih =>
    have hs : s.id ≠ r.id := by simpa using (List.find?_eq_none.mp h) s (.head _)
    rw [List.find?_cons_of_neg (by simpa using hs)] at h
    unfold insertRound
    split
    · simp
    · rw [List.find?_cons_of_neg (by simpa using hs)]
      exact ih h

theorem find?_insertRound_ne {rounds : List Round} (hne : r.id ≠ id) :
    (insertRound r rounds).find? (·.id = id) = rounds.find? (·.id = id) := by
  induction rounds with
  | nil => simp [insertRound, hne]
  | cons s rest ih =>
    unfold insertRound
    split
    · rw [List.find?_cons_of_neg (by simpa using hne)]
    · rw [List.find?_cons, List.find?_cons, ih]

theorem create_spec (g : Registry) (id : UInt64) (eligible : List Address) :
    id ∈ g.ids ∧ g.create id eligible = (g, .error (.roundExists id)) ∨
      id ∉ g.ids ∧ g.create id eligible =
        (⟨insertRound (.start id eligible) g.rounds⟩, .ok (.start id eligible)) := by
  by_cases hid : id ∈ g.ids
  · have hfound : (g.find? id).isSome := by
      rw [← Option.ne_none_iff_isSome]
      exact fun hnone => find?_eq_none_iff.mp hnone hid
    exact .inl ⟨hid, by rw [create, if_pos hfound]⟩
  · have hfree : ¬(g.find? id).isSome := by
      rw [find?_eq_none_iff.mpr hid]
      exact Bool.false_ne_true
    exact .inr ⟨hid, by rw [create, if_neg hfree]⟩

theorem Ascending.create (h : g.Ascending) (id : UInt64) (eligible : List Address) :
    (g.create id eligible).1.Ascending := by
  obtain ⟨-, hsame⟩ | ⟨hnew, hcreated⟩ := g.create_spec id eligible
  · rw [hsame]
    exact h
  · rw [hcreated]
    exact insertRound_ascending h hnew

theorem mem_ids_create {eligible : List Address} (h : id' ∈ (g.create id eligible).1.ids) :
    id' = id ∨ id' ∈ g.ids := by
  obtain ⟨-, hsame⟩ | ⟨-, hcreated⟩ := g.create_spec id eligible
  · rw [hsame] at h
    exact .inr h
  · rw [hcreated] at h
    obtain ⟨s, hs, rfl⟩ := List.mem_map.mp h
    rcases mem_insertRound hs with rfl | hs
    · exact .inl rfl
    · exact .inr (List.mem_map_of_mem hs)

/-! ## Rounds that move on, and rounds that go -/

theorem ids_replace (g : Registry) (r : Round) : (g.replace r).ids = g.ids := by
  simp only [ids, replace, List.map_map]
  refine List.map_congr_left fun s _ => ?_
  show (if s.id = r.id then r else s).id = s.id
  split
  · rename_i h
    exact h.symm
  · rfl

theorem ids_prune (g : Registry) (keep : Nat) : (g.prune keep).ids.Sublist g.ids :=
  List.filter_sublist.map _

theorem Ascending.of_sublist {g' : Registry} (h : g.Ascending) (hids : g'.ids.Sublist g.ids) :
    g'.Ascending :=
  List.Pairwise.sublist hids h

/-! ## The highest number -/

theorem latest?_eq (g : Registry) : g.latest? = g.ids.getLast? := by
  rw [latest?, ids, List.getLast?_map]

theorem mem_of_latest? (h : g.latest? = some id) : id ∈ g.ids := by
  rw [latest?_eq] at h
  exact List.mem_of_getLast? h

theorem le_latest (h : g.Ascending) (hid : id ∈ g.ids) : id ≤ g.latest?.getD 0 := by
  cases hlast : g.latest? with
  | none =>
    rw [latest?_eq, List.getLast?_eq_none_iff] at hlast
    rw [hlast] at hid
    cases hid
  | some last =>
    rw [latest?_eq, List.getLast?_eq_some_iff] at hlast
    obtain ⟨front, hfront⟩ := hlast
    rw [Ascending, hfront] at h
    rw [hfront] at hid
    show id ≤ last
    rcases List.mem_append.mp hid with hid | hid
    · exact UInt64.le_of_lt ((List.pairwise_append.mp h).2.2 id hid last List.mem_cons_self)
    · rw [List.mem_singleton.mp hid]
      exact UInt64.le_refl last

end Beacon.Registry
