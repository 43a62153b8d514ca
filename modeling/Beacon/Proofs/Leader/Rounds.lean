import Beacon.Leader.Basic
import Beacon.Proofs.Node.Acting

/-
  What a leader does to its rounds. An action on a round replaces the round of that
  number and no other (`onRound_of_find?`, `Registry.find?_replace`). Keeping a record
  touches the disk only, and is refused for the disk's reasons only
  (`keepRecord_eq`).
-/

namespace Beacon

namespace Registry

variable {g : Registry} {r s : Round} {id : UInt64}

theorem id_of_find? (h : g.find? id = some r) : r.id = id := by
  simpa using List.find?_some h

theorem find?_replace (g : Registry) (r : Round) (id : UInt64) :
    (g.replace r).find? id = (g.find? id).map fun s => if s.id = r.id then r else s := by
  have hid : ∀ s : Round, (if s.id = r.id then r else s).id = s.id := by
    intro s
    split
    · rename_i h
      exact h.symm
    · rfl
  simp only [find?, replace, List.find?_map, Function.comp_def, hid]

theorem find?_replace_self (h : g.find? id = some s) (hid : r.id = id) :
    (g.replace r).find? id = some r := by
  rw [find?_replace, h, Option.map_some, if_pos ((id_of_find? h).trans hid.symm)]

theorem find?_replace_found (h : g.find? id = some r) (id' : UInt64) :
    (g.replace r).find? id' = g.find? id' := by
  rw [find?_replace]
  cases h' : g.find? id' with
  | none => rfl
  | some s =>
    rw [Option.map_some, Option.some_inj]
    split
    · rename_i hs
      rw [id_of_find? h, id_of_find? h'] at hs
      rw [hs, h] at h'
      exact Option.some.inj h'
    · rfl

end Registry

namespace Leader

variable {l l' : Leader} {id : UInt64} {r : Round} {α : Type}

/-! ## Parts put in place -/

/-- The leader with a round in place of the one of its number. -/
def withRound (l : Leader) (r : Round) : Leader := { l with registry := l.registry.replace r }

def withDisk (l : Leader) (disk : Disk) : Leader := { l with disk }

@[simp] theorem registry_withDisk (l : Leader) (disk : Disk) :
    (l.withDisk disk).registry = l.registry := rfl

/-! ## Rounds -/

theorem round_of_find? (h : l.registry.find? id = some r) : round id l = (l, .ok r) := by
  rw [round, Acting.bind_of_ok (Acting.state_apply l), Registry.require, h, Acting.give_ok]

theorem round_of_none (h : l.registry.find? id = none) :
    round id l = (l, .error (.round (.unknownRound id))) := by
  rw [round, Acting.bind_of_ok (Acting.state_apply l), Registry.require, h, Acting.give_error]

/-- What is done to a round takes its place, also what a refusal left it as. -/
theorem onRound_of_find? {f : Round → Round × Except RoundError α}
    (h : l.registry.find? id = some r) :
    onRound id f l = (l.withRound (f r).1, (f r).2.mapError .round) := by
  rw [onRound, Acting.bind_of_ok (round_of_find? h)]
  rcases f r with ⟨r', e | a⟩ <;> rfl

theorem onRound_of_none {f : Round → Round × Except RoundError α}
    (h : l.registry.find? id = none) :
    onRound id f l = (l, .error (.round (.unknownRound id))) := by
  rw [onRound, Acting.bind_of_error (round_of_none h)]

theorem onRound_eq_ok {f : Round → Round × Except RoundError α} {a : α}
    (h : onRound id f l = (l', .ok a)) :
    ∃ r, l.registry.find? id = some r ∧ (f r).2 = .ok a ∧ l' = l.withRound (f r).1 := by
  cases hr : l.registry.find? id with
  | none =>
    rw [onRound_of_none hr] at h
    cases h
  | some r =>
    rw [onRound_of_find? hr] at h
    obtain ⟨hstate, hresult⟩ := Prod.mk.inj h
    refine ⟨r, rfl, ?_, hstate.symm⟩
    cases hf : (f r).2 with
    | error e =>
      rw [hf] at hresult
      cases hresult
    | ok b =>
      rw [hf] at hresult
      cases hresult
      rfl

theorem onRound_eq_error {f : Round → Round × Except RoundError α} {e : NodeError}
    (h : onRound id f l = (l', .error e)) :
    (l' = l ∧ e = .round (.unknownRound id)) ∨
      ∃ r c, l.registry.find? id = some r ∧ (f r).2 = .error c ∧ l' = l.withRound (f r).1 ∧
        e = .round c := by
  cases hr : l.registry.find? id with
  | none =>
    rw [onRound_of_none hr] at h
    cases h
    exact .inl ⟨rfl, rfl⟩
  | some r =>
    rw [onRound_of_find? hr] at h
    obtain ⟨hstate, hresult⟩ := Prod.mk.inj h
    cases hf : (f r).2 with
    | ok b =>
      rw [hf] at hresult
      cases hresult
    | error c =>
      rw [hf] at hresult
      cases hresult
      exact .inr ⟨r, c, rfl, hf, hstate.symm, rfl⟩

/-! ## The disk -/

theorem onDisk_apply (f : Disk → Disk × Except StoreError α) (l : Leader) :
    onDisk f l = (l.withDisk (f l.disk).1, (f l.disk).2.mapError .store) := rfl

/-- Keeping something changes the disk only, and only the disk refuses it. -/
theorem onDisk_eq {f : Disk → Disk × Except StoreError α} {result : Except NodeError α}
    (h : onDisk f l = (l', result)) :
    (∃ disk, l' = l.withDisk disk) ∧ ∀ e, result = .error e → ∃ cause, e = .store cause := by
  rw [onDisk_apply] at h
  obtain ⟨hstate, rfl⟩ := Prod.mk.inj h
  refine ⟨⟨_, hstate.symm⟩, fun e he => ?_⟩
  cases hf : (f l.disk).2 with
  | ok _ =>
    rw [hf] at he
    cases he
  | error cause =>
    rw [hf] at he
    cases he
    exact ⟨cause, rfl⟩

/-- A record is kept where its save succeeds. -/
theorem keepRecord_of_saved {a : Address} {p : Participant} {disk : Disk}
    (hr : l.registry.find? id = some r) (hf : r.find? a = some p)
    (hsave : l.disk.saveParticipant id p = (disk, .ok ())) :
    keepRecord id a l = (l.withDisk disk, .ok ()) := by
  rw [keepRecord, Acting.bind_of_ok (round_of_find? hr), hf]
  dsimp only
  rw [onDisk_apply, hsave]
  rfl

theorem keepRecord_eq {a : Address} {result : Except NodeError Unit}
    (hr : l.registry.find? id = some r) (h : keepRecord id a l = (l', result)) :
    (∃ disk, l' = l.withDisk disk) ∧ ∀ e, result = .error e → ∃ cause, e = .store cause := by
  rw [keepRecord, Acting.bind_of_ok (round_of_find? hr)] at h
  cases hf : r.find? a with
  | none =>
    rw [hf] at h
    cases h
    exact ⟨⟨l.disk, rfl⟩, nofun⟩
  | some p =>
    rw [hf] at h
    exact onDisk_eq h

end Leader

end Beacon
