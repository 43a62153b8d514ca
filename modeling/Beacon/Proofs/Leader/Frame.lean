import Beacon.Leader.Inbound
import Beacon.Proofs.Leader.Rounds
import Beacon.Proofs.Record.AddressBook
import Beacon.Proofs.Round.Step
import Beacon.Proofs.Store.Files

/-
  What a message leaves alone. A registration touches one operator's entry in the book and
  the file of the book (`OnlyEntry`). Whatever else an operator says in a round touches its
  record in that round and the file of the record, and wakes those that wait for it
  (`OnlyRecord`). Both frames hold of every single action that a handler is made of, and
  frames can be put one after the other, so they hold of the handlers, refused or not.

  A list is compared place by place: where a member stands that is not the operator's, it
  stands before and after (`SameElsewhere`).
-/

namespace Beacon

/-! ## Lists -/

section Lists

variable {α : Type} {here : α → Prop} {xs ys zs : List α}

/-- A member that is not `here` stands at a place of one list exactly if it stands at that
place of the other. -/
def SameElsewhere (here : α → Prop) (xs ys : List α) : Prop :=
  ∀ (i : Nat) (x : α), ¬here x → (ys[i]? = some x ↔ xs[i]? = some x)

theorem SameElsewhere.refl (here : α → Prop) (xs : List α) : SameElsewhere here xs xs :=
  fun _ _ _ => .rfl

theorem SameElsewhere.trans (h : SameElsewhere here xs ys) (h' : SameElsewhere here ys zs) :
    SameElsewhere here xs zs :=
  fun i x hx => (h' i x hx).trans (h i x hx)

theorem sameElsewhere_append {x : α} (hx : here x) : SameElsewhere here xs (xs ++ [x]) := by
  intro i y hy
  have hne : x ≠ y := fun h => hy (h ▸ hx)
  rcases Nat.lt_trichotomy i xs.length with hi | rfl | hi
  · rw [List.getElem?_append_left hi]
  · simp [hne]
  · have hend : (xs ++ [x]).length ≤ i := by rw [List.length_append]; exact hi
    rw [List.getElem?_eq_none (Nat.le_of_lt hi), List.getElem?_eq_none hend]

theorem sameElsewhere_map [DecidablePred here] {change : α → α}
    (h : ∀ x, here x → here (change x)) :
    SameElsewhere here xs (xs.map fun x => if here x then change x else x) := by
  intro i x hx
  rw [List.getElem?_map]
  cases xs[i]? with
  | none => rfl
  | some y =>
    by_cases hy : here y
    · have hchange : change y ≠ x := fun heq => hx (heq ▸ h y hy)
      have hown : y ≠ x := fun heq => hx (heq ▸ hy)
      simp [hy, hchange, hown]
    · simp [hy]

end Lists

/-! ## Rounds -/

namespace Round

variable {r : Round} {a : Address}

/-- Everything in a round is as it was but for the record of an operator. -/
structure OnlyRecord (a : Address) (r r' : Round) : Prop where
  rest : { r' with records := r.records } = r
  records : SameElsewhere (·.operator = a) r.records r'.records

theorem OnlyRecord.refl (a : Address) (r : Round) : r.OnlyRecord a r := ⟨rfl, .refl _ _⟩

theorem OnlyRecord.trans {r' r'' : Round} (h : r.OnlyRecord a r') (h' : r'.OnlyRecord a r'') :
    r.OnlyRecord a r'' where
  rest := by
    obtain ⟨h, -⟩ := h
    obtain ⟨h', -⟩ := h'
    rw [← h, ← h']
  records := h.records.trans h'.records

theorem OnlyRecord.id_eq {r' : Round} (h : r.OnlyRecord a r') : r'.id = r.id := by
  rw [← h.rest]

theorem onlyRecord_modify {change : Participant → Participant}
    (h : ∀ p, (change p).operator = p.operator) : r.OnlyRecord a (r.modify a change) :=
  ⟨rfl, sameElsewhere_map fun p hp => (h p).trans hp⟩

theorem onlyRecord_acceptCommit (cvs sealed : Word) :
    r.OnlyRecord a (r.acceptCommit a cvs sealed).1 := by
  unfold acceptCommit
  split
  · exact .refl a r
  split
  · exact .refl a r
  split
  · exact .refl a r
  · exact ⟨rfl, sameElsewhere_append rfl⟩

theorem onlyRecord_acceptCos (cos : Word) : r.OnlyRecord a (r.acceptCos a cos).1 := by
  unfold acceptCos
  split
  · exact .refl a r
  split
  · exact .refl a r
  split
  · exact .refl a r
  split
  · exact .refl a r
  · exact onlyRecord_modify fun _ => rfl

theorem onlyRecord_acceptReveal (secret : Word) :
    r.OnlyRecord a (r.acceptReveal a secret).1 := by
  unfold acceptReveal
  split
  · exact .refl a r
  split
  · exact .refl a r
  split
  · exact .refl a r
  split
  · exact .refl a r
  split
  · exact .refl a r
  · exact onlyRecord_modify fun _ => rfl

end Round

/-! ## Files -/

namespace Disk

variable {d : Disk} {k : FileKey}

/-- Every file is as it was but for one and its temporary file. -/
def OnlyFile (k : FileKey) (d d' : Disk) : Prop :=
  ∀ name, name ≠ k.name → name ≠ k.temporary → d'.find? name = d.find? name

theorem OnlyFile.refl (k : FileKey) (d : Disk) : d.OnlyFile k d := fun _ _ _ => rfl

theorem OnlyFile.trans {d' d'' : Disk} (h : d.OnlyFile k d') (h' : d'.OnlyFile k d'') :
    d.OnlyFile k d'' :=
  fun name hname htemporary => (h' name hname htemporary).trans (h name hname htemporary)

theorem onlyFile_save {α : Type} (f : Format α) (x : α) : d.OnlyFile k (d.save k f x).1 := by
  rcases hreplace : d.replace k.name k.temporary (f.print .pretty x) with ⟨d', result⟩
  have hothers := (replace_spec (FileKey.name_ne_temporary k k) hreplace).1
  simp only [save, replaceFile, hreplace]
  exact hothers

end Disk

/-! ## Actions -/

namespace Acting

variable {σ α β : Type} {R : σ → σ → Prop} {x : Acting σ α} {f : α → Acting σ β}

/-- Done or refused, an action leaves a state that its frame relates to the one before. -/
def Within (R : σ → σ → Prop) (x : Acting σ α) : Prop := ∀ s, R s (x s).1

theorem Within.bind (htrans : ∀ {s t u}, R s t → R t u → R s u) (hx : Within R x)
    (hf : ∀ a, Within R (f a)) : Within R (x >>= f) := by
  intro s
  have hfirst := hx s
  rcases h : x s with ⟨s₁, e | a⟩
  · rw [bind_of_error h]
    rwa [h] at hfirst
  · rw [bind_of_ok h]
    rw [h] at hfirst
    exact htrans hfirst (hf a s₁)

end Acting

/-! ## What concerns one record -/

namespace Leader

open Acting (Within)

variable {id : UInt64} {a : Address} {l l' l'' : Leader}

/-- Everything a leader holds is as it was but for the record of one operator in one round,
the file of that record, and those that wait for it: the driver that hears of the round, the
request to the operator and the recovery of its secret. -/
structure OnlyRecord (id : UInt64) (a : Address) (l l' : Leader) : Prop where
  rest : { l' with
    registry := l.registry, disk := l.disk
    drivers := l.drivers, waiters := l.waiters, recoveries := l.recoveries } = l
  others : ∀ id', id' ≠ id → l'.registry.find? id' = l.registry.find? id'
  own : Option.Rel (Round.OnlyRecord a) (l.registry.find? id) (l'.registry.find? id)
  files : l.disk.OnlyFile (.participant id a) l'.disk
  drivers : SameElsewhere (fun d => d.round = id ∧ d.hears) l.drivers l'.drivers
  waiters : SameElsewhere (fun w => w.round = id ∧ w.operator = a) l.waiters l'.waiters
  recoveries : SameElsewhere (fun t => t.isOf id a) l.recoveries l'.recoveries

theorem rel_refl : (o : Option Round) → Option.Rel (Round.OnlyRecord a) o o
  | none => .none
  | some r => .some (.refl a r)

theorem rel_trans {o o' o'' : Option Round} : Option.Rel (Round.OnlyRecord a) o o' →
    Option.Rel (Round.OnlyRecord a) o' o'' → Option.Rel (Round.OnlyRecord a) o o''
  | .none, .none => .none
  | .some h, .some h' => .some (h.trans h')

namespace OnlyRecord

theorem refl (id : UInt64) (a : Address) (l : Leader) : OnlyRecord id a l l where
  rest := rfl
  others _ _ := rfl
  own := rel_refl _
  files := .refl _ _
  drivers := .refl _ _
  waiters := .refl _ _
  recoveries := .refl _ _

theorem trans (h : OnlyRecord id a l l') (h' : OnlyRecord id a l' l'') :
    OnlyRecord id a l l'' where
  rest := by
    obtain ⟨h, -⟩ := h
    obtain ⟨h', -⟩ := h'
    rw [← h, ← h']
  others id' hid := (h'.others id' hid).trans (h.others id' hid)
  own := rel_trans h.own h'.own
  files := h.files.trans h'.files
  drivers := h.drivers.trans h'.drivers
  waiters := h.waiters.trans h'.waiters
  recoveries := h.recoveries.trans h'.recoveries

end OnlyRecord

/-! ## Parts of handlers -/

theorem within_give {ε α : Type} (cause : ε → NodeError) (x : Except ε α) :
    Within (OnlyRecord id a) (Acting.give cause x) := by
  intro l
  cases x <;> exact .refl id a l

theorem within_pure {α : Type} (x : α) : Within (OnlyRecord id a) (pure x) :=
  fun l => .refl id a l

theorem within_round (id' : UInt64) : Within (OnlyRecord id a) (round id') := by
  intro l
  rw [round, Acting.bind_of_ok (Acting.state_apply l)]
  exact within_give _ _ l

theorem within_onRound {α : Type} {f : Round → Round × Except RoundError α}
    (hf : ∀ r : Round, r.OnlyRecord a (f r).1) : Within (OnlyRecord id a) (onRound id f) := by
  intro l
  cases hr : l.registry.find? id with
  | none =>
    rw [onRound_of_none hr]
    exact .refl id a l
  | some r =>
    rw [onRound_of_find? hr]
    have hid : (f r).1.id = id := (hf r).id_eq.trans (Registry.id_of_find? hr)
    refine { OnlyRecord.refl id a l with rest := rfl, others := fun id' hne => ?_, own := ?_ }
    · change (l.registry.replace (f r).1).find? id' = _
      rw [Registry.find?_replace]
      cases hother : l.registry.find? id' with
      | none => rfl
      | some s =>
        have hs : s.id ≠ (f r).1.id := by rw [Registry.id_of_find? hother, hid]; exact hne
        rw [Option.map_some, if_neg hs]
    · change Option.Rel _ _ ((l.registry.replace (f r).1).find? id)
      rw [Registry.find?_replace_self hr hid, hr]
      exact .some (hf r)

theorem within_keepRecord : Within (OnlyRecord id a) (keepRecord id a) := by
  refine .bind .trans (within_round id) fun r l => ?_
  cases hr : r.find? a with
  | none => exact .refl id a l
  | some p =>
    have hoperator := (Round.mem_of_find? hr).2
    refine { OnlyRecord.refl id a l with rest := rfl, files := ?_ }
    rw [← hoperator]
    exact Disk.onlyFile_save _ _

theorem onlyRecord_poke (l : Leader) : OnlyRecord id a l (poke id l) :=
  { OnlyRecord.refl id a l with rest := rfl, drivers := sameElsewhere_map fun _ h => h }

theorem onlyRecord_noteSecret (before : Standing) (l : Leader) :
    OnlyRecord id a l (noteSecret id a before l) := by
  have hanswer : OnlyRecord id a l (answerWaiter id a l) :=
    { OnlyRecord.refl id a l with rest := rfl, waiters := sameElsewhere_map fun _ h => h }
  have hcancel : OnlyRecord id a l (cancelRecovery id a l) :=
    { OnlyRecord.refl id a l with rest := rfl, recoveries := sameElsewhere_map fun _ h => h }
  unfold noteSecret
  split
  · exact hanswer.trans (onlyRecord_poke _)
  · exact hcancel.trans (onlyRecord_poke _)

theorem within_wake {α : Type} (ready : Bool) (x : α) : Within (OnlyRecord id a)
    (if ready then do Acting.change (poke id); return x else return x) := by
  intro l
  cases ready
  · exact .refl id a l
  · exact onlyRecord_poke l

/-- What follows a change to a round: its record is kept, and then the driver may be
woken. -/
theorem within_kept {α : Type} (ready : Round → Bool) (x : α) : Within (OnlyRecord id a) (do
    keepRecord id a
    if ready (← round id) then Acting.change (poke id)
    return x : Acting Leader α) :=
  .bind .trans within_keepRecord fun _ => .bind .trans (within_round id) fun r =>
    within_wake (ready r) x

/-! ## Handlers -/

theorem within_commit (cvs sealed : Word) : Within (OnlyRecord id a) (commit id a cvs sealed) := by
  refine .bind .trans (within_onRound fun _ => Round.onlyRecord_acceptCommit cvs sealed) ?_
  exact fun place => within_kept (·.allCommitted) place

theorem within_disclose (cos : Word) : Within (OnlyRecord id a) (disclose id a cos) := by
  refine .bind .trans (within_onRound fun _ => Round.onlyRecord_acceptCos cos) ?_
  intro accepted
  cases accepted
  · exact within_pure false
  · exact within_kept (·.allCosReceived) true

theorem within_reveal (secret : Word) : Within (OnlyRecord id a) (reveal id a secret) := by
  have haccept : Within (OnlyRecord id a) (acceptSecret id a secret) := by
    refine .bind .trans (within_onRound fun _ => Round.onlyRecord_acceptReveal secret) ?_
    exact fun before => .bind .trans within_keepRecord fun _ => within_pure before
  exact .bind .trans haccept fun before l => onlyRecord_noteSecret before l

/-! ## What concerns one entry of the book -/

/-- Everything a leader holds is as it was but for the entry of one operator in the book
and the file of the book. -/
structure OnlyEntry (a : Address) (l l' : Leader) : Prop where
  rest : { l' with book := l.book, disk := l.disk } = l
  entries : l'.book.filter (·.1 ≠ a) = l.book.filter (·.1 ≠ a)
  files : l.disk.OnlyFile .addressBook l'.disk

theorem within_register (peer : String) : Within (OnlyEntry a) (register a peer) := by
  intro l
  unfold register enroll
  split_ifs with hknown
  · exact ⟨rfl, rfl, .refl _ _⟩
  · exact ⟨rfl, AddressBook.filter_insert peer l.book, Disk.onlyFile_save _ _⟩

end Leader

end Beacon
