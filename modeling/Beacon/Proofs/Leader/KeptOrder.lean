import Beacon.Proofs.Leader.FittingOrder
import Beacon.Proofs.Leader.Registration
import Beacon.Proofs.Leader.Work
import Beacon.Proofs.RevealOrder

/-
  The kept order against the one that is determined. A call either finds an order that fits,
  or determines one and keeps it, so whatever is kept for a round was determined by a call for
  that round (`Determined`), by this run of the leader or an earlier one.

  Fitting compares the combined value, not the first stages. As long as the first stages of no
  two calls have the same digest, an order that fits was determined from the first stages of
  the call itself, and is the one that would be determined anew (`Yields.of_fits`). So it does
  not matter which of the two a call does (`kept_order_agrees`).
-/

namespace Beacon

/-- A call for the order of reveals of a round: the root of the commits, and the operators that
disclosed with their first stages. Places among these are numbers of 64 bits. -/
structure OrderCall where
  round : UInt64
  root : Word
  disclosed : List (Address × Word)
  places : disclosed.length ≤ UInt64.size

namespace OrderCall

variable {c c' : OrderCall} {o o' : OrderRecord} {calls : List OrderCall} {d : Disk}
  {l : Leader}

/-- The disclosed first stages. -/
def cos (c : OrderCall) : List Word := c.disclosed.map (·.2)

def act (c : OrderCall) : Acting Leader OrderRecord :=
  .within (·.disk) (fun l disk => { l with disk })
    (OrderRecord.keptOrNew c.round c.root c.disclosed)

/-! ## The record of a call -/

/-- The record that belongs to a call: the digest of its first stages, the order that they
determine, and the operators in that order. -/
structure Yields (c : OrderCall) (o : OrderRecord) : Prop where
  round : o.round = c.round
  merkleRoot : o.merkleRoot = c.root
  combined : o.combined = keccak256 (c.cos.flatMap Octets.bytes)
  order : RevealOrder.determine c.cos = .ok ⟨o.combined, o.order⟩
  operators : o.operators.map some = o.order.map fun i => c.disclosed[i]?.map (·.1)

namespace Yields

theorem perm (h : c.Yields o) : o.order.Perm (List.range c.disclosed.length) := by
  have hsome : c.cos ≠ [] := by
    intro hnil
    have horder := h.order
    rw [hnil] at horder
    cases horder
  obtain ⟨order, hdetermine, hperm, -⟩ := RevealOrder.determine_sorted hsome
  rw [h.order] at hdetermine
  obtain ⟨-, rfl⟩ := RevealOrder.mk.inj (Except.ok.inj hdetermine)
  rwa [cos, List.length_map] at hperm

theorem length_eq (h : c.Yields o) : o.order.length = c.disclosed.length := by
  rw [h.perm.length_eq, List.length_range]

theorem unique (h : c.Yields o) (h' : c.Yields o') : o = o' := by
  obtain ⟨round, combined, order, operators, merkleRoot⟩ := o
  obtain ⟨round', combined', order', operators', merkleRoot'⟩ := o'
  obtain ⟨rfl, rfl⟩ := RevealOrder.mk.inj (Except.ok.inj (h.order.symm.trans h'.order))
  obtain rfl : operators = operators' :=
    List.map_injective_iff.mpr (Option.some_injective _) (h.operators.trans h'.operators.symm)
  obtain rfl : round = round' := h.round.trans h'.round.symm
  obtain rfl : merkleRoot = merkleRoot' := h.merkleRoot.trans h'.merkleRoot.symm
  rfl

theorem fits (h : c.Yields o) :
    o.fits c.root (RevealOrder.combine c.cos) c.disclosed = true :=
  OrderRecord.fits_iff.mpr ⟨h.merkleRoot, h.combined, h.length_eq, h.operators⟩

theorem keeps (h : c.Yields o) : Format.orderRecord.Keeps o := by
  refine Format.keeps_orderRecord fun i hi => ?_
  exact Nat.lt_of_lt_of_le (List.mem_range.mp (h.perm.mem_iff.mp hi)) c.places

end Yields

theorem determine_eq (h : c.disclosed ≠ []) : ∃ o, c.Yields o ∧
    OrderRecord.determine c.round c.root c.disclosed = .ok o := by
  have hsome : c.cos ≠ [] := mt List.map_eq_nil_iff.mp h
  obtain ⟨order, hdetermine, hperm, -⟩ := RevealOrder.determine_sorted hsome
  refine ⟨_, ⟨rfl, rfl, rfl, hdetermine, ?_⟩, by rw [OrderRecord.determine, ← cos, hdetermine]; rfl⟩
  -- Each place has an operator.
  rw [List.map_filterMap_some_eq_filter_map_isSome, List.filter_eq_self]
  intro a ha
  obtain ⟨i, hi, rfl⟩ := List.mem_map.mp ha
  have hi := List.mem_range.mp (hperm.mem_iff.mp hi)
  rw [cos, List.length_map] at hi
  rw [List.getElem?_eq_getElem hi]
  rfl

theorem determine_eq_ok (h : OrderRecord.determine c.round c.root c.disclosed = .ok o) :
    c.Yields o := by
  have hsome : c.disclosed ≠ [] := by
    intro hnil
    rw [hnil] at h
    cases h
  obtain ⟨o', hyields, hdetermine⟩ := determine_eq hsome
  rw [h] at hdetermine
  rwa [Except.ok.inj hdetermine]

/-! ## What is kept -/

/-- The first stages of no two of the calls are different ones, equally many, with the same
digest. -/
def NoCollision (calls : List OrderCall) : Prop :=
  ∀ c ∈ calls, ∀ c' ∈ calls, c.cos.length = c'.cos.length →
    RevealOrder.combine c.cos = RevealOrder.combine c'.cos → c.cos = c'.cos

def IsKept (c : OrderCall) (o : OrderRecord) (d : Disk) : Prop :=
  d.find? (FileKey.name (.order c.round)) = some (.file (Format.orderRecord.print .pretty o))

/-- Of a round no order is kept, or the record of one of the calls for that round. -/
def DeterminedFor (calls : List OrderCall) (id : UInt64) (d : Disk) : Prop :=
  d.find? (FileKey.name (.order id)) = none ∨ ∃ c ∈ calls, ∃ o, c.round = id ∧ c.Yields o ∧
    d.find? (FileKey.name (.order id)) = some (.file (Format.orderRecord.print .pretty o))

/-- Whatever order is kept, it is the record of one of the calls. -/
def Determined (calls : List OrderCall) (d : Disk) : Prop := ∀ id, DeterminedFor calls id d

theorem DeterminedFor.congr {id : UInt64} {d' : Disk} (h : DeterminedFor calls id d)
    (hsame : d'.find? (FileKey.name (.order id)) = d.find? (FileKey.name (.order id))) :
    DeterminedFor calls id d' := by
  rw [DeterminedFor, hsame]
  exact h

theorem Yields.load (h : c.Yields o) (hkept : c.IsKept o d) :
    d.loadOrder c.round = .ok (some o) :=
  Disk.load_of_file h.keeps hkept

/-- Saving the record of a call puts it in the file of the call, or leaves that file alone, and
every other file. -/
theorem Yields.save (h : c.Yields o) (d : Disk) :
    (∀ id, id ≠ c.round → (d.saveOrder o).1.find? (FileKey.name (.order id)) =
        d.find? (FileKey.name (.order id))) ∧
      ((d.saveOrder o).2 = .ok () ∧ c.IsKept o (d.saveOrder o).1 ∨
        (d.saveOrder o).2 ≠ .ok () ∧ (d.saveOrder o).1.find? (FileKey.name (.order c.round)) =
          d.find? (FileKey.name (.order c.round))) := by
  rw [Disk.saveOrder, h.round]
  obtain ⟨hothers, hown⟩ := Disk.save_spec d (.order c.round) .orderRecord o
  refine ⟨fun id hid => hothers (.order id) fun hkey => hid (FileKey.order.inj hkey), ?_⟩
  obtain hsaved | ⟨hfailed, hsame⟩ := hown
  · exact .inl hsaved
  · exact .inr ⟨by rw [hfailed]; nofun, hsame⟩

theorem determined_of_fresh (h : ∀ id, d.loadOrder id = .ok none) (calls : List OrderCall) :
    Determined calls d :=
  fun id => .inl (Disk.find?_of_load_none (h id))

theorem Determined.saved (h : Determined calls d) (hc : c ∈ calls) (hyields : c.Yields o) :
    Determined calls (d.saveOrder o).1 := by
  obtain ⟨hothers, hown⟩ := hyields.save d
  intro id
  by_cases hid : id = c.round
  · subst hid
    obtain ⟨-, hkept⟩ | ⟨-, hsame⟩ := hown
    · exact .inr ⟨c, hc, o, rfl, hyields, hkept⟩
    · exact (h c.round).congr hsame
  · exact (h id).congr (hothers id hid)

theorem Determined.called (h : Determined calls d) (hc : c ∈ calls) :
    Determined calls (OrderRecord.keptOrNew c.round c.root c.disclosed d).1 := by
  obtain hsame | ⟨o, hnew, hsaved⟩ := OrderRecord.disk_keptOrNew c.round c.root c.disclosed d
  · rw [hsame]
    exact h
  · rw [hsaved]
    exact h.saved hc (determine_eq_ok hnew)

/-! ## The kept order and the new one -/

/-- An order that was determined for the same round and fits is the one of the call, since its
combined value comes from the same first stages. -/
theorem Yields.of_fits (h : c'.Yields o) (hround : c'.round = c.round)
    (hfree : c'.cos.length = c.cos.length → RevealOrder.combine c'.cos = RevealOrder.combine c.cos →
      c'.cos = c.cos)
    (hfits : o.fits c.root (RevealOrder.combine c.cos) c.disclosed = true) : c.Yields o := by
  obtain ⟨hroot, hcombined, hlength, hoperators⟩ := OrderRecord.fits_iff.mp hfits
  have hlengths : c'.cos.length = c.cos.length := by
    rw [cos, cos, List.length_map, List.length_map, ← hlength, h.length_eq]
  have hcos : c'.cos = c.cos := hfree hlengths (h.combined.symm.trans hcombined)
  exact ⟨h.round.trans hround, hroot, hcombined, hcos ▸ h.order, hoperators⟩

theorem Determined.agrees (h : Determined calls d) (hfree : NoCollision calls) (hc : c ∈ calls)
    (hyields : c.Yields o) (hnew : OrderRecord.determine c.round c.root c.disclosed = .ok o)
    (hkeeps : d.loadOrder c.round = .ok (some o) ∨ (d.saveOrder o).2 = .ok ()) :
    ∃ d', OrderRecord.keptOrNew c.round c.root c.disclosed d = (d', .ok o) ∧ c.IsKept o d' := by
  -- An order that is determined anew is kept.
  have hrenewed (found : Option OrderRecord) (hload : d.loadOrder c.round = .ok found)
      (hstale : ∀ o' ∈ found, ¬o'.fits c.root (RevealOrder.combine c.cos) c.disclosed = true) :
      ∃ d', OrderRecord.keptOrNew c.round c.root c.disclosed d = (d', .ok o) ∧ c.IsKept o d' := by
    have hsaved : (d.saveOrder o).2 = .ok () := by
      refine hkeeps.resolve_left fun hfound => hstale o ?_ hyields.fits
      rw [Except.ok.inj (hload.symm.trans hfound), Option.mem_some]
    obtain ⟨-, hkept⟩ := ((hyields.save d).2).resolve_right fun hfailed => hfailed.1 hsaved
    refine ⟨(d.saveOrder o).1, ?_, hkept⟩
    rw [OrderRecord.keptOrNew_of_stale hload hstale, OrderRecord.renew_of_determine hnew, hsaved]
    rfl
  rcases h c.round with hnone | ⟨c', hc', o', hround, hyields', hfile⟩
  · refine hrenewed none ?_ nofun
    rw [Disk.loadOrder, Disk.load_eq, hnone]
  · have hload : d.loadOrder c.round = .ok (some o') := Disk.load_of_file hyields'.keeps hfile
    by_cases hfits : o'.fits c.root (RevealOrder.combine c.cos) c.disclosed = true
    · obtain rfl := (hyields'.of_fits hround (hfree c' hc' c hc) hfits).unique hyields
      exact ⟨d, OrderRecord.keptOrNew_of_fits hload hfits, hfile⟩
    · refine hrenewed (some o') hload fun o'' ho'' => ?_
      rwa [← Option.mem_some.mp ho'']

/-! ## All calls at a leader -/

/-- What happens to the kept orders of a leader: a call, or a start in the same directory with
other settings. -/
inductive Event where
  | call (c : OrderCall)
  | restart (settings : LeaderSettings) (signer : Signer) (network : Network) (clock : Nat)

def Event.call? : Event → Option OrderCall
  | .call c => some c
  | .restart .. => none

/-- The leader after an event. One that cannot be started again stays as it is. -/
def step (l : Leader) : Event → Leader
  | .call c => (c.act l).1
  | .restart settings signer network clock =>
    (Leader.start settings signer l.disk network clock).toOption.getD l

def run (l : Leader) (events : List Event) : Leader := events.foldl step l

theorem disk_restart (l : Leader) (settings : LeaderSettings) (signer : Signer)
    (network : Network) (clock : Nat) :
    (step l (.restart settings signer network clock)).disk = l.disk := by
  rw [step]
  cases hstart : Leader.start settings signer l.disk network clock with
  | error e => rfl
  | ok l' => exact (Leader.start_eq_ok hstart).1

theorem Determined.step (h : Determined calls l.disk) {e : Event}
    (he : ∀ c ∈ e.call?, c ∈ calls) : Determined calls (step l e).disk := by
  cases e with
  | call c => exact h.called (he c rfl)
  | restart settings signer network clock =>
    rw [disk_restart]
    exact h

theorem Determined.run (h : Determined calls l.disk) {events : List Event}
    (hevents : ∀ c ∈ events.filterMap Event.call?, c ∈ calls) :
    Determined calls (run l events).disk := by
  induction events generalizing l with
  | nil => exact h
  | cons e events ih =>
    refine ih (h.step fun c hc => hevents c ?_) fun c hc => hevents c ?_
    · exact List.mem_filterMap.mpr ⟨e, List.mem_cons_self, hc⟩
    · obtain ⟨e', he', hc⟩ := List.mem_filterMap.mp hc
      exact List.mem_filterMap.mpr ⟨e', List.mem_cons_of_mem e he', hc⟩

/-- Orders are kept in a directory without any, by calls for any rounds, roots and first stages
and in any number of runs of the leader, and some of them may fail. The next call answers with
its own record if that is kept already or can be kept, as long as the first stages of no two of
the calls collide. The file of its round holds that record then, and the same call again finds
it there and changes nothing. -/
theorem kept_order_agrees {events : List Event} (hfresh : ∀ id, l.disk.loadOrder id = .ok none)
    (hfree : NoCollision (c :: events.filterMap Event.call?)) (hsome : c.disclosed ≠ []) :
    ∃ o, c.Yields o ∧
      ((run l events).disk.loadOrder c.round = .ok (some o) ∨
        ((run l events).disk.saveOrder o).2 = .ok () →
        ∃ l', c.act (run l events) = (l', .ok o) ∧ c.IsKept o l'.disk ∧
          l'.disk.loadOrder c.round = .ok (some o) ∧ c.act l' = (l', .ok o)) := by
  obtain ⟨o, hyields, hnew⟩ := determine_eq hsome
  refine ⟨o, hyields, fun hkeeps => ?_⟩
  have hkept : Determined (c :: events.filterMap Event.call?) (run l events).disk :=
    (determined_of_fresh hfresh _).run fun c' hc' => List.mem_cons_of_mem c hc'
  obtain ⟨d', hanswer, hd'⟩ := hkept.agrees hfree List.mem_cons_self hyields hnew hkeeps
  have hload := hyields.load hd'
  refine ⟨(run l events).withDisk d', ?_, hd', hload, ?_⟩
  · rw [act, Acting.within, hanswer]
    rfl
  · have hagain : OrderRecord.keptOrNew c.round c.root c.disclosed d' = (d', .ok o) :=
      OrderRecord.keptOrNew_of_fits hload hyields.fits
    rw [act, Acting.within]
    exact congrArg (fun r : Disk × _ => ((run l events).withDisk r.1, r.2)) hagain

theorem plain_called (c : OrderCall) (hd : d.Plain) (hfaults : d.faults = []) :
    (OrderRecord.keptOrNew c.round c.root c.disclosed d).1.Plain ∧
      (OrderRecord.keptOrNew c.round c.root c.disclosed d).1.faults = [] := by
  obtain hsame | ⟨o, -, hsaved⟩ := OrderRecord.disk_keptOrNew c.round c.root c.disclosed d
  · rw [hsame]
    exact ⟨hd, hfaults⟩
  · obtain ⟨hplain, hrest, -⟩ := Disk.save_plain hd (.order o.round) .orderRecord o
    rw [hsaved]
    exact ⟨hplain, hrest.trans (by rw [hfaults]; rfl)⟩

/-- The first stages of two operators over the commits with a root. -/
def ofBoth (root : Word) : OrderCall :=
  { round := 1, root, disclosed := OrderRecord.disclosedBoth, places := by decide }

/-- In an empty directory an order is kept for one root, and found stale by a call for another
root after the leader was started again. -/
theorem kept_order_agrees_stale :
    ∃ (l : Leader) (settings : LeaderSettings) (signer : Signer),
      let events := [.call (ofBoth Word.zero), .restart settings signer .empty 0]
      (∀ id, l.disk.loadOrder id = .ok none) ∧
        NoCollision (ofBoth (.ofUInt64 1) :: events.filterMap Event.call?) ∧
        (ofBoth (.ofUInt64 1)).disclosed ≠ [] ∧
        (∃ stale, (run l events).disk.loadOrder 1 = .ok (some stale) ∧
          stale.merkleRoot = Word.zero) ∧
        ∃ o l', (ofBoth (.ofUInt64 1)).Yields o ∧
          (ofBoth (.ofUInt64 1)).act (run l events) = (l', .ok o) ∧
          (ofBoth (.ofUInt64 1)).IsKept o l'.disk ∧
          (ofBoth (.ofUInt64 1)).act l' = (l', .ok o) := by
  let settings : LeaderSettings := ⟨.ofSeconds 1, .ofSeconds 1, .ofSeconds 1, ⟨5, 3⟩⟩
  let signer : Signer := ⟨1, by decide, by decide⟩
  have hbook : Disk.empty.loadBook = .ok [] := rfl
  have hlatest : Disk.empty.loadLatest = .ok none := rfl
  obtain ⟨l, hstart, -⟩ := Leader.start_of_loads hbook hlatest settings signer .empty 0
  have hdisk : l.disk = .empty := (Leader.start_eq_ok hstart).1
  have hfresh : ∀ id, l.disk.loadOrder id = .ok none := fun id => by
    rw [hdisk, Disk.loadOrder, Disk.load_eq]
    rfl
  have hplain : l.disk.Plain := by
    rw [hdisk]
    exact fun _ => nofun
  have hfaults : l.disk.faults = [] := by rw [hdisk]; rfl
  have hsaves {d : Disk} (hd : d.Plain) (hfaults : d.faults = []) (o : OrderRecord) :
      (d.saveOrder o).2 = .ok () :=
    (Disk.save_plain hd (.order o.round) .orderRecord o).2.2.mpr (by rw [hfaults]; rfl)
  -- All calls have the same first stages.
  have hfree (c : OrderCall) (calls : List OrderCall)
      (h : ∀ c' ∈ c :: calls, c'.cos = OrderRecord.disclosedBoth.map (·.2)) :
      NoCollision (c :: calls) := by
    intro c₁ h₁ c₂ h₂ _ _
    rw [h c₁ h₁, h c₂ h₂]
  have hsome (root : Word) : (ofBoth root).disclosed ≠ [] := List.cons_ne_nil _ _
  -- The first call keeps its record.
  have hfree₀ : NoCollision (ofBoth Word.zero :: ([] : List Event).filterMap Event.call?) :=
    hfree _ _ fun c hc => by rw [List.mem_singleton.mp hc]; rfl
  obtain ⟨stale, hstale, hfirst⟩ := kept_order_agrees hfresh hfree₀ (hsome _)
  obtain ⟨l₁, hcall, -, hload, -⟩ := hfirst (.inr (hsaves hplain hfaults stale))
  have hrun : (run l [.call (ofBoth Word.zero), .restart settings signer .empty 0]).disk =
      l₁.disk := by
    have hl₁ : step l (.call (ofBoth Word.zero)) = l₁ := congrArg Prod.fst hcall
    rw [run, List.foldl_cons, List.foldl_cons, List.foldl_nil, hl₁, disk_restart]
  have hkept := plain_called (ofBoth Word.zero) hplain hfaults
  have hl₁ : (OrderRecord.keptOrNew (ofBoth Word.zero).round (ofBoth Word.zero).root
      (ofBoth Word.zero).disclosed l.disk).1 = l₁.disk := congrArg (·.1.disk) hcall
  rw [hl₁, ← hrun] at hkept
  have hfree₁ : NoCollision (ofBoth (.ofUInt64 1) ::
      [.call (ofBoth Word.zero), .restart settings signer .empty 0].filterMap Event.call?) :=
    hfree _ _ fun c hc => by rcases List.mem_pair.mp hc with rfl | rfl <;> rfl
  obtain ⟨o, hyields, hsecond⟩ := kept_order_agrees hfresh hfree₁ (hsome _)
  obtain ⟨l', hanswer, hfile, -, hagain⟩ := hsecond (.inr (hsaves hkept.1 hkept.2 o))
  refine ⟨l, settings, signer, hfresh, hfree₁, hsome _, ⟨stale, ?_, hstale.merkleRoot⟩, o, l',
    hyields, hanswer, hfile, hagain⟩
  rw [hrun]
  exact hload

end OrderCall

end Beacon
