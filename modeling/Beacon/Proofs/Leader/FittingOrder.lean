import Beacon.Proofs.Leader.Closing
import Beacon.Proofs.Leader.Work
import Beacon.Proofs.Record.Formats
import Mathlib.Data.List.Nodup
import Mathlib.Data.List.Perm.Subperm

/-
  When a kept order is used again. It fits if it was made for the same root and the same
  combined value, has as many places as there are first stages, and names the operator of each
  place beside it (`fits_iff`). Whether it names a place twice is not looked at.

  So a record that fits can be installed exactly if it names no place twice
  (`fitting_installs_iff`). One that does leaves somebody out. It is not made anew, but
  refused when it is installed, and the driver of the round ends (`drive_closing_mismatch`).
-/

namespace Beacon

namespace OrderRecord

variable {o : OrderRecord} {root combined : Word} {disclosed : List (Address × Word)}

/-! ## What is compared -/

theorem all_zip_iff {order : List Nat} {operators : List Address}
    (h : order.length = operators.length) :
    ((order.zip operators).all fun e => disclosed[e.1]?.map (·.1) = some e.2) = true ↔
      operators.map some = order.map fun i => disclosed[i]?.map (·.1) := by
  induction order generalizing operators with
  | nil =>
    rw [List.eq_nil_of_length_eq_zero h.symm]
    simp
  | cons i order ih =>
    match operators, h with
    | a :: operators, h =>
      rw [List.zip_cons_cons, List.all_cons, Bool.and_eq_true, ih (Nat.succ.inj h),
        decide_eq_true_eq, List.map_cons, List.map_cons, List.cons.injEq]
      exact and_congr_left' eq_comm

/-- A record that fits has the root, the combined value and as many places as there are first
stages, and beside each place the operator that is there. -/
theorem fits_iff : o.fits root combined disclosed = true ↔
    o.merkleRoot = root ∧ o.combined = combined ∧ o.order.length = disclosed.length ∧
      o.operators.map some = o.order.map fun i => disclosed[i]?.map (·.1) := by
  simp only [fits, Bool.and_eq_true, decide_eq_true_eq, and_assoc]
  refine and_congr_right' (and_congr_right' (and_congr_right fun hlength => ?_))
  constructor
  · rintro ⟨hoperators, hall⟩
    exact (all_zip_iff (hlength.trans hoperators.symm)).mp hall
  · intro hmap
    have hoperators : o.operators.length = o.order.length := by
      simpa using congrArg List.length hmap
    exact ⟨hoperators.trans hlength, (all_zip_iff hoperators.symm).mpr hmap⟩

/-! ## Places and operators -/

/-- Places that all have an operator, as many as there are, are all of them exactly if none is
named twice. -/
theorem perm_range_iff {order : List Nat} {operators names : List Address}
    (hlength : order.length = names.length)
    (hmap : operators.map some = order.map fun i => names[i]?) :
    order.Perm (List.range names.length) ↔ order.Nodup := by
  constructor
  · exact fun hperm => hperm.nodup_iff.mpr List.nodup_range
  · intro hnodup
    have hsub : order ⊆ List.range names.length := by
      intro i hi
      have hname : names[i]? ∈ operators.map some := hmap ▸ List.mem_map_of_mem hi
      obtain ⟨a, -, ha⟩ := List.mem_map.mp hname
      exact List.mem_range.mpr (List.getElem?_eq_some_iff.mp ha.symm).1
    exact (List.subperm_of_subset hnodup hsub).perm_of_length_le (by
      rw [List.length_range, hlength])

theorem map_range_getElem? (names : List Address) :
    (List.range names.length).map (fun i => names[i]?) = names.map some := by
  apply List.ext_getElem
  · rw [List.length_map, List.length_map, List.length_range]
  · intro i h h'
    rw [List.length_map] at h'
    rw [List.getElem_map, List.getElem_map, List.getElem_range, List.getElem?_eq_getElem h']

theorem perm_names_iff {order : List Nat} {operators names : List Address}
    (hnames : names.Nodup) (hlength : order.length = names.length)
    (hmap : operators.map some = order.map fun i => names[i]?) :
    operators.Perm names ↔ order.Nodup := by
  constructor
  · intro hperm
    have hnodup : (operators.map some).Nodup :=
      (hperm.nodup_iff.mpr hnames).map (Option.some_injective _)
    rw [hmap] at hnodup
    exact hnodup.of_map
  · intro hnodup
    have hplaces := (perm_range_iff hlength hmap).mpr hnodup
    rw [← List.map_perm_map_iff (Option.some_injective _), hmap, ← map_range_getElem?]
    exact hplaces.map _

end OrderRecord

/-! ## Installing -/

namespace Round

variable {r : Round} {value : Option Word} {order names : List Address}

theorem covers_iff_perm (h : names.Nodup) : Covers order names ↔ order.Perm names := by
  rw [Covers]
  constructor
  · rintro ⟨hnodup, hsub, hsuper⟩
    exact (List.perm_ext_iff_of_nodup hnodup h).mpr fun a => ⟨hsub a, hsuper a⟩
  · intro hperm
    exact ⟨hperm.nodup_iff.mpr h, fun a => hperm.mem_iff.mp, fun a => hperm.mem_iff.mpr⟩

theorem installOrder_of_uncovered (hphase : r.phase = .collectingCos)
    (h : ¬Covers order (r.disclosed.map (·.1))) :
    r.installOrder value order = (r, .error .orderMismatch) := by
  rw [installOrder, if_neg (not_not.mpr hphase), if_neg h]

theorem installOrder_eq_mismatch : (r.installOrder value order).2 = .error .orderMismatch ↔
    r.phase = .collectingCos ∧ ¬Covers order (r.disclosed.map (·.1)) := by
  rw [installOrder]
  by_cases hphase : r.phase = .collectingCos
  · by_cases hcovers : Covers order (r.disclosed.map (·.1)) <;> simp [hphase, hcovers]
  · simp [hphase]

theorem Reachable.disclosed_nodup (h : r.Reachable) : (r.disclosed.map (·.1)).Nodup := by
  have hd : r.records.Pairwise fun p q => p.operator ≠ q.operator := List.pairwise_map.mp h.nodup
  refine List.pairwise_map.mpr (hd.filterMap _ ?_)
  intro p q hpq e he e' he'
  obtain ⟨_, -, rfl⟩ := Option.map_eq_some_iff.mp he
  obtain ⟨_, -, rfl⟩ := Option.map_eq_some_iff.mp he'
  exact hpq

/-- There is a round in which two operators disclosed these first stages. -/
theorem exists_bothDisclosed {a b : Address} (hab : a ≠ b) (cos cos' : Word) :
    ∃ r : Round, r.Reachable ∧ r.phase = .collectingCos ∧
      r.disclosed = [(a, cos), (b, cos')] := by
  refine ⟨_, reachable_run 1 [a, b] [.acceptCommit a (secondStage cos) Word.zero,
    .acceptCommit b (secondStage cos') Word.zero, .closeCommits, .acceptCos a cos,
    .acceptCos b cos'], ?_⟩
  simp [run, perform, answer, start, acceptCommit, isEligible, find?, closeCommits,
    Beacon.merkleRoot, MerkleTree.ofWords, Except.map, acceptCos, modify, disclosed, cosOpens,
    hab, hab.symm]

end Round

namespace OrderRecord

variable {o : OrderRecord} {root combined : Word} {disclosed : List (Address × Word)}

theorem map_operators (hfits : o.fits root combined disclosed = true) :
    o.order.length = (disclosed.map (·.1)).length ∧
      o.operators.map some = o.order.map fun i => (disclosed.map (·.1))[i]? := by
  obtain ⟨-, -, hlength, hmap⟩ := fits_iff.mp hfits
  simp only [List.length_map, List.getElem?_map]
  exact ⟨hlength, hmap⟩

/-- The operators of a record that fits are all that disclosed, each once, exactly if it names
no place twice. -/
theorem covers_iff_nodup (hfits : o.fits root combined disclosed = true)
    (hd : (disclosed.map (·.1)).Nodup) :
    Round.Covers o.operators (disclosed.map (·.1)) ↔ o.order.Nodup := by
  obtain ⟨hlength, hmap⟩ := map_operators hfits
  rw [Round.covers_iff_perm hd, perm_names_iff hd hlength hmap]

/-- A record that fits names all places exactly if it names none twice, and then, and only then,
its operators are all that disclosed. A round in which these disclosed refuses the order of such
a record as a wrong one exactly if the record names a place twice. -/
theorem fitting_installs_iff (hfits : o.fits root combined disclosed = true)
    (hd : (disclosed.map (·.1)).Nodup) :
    (o.order.Perm (List.range disclosed.length) ↔ o.order.Nodup) ∧
      (o.operators.Perm (disclosed.map (·.1)) ↔ o.order.Nodup) ∧
      ∀ (r : Round) (value : Option Word), r.disclosed = disclosed →
        ((r.installOrder value o.operators).2 = .error .orderMismatch ↔
          r.phase = .collectingCos ∧ ¬o.order.Nodup) := by
  obtain ⟨hlength, hmap⟩ := map_operators hfits
  refine ⟨?_, perm_names_iff hd hlength hmap, fun r value hr => ?_⟩
  · rw [← perm_range_iff hlength hmap, List.length_map]
  · rw [Round.installOrder_eq_mismatch, hr, covers_iff_nodup hfits hd]

def disclosedBoth : List (Address × Word) :=
  [(⟨.ofNat 20 1⟩, Word.zero), (⟨.ofNat 20 2⟩, Word.zero)]

theorem disclosedBoth_nodup : (disclosedBoth.map (·.1)).Nodup := by decide

theorem exists_disclosedBoth :
    ∃ r : Round, r.Reachable ∧ r.phase = .collectingCos ∧ r.disclosed = disclosedBoth :=
  Round.exists_bothDisclosed (by decide) Word.zero Word.zero

def inReverse : OrderRecord :=
  { round := 1, combined := RevealOrder.combine (disclosedBoth.map (·.2)), order := [1, 0]
    operators := [⟨.ofNat 20 2⟩, ⟨.ofNat 20 1⟩], merkleRoot := Word.zero }

theorem fitting_installs_iff_reversed :
    inReverse.fits Word.zero (RevealOrder.combine (disclosedBoth.map (·.2))) disclosedBoth = true ∧
      (disclosedBoth.map (·.1)).Nodup ∧ inReverse.order.Nodup ∧
      inReverse.order.Perm (List.range disclosedBoth.length) ∧
      inReverse.operators.Perm (disclosedBoth.map (·.1)) ∧
      ∃ r : Round, r.Reachable ∧ r.phase = .collectingCos ∧ r.disclosed = disclosedBoth ∧
        (r.installOrder (some inReverse.combined) inReverse.operators).2 ≠
          .error .orderMismatch := by
  obtain ⟨r, hreachable, hphase, hr⟩ := exists_disclosedBoth
  have hfits : inReverse.fits Word.zero (RevealOrder.combine (disclosedBoth.map (·.2)))
      disclosedBoth = true := fits_iff.mpr ⟨rfl, rfl, rfl, rfl⟩
  have hnodup : inReverse.order.Nodup := by decide
  obtain ⟨hplaces, hoperators, hinstall⟩ := fitting_installs_iff hfits disclosedBoth_nodup
  refine ⟨hfits, disclosedBoth_nodup, hnodup, hplaces.mpr hnodup, hoperators.mpr hnodup, r,
    hreachable, hphase, hr, fun hmismatch => ?_⟩
  exact ((hinstall r _ hr).mp hmismatch).2 hnodup

/-- A record that names the first of them twice. -/
def firstTwice : OrderRecord :=
  { round := 1, combined := RevealOrder.combine (disclosedBoth.map (·.2)), order := [0, 0]
    operators := [⟨.ofNat 20 1⟩, ⟨.ofNat 20 1⟩], merkleRoot := Word.zero }

/-- It is read from its text and fits, but does not name all places or all operators, and a
round in which these two disclosed refuses its order. -/
theorem repeated_place_fits :
    Format.orderRecord.parse (Format.orderRecord.print .pretty firstTwice) = .ok firstTwice ∧
      (disclosedBoth.map (·.1)).Nodup ∧
      firstTwice.fits Word.zero (RevealOrder.combine (disclosedBoth.map (·.2))) disclosedBoth =
        true ∧
      ¬firstTwice.order.Perm (List.range disclosedBoth.length) ∧
      ¬firstTwice.operators.Perm (disclosedBoth.map (·.1)) ∧
      ∃ r : Round, r.Reachable ∧ r.disclosed = disclosedBoth ∧
        (r.installOrder (some firstTwice.combined) firstTwice.operators).2 =
          .error .orderMismatch := by
  obtain ⟨r, hreachable, hphase, hr⟩ := exists_disclosedBoth
  have hfits : firstTwice.fits Word.zero (RevealOrder.combine (disclosedBoth.map (·.2)))
      disclosedBoth = true := fits_iff.mpr ⟨rfl, rfl, rfl, rfl⟩
  have hplaces : ∀ i ∈ firstTwice.order, i < UInt64.size := by decide
  have htwice : ¬firstTwice.order.Nodup := by decide
  obtain ⟨hlength, hmap⟩ := map_operators hfits
  have hoperators := (perm_names_iff disclosedBoth_nodup hlength hmap).not.mpr htwice
  have hall := (perm_range_iff hlength hmap).not.mpr htwice
  rw [List.length_map] at hall
  refine ⟨Format.parse_print (Format.keeps_orderRecord hplaces) .pretty, disclosedBoth_nodup, hfits,
    hall, hoperators, r, hreachable, hr, ?_⟩
  rw [Round.installOrder_eq_mismatch, hr, covers_iff_nodup hfits disclosedBoth_nodup]
  exact ⟨hphase, htwice⟩

end OrderRecord

/-! ## The driver -/

namespace Leader

variable {l : Leader} {d : Driver} {r : Round} {root : Word} {o : OrderRecord}

/-- A driver that closes the wait for first stages while an order is kept that fits and names a
place twice is refused that order and ends. The wait is closed, but no order is fixed, and the
order stays on disk. -/
theorem drive_closing_mismatch (hr : l.registry.find? d.round = some r) (hreach : r.Reachable)
    (hphase : r.phase = .collectingCos) (hstage : d.stage = .closingCos root)
    (hsome : r.disclosed ≠ []) (hload : l.disk.loadOrder d.round = .ok (some o))
    (hfits : o.fits root (RevealOrder.combine (r.disclosed.map (·.2))) r.disclosed = true)
    (htwice : ¬o.order.Nodup) :
    ∃ l', closeCos d.round root l = (l', .error (.round .orderMismatch)) ∧ l'.disk = l.disk ∧
      l'.registry.find? d.round = some r.closed ∧
      drive d l =
        { l' with drivers := Driver.hush d.round (l'.drivers.filter (·.key ≠ d.key)) } := by
  have hr₁ : (l.withRound r.closed).registry.find? d.round = some r.closed :=
    Registry.find?_replace_self hr (show r.id = d.round from Registry.id_of_find? hr)
  have hclose : onRound d.round (·.closeCos) l = (l.withRound r.closed, .ok r.missing) := by
    rw [onRound_of_find? hr, Round.closeCos_eq hphase]
    rfl
  have hkept : Acting.within (·.disk) (fun l disk => { l with disk })
      (OrderRecord.keptOrNew d.round root r.closed.disclosed) (l.withRound r.closed) =
        (l.withRound r.closed, .ok o) := by
    have hload : (l.withRound r.closed).disk.loadOrder d.round = .ok (some o) := hload
    rw [Acting.within, r.disclosed_closed, OrderRecord.keptOrNew_of_fits hload hfits]
  have hrefused : ¬Round.Covers o.operators (r.closed.disclosed.map (·.1)) := by
    rw [r.disclosed_closed, OrderRecord.covers_iff_nodup hfits hreach.disclosed_nodup]
    exact htwice
  have hinstall : onRound d.round (·.installOrder (some o.combined) o.operators)
      (l.withRound r.closed) =
        ((l.withRound r.closed).withRound r.closed, .error (.round .orderMismatch)) := by
    rw [onRound_of_find? hr₁, Round.installOrder_of_uncovered (r := r.closed) hphase hrefused]
    rfl
  have hsome' : r.closed.disclosed ≠ [] := by rwa [r.disclosed_closed]
  have hends : closeCos d.round root l =
      ((l.withRound r.closed).withRound r.closed, .error (.round .orderMismatch)) := by
    rw [closeCos, Acting.bind_of_ok hclose, Acting.bind_of_ok (round_of_find? hr₁)]
    dsimp only
    rw [if_neg hsome', Acting.bind_of_ok hkept, Acting.bind_of_error hinstall]
  refine ⟨_, hends, rfl, Registry.find?_replace_self hr₁ (Registry.id_of_find? hr₁), ?_⟩
  have hstep : step d l =
      ((l.withRound r.closed).withRound r.closed, .error (.round .orderMismatch)) := by
    rw [step, Acting.bind_of_ok (Acting.state_apply l), hstage]
    exact Acting.bind_of_error hends
  rw [drive, hstep]

/-- A driver that closes the wait for first stages and cannot load the order ends. The wait is
closed, but no order is fixed. -/
theorem drive_closing_unread {e : StoreError} (hr : l.registry.find? d.round = some r)
    (hphase : r.phase = .collectingCos) (hstage : d.stage = .closingCos root)
    (hsome : r.disclosed ≠ []) (hload : l.disk.loadOrder d.round = .error e) :
    drive d l = { l.withRound r.closed with
      drivers := Driver.hush d.round (l.drivers.filter (·.key ≠ d.key)) } := by
  have hclose : onRound d.round (·.closeCos) l = (l.withRound r.closed, .ok r.missing) := by
    rw [onRound_of_find? hr, Round.closeCos_eq hphase]
    rfl
  have hr₁ : (l.withRound r.closed).registry.find? d.round = some r.closed :=
    Registry.find?_replace_self hr (show r.id = d.round from Registry.id_of_find? hr)
  have hsome' : r.closed.disclosed ≠ [] := by rwa [r.disclosed_closed]
  have hunread : Acting.within (·.disk) (fun l disk => { l with disk })
      (OrderRecord.keptOrNew d.round root r.closed.disclosed) (l.withRound r.closed) =
        (l.withRound r.closed, .error (.store e)) := by
    have hload : (l.withRound r.closed).disk.loadOrder d.round = .error e := hload
    rw [Acting.within, OrderRecord.keptOrNew, Acting.bind_of_ok (Acting.state_apply _), hload]
    rfl
  have hends : closeCos d.round root l = (l.withRound r.closed, .error (.store e)) := by
    rw [closeCos, Acting.bind_of_ok hclose, Acting.bind_of_ok (round_of_find? hr₁)]
    dsimp only
    rw [if_neg hsome', Acting.bind_of_error hunread]
  have hstep : step d l = (l.withRound r.closed, .error (.store e)) := by
    rw [step, Acting.bind_of_ok (Acting.state_apply l), hstage]
    exact Acting.bind_of_error hends
  rw [drive, hstep]
  rfl

end Leader

end Beacon
