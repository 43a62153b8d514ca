import Beacon.Proofs.Round.History
import Beacon.Proofs.Round.Honest
import Beacon.Proofs.Round.Shift

/-
  The turns of the operators. The order that was fixed is gone through once, from the front:
  those before the cursor were passed, and those from the cursor on are still ahead
  (`ahead`). What an operation does to the order and the cursor is `Turn`.

  So a run passes a beginning of the order, and asks those on it who had only committed when
  the cursor came to them, in this order and nobody twice. Secrets are taken in only from
  operators that were asked or had been timed out for their first stage. All this holds
  whatever else moves operators in the meantime (`reveals_follow_order`).

  One operation passes the next part of what is ahead and asks its last operator at most
  (`Turn.passed_eq`); the run follows by induction from its end.
-/

namespace Beacon

namespace Round

variable {r : Round} {op : Operation} {ops : List Operation} {id : UInt64}
  {eligible : List Address} {a : Address} {order : List Address}

/-! ## The order and the cursor -/

/-- The operators that the cursor has not come to. -/
def ahead (r : Round) : List Address := r.order.drop r.cursor

/-- The operator that an answer names as the next to reveal. -/
def askedBy : Except RoundError Reply → Option Address
  | .ok (.next a) => a
  | _ => none

/-- What an operation does to the order and the cursor, and whom it asks. -/
inductive Turn (r : Round) : Operation → Round → Except RoundError Reply → Prop where
  | stay {op : Operation} {r' : Round} {result : Except RoundError Reply}
      (horder : r'.order = r.order) (hcursor : r'.cursor = r.cursor)
      (hphase : r'.phase.pastOrder → r.phase.pastOrder) (hasked : askedBy result = none) :
      Turn r op r' result
  | fix {combined : Option Word} {order : List Address} (hphase : r.phase = .collectingCos)
      (hcovers : Covers order (r.disclosed.map (·.1))) :
      Turn r (.installOrder combined order)
        { r with combined, order, cursor := 0, phase := .orderDetermined } (.ok .done)
  | ask {passed rest : List Address} {a : Address} (hphase : r.phase = .revealing)
      (hahead : r.ahead = passed ++ a :: rest)
      (hpassed : ∀ b ∈ passed, r.standingOf b ≠ some .committed)
      (hstands : r.standingOf a = some .committed) :
      Turn r .nextToRequest
        ({ r with cursor := r.cursor + passed.length + 1 }.setStanding a .revealRequested)
        (.ok (.next (some a)))
  | exhaust (hphase : r.phase = .revealing)
      (hpassed : ∀ b ∈ r.ahead, r.standingOf b ≠ some .committed) :
      Turn r .nextToRequest { r with cursor := r.cursor + r.ahead.length } (.ok (.next none))

theorem askedBy_answer {α : Type} {reply : α → Reply} (hreply : ∀ x a, reply x ≠ .next a)
    (result : Round × Except RoundError α) : askedBy (answer reply result).2 = none := by
  obtain ⟨r', e | x⟩ := result
  · rfl
  · have hne := hreply x
    show askedBy (.ok (reply x)) = none
    cases h : reply x with
    | next a => exact absurd h (hne a)
    | _ => rfl

/-- Only fixing the order and searching for the next operator move the cursor. -/
theorem rest_perform (hnext : op ≠ .nextToRequest)
    (hinstall : ∀ combined order, op ≠ .installOrder combined order) :
    (r.perform op).1.order = r.order ∧ (r.perform op).1.cursor = r.cursor ∧
      ((r.perform op).1.phase.pastOrder → r.phase.pastOrder) := by
  have heffect := effect_perform r op
  generalize (r.perform op).1 = r' at heffect
  cases heffect with
  | search => exact absurd rfl hnext
  | install _ combined order => exact absurd rfl (hinstall combined order)
  | close | abandon => exact ⟨rfl, rfl, nofun⟩
  | begin hphase => exact ⟨rfl, rfl, fun _ => .inl hphase⟩
  | complete hcomplete =>
    exact ⟨rfl, rfl, fun _ => .inr (isComplete_iff.mp hcomplete).1⟩
  | _ => exact ⟨rfl, rfl, fun h => h⟩

theorem turn_installOrder (r : Round) (combined : Option Word) (order : List Address) :
    Turn r (.installOrder combined order) (r.perform (.installOrder combined order)).1
      (r.perform (.installOrder combined order)).2 := by
  rw [perform, installOrder]
  split
  · exact .stay rfl rfl (fun hp => hp) rfl
  rename_i hphase
  split
  · rename_i hcovers
    exact .fix (not_not.mp hphase) hcovers
  · exact .stay rfl rfl (fun hp => hp) rfl

theorem turn_nextToRequest (r : Round) :
    Turn r .nextToRequest (r.perform .nextToRequest).1 (r.perform .nextToRequest).2 := by
  rw [perform]
  by_cases hphase : r.phase = .revealing
  · rw [nextToRequest_of_revealing hphase]
    rcases requestFirst_spec (r.order.drop r.cursor) r with
      ⟨passed, a, rest, hahead, hpassed, ha, h⟩ | ⟨hpassed, h⟩
    · rw [h]
      exact .ask hphase hahead hpassed ha
    · rw [h]
      exact .exhaust hphase hpassed
  · rw [nextToRequest_of_ne hphase]
    exact .stay rfl rfl (fun hp => hp) rfl

theorem turn_perform (r : Round) (op : Operation) :
    Turn r op (r.perform op).1 (r.perform op).2 := by
  have hstay : op ≠ .nextToRequest → (∀ combined order, op ≠ .installOrder combined order) →
      askedBy (r.perform op).2 = none → Turn r op (r.perform op).1 (r.perform op).2 := by
    intro hnext hinstall hasked
    obtain ⟨horder, hcursor, hphase⟩ := rest_perform (r := r) hnext hinstall
    exact .stay horder hcursor hphase hasked
  cases op with
  | nextToRequest => exact turn_nextToRequest r
  | installOrder combined order => exact turn_installOrder r combined order
  | _ => exact hstay nofun nofun (askedBy_answer nofun _)

/-! ## Who is passed and who is asked -/

/-- The operators that the cursor moves past, in order, each with where it stood. -/
def passedBy (r r' : Round) : List (Address × Option Standing) :=
  (r.ahead.take (r'.cursor - r.cursor)).map fun a => (a, r.standingOf a)

/-- The operators that a run passes, each with where it stood when it was. -/
def passings : Round → List Operation → List (Address × Option Standing)
  | _, [] => []
  | r, op :: ops => r.passedBy (r.perform op).1 ++ (r.perform op).1.passings ops

/-- The operators that a run asks for their secrets, one after the other. -/
def asked (r : Round) (ops : List Operation) : List Address :=
  (r.replies ops).filterMap askedBy

theorem passings_append (r : Round) (ops ops' : List Operation) :
    r.passings (ops ++ ops') = r.passings ops ++ (r.run ops).passings ops' := by
  induction ops generalizing r with
  | nil => rfl
  | cons op ops ih =>
    rw [List.cons_append, passings, passings, ih, List.append_assoc]
    rfl

theorem replies_append (r : Round) (ops ops' : List Operation) :
    r.replies (ops ++ ops') = r.replies ops ++ (r.run ops).replies ops' := by
  induction ops generalizing r with
  | nil => rfl
  | cons op ops ih =>
    rw [List.cons_append, replies, replies, ih, List.cons_append]
    rfl

theorem passings_concat (r : Round) (ops : List Operation) (op : Operation) :
    r.passings (ops ++ [op]) =
      r.passings ops ++ (r.run ops).passedBy ((r.run ops).perform op).1 := by
  rw [passings_append, passings, passings, List.append_nil]

theorem asked_concat (r : Round) (ops : List Operation) (op : Operation) :
    r.asked (ops ++ [op]) = r.asked ops ++ (askedBy ((r.run ops).perform op).2).toList := by
  rw [asked, replies_append, List.filterMap_append, replies, replies]
  cases h : askedBy ((r.run ops).perform op).2 <;> simp [asked, h]

theorem passedBy_of_cursor {r' : Round} {n : Nat} (h : r'.cursor = r.cursor + n) :
    r.passedBy r' = (r.ahead.take n).map fun a => (a, r.standingOf a) := by
  rw [passedBy, h, Nat.add_sub_cancel_left]

theorem map_fst_passedBy {r' : Round} {n : Nat} (h : r'.cursor = r.cursor + n) :
    (r.passedBy r').map (·.1) = r.ahead.take n := by
  rw [passedBy_of_cursor h, List.map_map]
  exact List.map_id _

theorem filter_passed {as : List Address} (hpassed : ∀ b ∈ as, r.standingOf b ≠ some .committed) :
    (as.map fun a => (a, r.standingOf a)).filter (·.2 = some .committed) = [] := by
  simpa using hpassed

/-- One operation passes the next part of what is ahead, and asks those of it who had only
committed, of whom there is one at most. -/
theorem Turn.passed_eq {r' : Round} {result : Except RoundError Reply}
    (h : Turn r op r' result) (hunwritten : ¬r.phase.pastOrder → r.order = []) :
    r'.order.take r'.cursor = r.order.take r.cursor ++ (r.passedBy r').map (·.1) ∧
      (askedBy result).toList =
        ((r.passedBy r').filter (·.2 = some .committed)).map (·.1) := by
  cases h with
  | stay horder hcursor _ hasked =>
    have hnobody : r.passedBy r' = [] := passedBy_of_cursor (n := 0) hcursor
    rw [hnobody, horder, hcursor, hasked]
    simp
  | @fix combined order hphase =>
    -- There was no order before, so nobody was ahead.
    have hempty : r.order = [] := hunwritten (by simp [Phase.pastOrder, hphase])
    have hnobody : ∀ r' : Round, r.passedBy r' = [] := by simp [passedBy, ahead, hempty]
    rw [hnobody, hempty]
    simp [askedBy]
  | @ask passed rest a _ hahead hpassed hstands =>
    have hmoved : r.ahead.take (passed.length + 1) = passed ++ [a] := by
      rw [hahead, List.take_length_add_append]
      rfl
    have hcursor : ({ r with cursor := r.cursor + passed.length + 1 }.setStanding a
        .revealRequested).cursor = r.cursor + (passed.length + 1) := rfl
    constructor
    · rw [map_fst_passedBy hcursor, hcursor]
      exact List.take_add
    · rw [passedBy_of_cursor hcursor, hmoved, List.map_append, List.filter_append,
        filter_passed hpassed]
      simp [askedBy, hstands]
  | exhaust _ hpassed =>
    have hcursor : { r with cursor := r.cursor + r.ahead.length }.cursor =
        r.cursor + r.ahead.length := rfl
    constructor
    · rw [map_fst_passedBy hcursor]
      exact List.take_add
    · rw [passedBy_of_cursor hcursor, List.take_length, filter_passed hpassed]
      rfl

/-- What a run has passed is the order up to the cursor, and whom it has asked are those of
them who had only committed. -/
theorem passed_run (id : UInt64) (eligible : List Address) (ops : List Operation) :
    ((start id eligible).passings ops).map (·.1) =
        ((start id eligible).run ops).order.take ((start id eligible).run ops).cursor ∧
      (start id eligible).asked ops =
        (((start id eligible).passings ops).filter (·.2 = some .committed)).map (·.1) := by
  induction ops using List.reverseRecOn with
  | nil => exact ⟨rfl, rfl⟩
  | append_singleton ops op ih =>
    have hr := reachable_run id eligible ops
    obtain ⟨hpassed, hasked⟩ := ih
    obtain ⟨hpassed', hasked'⟩ :=
      (turn_perform ((start id eligible).run ops) op).passed_eq fun hp => (hr.unwritten.order hp).2
    rw [run_append, passings_concat, asked_concat]
    constructor
    · rw [List.map_append, hpassed]
      exact hpassed'.symm
    · rw [List.filter_append, List.map_append, hasked, hasked']

/-! ## The order that was fixed -/

/-- The order is the one that an operation of the run fixed. -/
def Fixes (r : Round) (ops : List Operation) (order : List Address) : Prop :=
  ∃ before combined after, ops = before ++ .installOrder combined order :: after ∧
    ((r.run before).perform (.installOrder combined order)).2 = .ok .done

/-- An order is fixed while first stages are awaited, if it names each operator that
disclosed once and nobody else. -/
theorem installOrder_eq_done {combined : Option Word} :
    (r.perform (.installOrder combined order)).2 = .ok .done ↔
      r.phase = .collectingCos ∧ Covers order (r.disclosed.map (·.1)) := by
  by_cases hphase : r.phase = .collectingCos
  · by_cases hcovers : Covers order (r.disclosed.map (·.1)) <;>
      simp [perform, answer, installOrder, hphase, hcovers, Except.map]
  · simp [perform, answer, installOrder, hphase, Except.map]

theorem installOrder_of_done {combined : Option Word}
    (h : (r.perform (.installOrder combined order)).2 = .ok .done) :
    (r.perform (.installOrder combined order)).1 =
      { r with combined, order, cursor := 0, phase := .orderDetermined } := by
  obtain ⟨hphase, hcovers⟩ := installOrder_eq_done.mp h
  rw [perform, installOrder, if_neg (not_not.mpr hphase), if_pos hcovers]
  rfl

theorem order_of_fixes (h : Fixes (start id eligible) ops order) :
    ((start id eligible).run ops).order = order := by
  obtain ⟨before, combined, after, rfl, hdone⟩ := h
  have hfixed : (start id eligible).run (before ++ [.installOrder combined order]) =
      { (start id eligible).run before with
        combined, order, cursor := 0, phase := .orderDetermined } := by
    rw [run_append]
    exact installOrder_of_done hdone
  have hkept := (history_run (reachable_run id eligible
    (before ++ [.installOrder combined order])) after).order
  rw [List.append_cons, run_append]
  rw [hfixed] at hkept ⊢
  exact (hkept (.inl rfl)).2

theorem Fixes.concat (h : Fixes r ops order) (op : Operation) : Fixes r (ops ++ [op]) order := by
  obtain ⟨before, combined, after, rfl, hdone⟩ := h
  exact ⟨before, combined, after ++ [op], by simp, hdone⟩

theorem Turn.pastOrder {r' : Round} {result : Except RoundError Reply} (h : Turn r op r' result)
    (hp : r'.phase.pastOrder) : r.phase.pastOrder ∨
      ∃ combined order, op = .installOrder combined order ∧ result = .ok .done := by
  cases h with
  | stay _ _ hphase => exact .inl (hphase hp)
  | fix => exact .inr ⟨_, _, rfl, rfl⟩
  | ask => exact .inl hp
  | exhaust => exact .inl hp

theorem fixes_of_pastOrder (h : ((start id eligible).run ops).phase.pastOrder) :
    ∃ order, Fixes (start id eligible) ops order := by
  induction ops using List.reverseRecOn with
  | nil => simp [run, start, Phase.pastOrder] at h
  | append_singleton ops op ih =>
    rw [run_append] at h
    rcases (turn_perform _ op).pastOrder h with hp | ⟨combined, order, rfl, hdone⟩
    · exact (ih hp).imp fun _ hfixes => hfixes.concat op
    · exact ⟨order, ops, combined, [], rfl, hdone⟩

/-! ## Whose secrets are taken in -/

/-- The operator was timed out when the wait for first stages was closed, for the want of its
own. -/
def MissedCos (r : Round) (ops : List Operation) (a : Address) : Prop :=
  ∃ before after p, ops = before ++ .closeCos :: after ∧ (r.run before).find? a = some p ∧
    p.cos = none ∧ p.standing = .committed ∧
    ((r.run before).perform .closeCos).1.standingOf a = some .timedOut

theorem MissedCos.concat (h : MissedCos r ops a) (op : Operation) :
    MissedCos r (ops ++ [op]) a := by
  obtain ⟨before, after, p, rfl, hp⟩ := h
  exact ⟨before, after ++ [op], p, by simp, hp⟩

/-- Whoever is awaited was asked, or missed the first stage. -/
theorem asked_of_awaited {s : Standing}
    (hstands : ((start id eligible).run ops).standingOf a = some s)
    (hawaits : s.awaitsSecret = true) :
    a ∈ (start id eligible).asked ops ∨ MissedCos (start id eligible) ops a := by
  induction ops using List.reverseRecOn generalizing s with
  | nil => cases hstands
  | append_singleton ops op ih =>
    have hshift := shift_perform ((start id eligible).run ops) op a
    have hafter : (((start id eligible).run ops).perform op).1.standingOf a = some s := by
      rw [run_append] at hstands
      exact hstands
    rw [hafter] at hshift
    rw [asked_concat, List.mem_append]
    rcases hshift.of_awaited hawaits with
      ⟨t, ht, htawaits⟩ | ⟨rfl, hnext⟩ | ⟨rfl, p, hf, hcos, hcommitted, rfl⟩
    · exact (ih ht htawaits).imp .inl fun hmissed => hmissed.concat op
    · refine .inl (.inr ?_)
      rw [perform, hnext]
      exact List.mem_singleton.mpr rfl
    · rw [standingOf_of_find? hf] at hcommitted
      exact .inr ⟨ops, [], p, rfl, hf, hcos, Option.some.inj hcommitted, hafter⟩

theorem awaited_of_acceptReveal {secret : Word} {reply : Reply}
    (h : (r.perform (.acceptReveal a secret)).2 = .ok reply) :
    ∃ s, r.standingOf a = some s ∧ s.awaitsSecret = true := by
  obtain ⟨s, hs, -⟩ := answer_eq_ok h
  unfold acceptReveal at hs
  split at hs
  · cases hs
  split at hs
  · cases hs
  rename_i p hf
  split at hs
  · cases hs
  rename_i hcommitted
  split at hs
  · cases hs
  rename_i hresolved
  exact ⟨p.standing, standingOf_of_find? hf,
    Standing.awaitsSecret_iff.mpr ⟨hcommitted, by simpa using hresolved⟩⟩

/-! ## Every run -/

/-- How the reveals of a run follow the order that was installed. -/
structure FollowsOrder (r₀ : Round) (ops : List Operation) : Prop where
  /-- An order is installed while first stages are awaited, and just if it contains each
  operator whose first stage is on record once and nobody else. -/
  installs_iff : ∀ combined order,
    ((r₀.run ops).perform (.installOrder combined order)).2 = .ok .done ↔
      (r₀.run ops).phase = .collectingCos ∧ order.Nodup ∧
        ∀ a, a ∈ order ↔ ∃ p, (r₀.run ops).find? a = some p ∧ p.cos.isSome = true
  /-- The order of the round is the installed one. -/
  order_eq : ∀ order, Fixes r₀ ops order → (r₀.run ops).order = order
  /-- Without an installed order nobody is asked. -/
  asked_nil : (∀ order, ¬Fixes r₀ ops order) → r₀.asked ops = []
  /-- The operators are asked in the order of the round, nobody twice. -/
  asked_sublist : (r₀.asked ops).Sublist (r₀.run ops).order
  asked_nodup : (r₀.asked ops).Nodup
  /-- The cursor has passed the operators in front of it, one after the other. -/
  passed_eq : (r₀.passings ops).map (·.1) = (r₀.run ops).order.take (r₀.run ops).cursor
  /-- Those that had only committed when the cursor passed them were asked then. -/
  asked_eq : r₀.asked ops = ((r₀.passings ops).filter (·.2 = some .committed)).map (·.1)
  /-- Those that were passed over stood elsewhere. -/
  passed_over : ∀ a s, (a, s) ∈ r₀.passings ops → a ∉ r₀.asked ops → s ≠ some .committed
  /-- A secret is taken in from those only that were asked before, or were timed out for the
  want of their first stage. -/
  reveals : ∀ a secret reply, ((r₀.run ops).perform (.acceptReveal a secret)).2 = .ok reply →
    a ∈ r₀.asked ops ∨ MissedCos r₀ ops a

/-- In every run the reveals follow the installed order. -/
theorem reveals_follow_order (id : UInt64) (eligible : List Address) (ops : List Operation) :
    FollowsOrder (start id eligible) ops := by
  have hr := reachable_run id eligible ops
  obtain ⟨hpassed, hasked⟩ := passed_run id eligible ops
  have hsublist : ((start id eligible).asked ops).Sublist ((start id eligible).run ops).order := by
    have hfilter := (List.filter_sublist (p := (·.2 = some .committed))
      (l := (start id eligible).passings ops)).map (·.1)
    rw [← hasked, hpassed] at hfilter
    exact hfilter.trans (List.take_sublist _ _)
  -- Before its phase there is no order, and from then on it names nobody twice.
  have hunordered : ¬((start id eligible).run ops).phase.pastOrder →
      (start id eligible).asked ops = [] := by
    intro hp
    rw [(hr.unwritten.order hp).2] at hsublist
    exact List.sublist_nil.mp hsublist
  refine
    { installs_iff := fun combined order => ?_
      order_eq := fun order hfixes => order_of_fixes hfixes
      asked_nil := fun hnone => hunordered fun hp => ?_
      asked_sublist := hsublist
      asked_nodup := ?_
      passed_eq := hpassed
      asked_eq := hasked
      passed_over := fun a s hmem hnot hcommitted => ?_
      reveals := fun a secret reply hok => ?_ }
  · rw [installOrder_eq_done]
    refine and_congr_right fun _ => and_congr_right fun _ => ?_
    simp only [← mem_disclosed hr.nodup, iff_def, forall_and]
  · obtain ⟨order, hfixes⟩ := fixes_of_pastOrder hp
    exact hnone order hfixes
  · by_cases hp : ((start id eligible).run ops).phase.pastOrder
    · exact (hr.coherent.order hp).1.sublist hsublist
    · rw [hunordered hp]
      exact List.nodup_nil
  · apply hnot
    rw [hasked]
    exact List.mem_map_of_mem (List.mem_filter.mpr ⟨hmem, decide_eq_true hcommitted⟩)
  · obtain ⟨s, hstands, hawaits⟩ := awaited_of_acceptReveal hok
    exact asked_of_awaited hstands hawaits

-- Both disclose, and the one to be asked first is found at fault before its turn: it is
-- passed over, and only the other one is asked.
example {a b : Address} {cvs cos : Word} (hab : a ≠ b) (hcos : cosOpens cvs cos = true) :
    let ops : List Operation :=
      [.acceptCommit a cvs Word.zero, .acceptCommit b cvs Word.zero, .closeCommits,
       .acceptCos a cos, .acceptCos b cos, .closeCos, .installOrder none [b, a],
       .beginRevealing, .markFaulted b, .nextToRequest]
    (start 1 [a, b]).passings ops = [(b, some .faulted), (a, some .committed)] ∧
      (start 1 [a, b]).asked ops = [a] := by
  simp [passings, passedBy, ahead, asked, replies, askedBy, perform, answer, start,
    acceptCommit, isEligible, find?, closeCommits, Beacon.merkleRoot, MerkleTree.ofWords,
    Except.map, acceptCos, modify, closeCos, Missing.mark, installOrder, disclosed, Covers,
    beginRevealing, markFaulted, nextToRequest, requestFirst, standingOf, setStanding,
    Standing.isResolved, List.filterMap_cons, hab, hab.symm, hcos]

end Round

end Beacon
