import Beacon.Proofs.RevealOrder
import Beacon.Proofs.Round.Closing
import Beacon.Proofs.Round.Commits
import Beacon.Proofs.Round.Outcome

/-
  A round in which everybody takes part. If all eligible operators commit, disclose and
  reveal when they are asked, every operation is done and the round completes, whatever
  the order in which commits and first stages arrive (`honest_round_completes`).

  At every point of such a round the records are known in full (`table`): they follow
  from who has disclosed and who has revealed. Each operation takes one table to the
  next, and each part of the course is an induction on those still to come.
-/

namespace Beacon

/-- One who takes part in a round, with its secret and its seal. -/
structure Member where
  operator : Address
  secret : Word
  sealed : Word

namespace Member

def cos (m : Member) : Word := firstStage m.secret

def cvs (m : Member) : Word := secondStage m.cos

/-- The record of a member at its place, given who disclosed and who revealed. -/
def record (disclosed revealed : List Address) (m : Member × Nat) : Participant :=
  { operator := m.1.operator
    commitIndex := m.2
    cvs := m.1.cvs
    sealed := m.1.sealed
    cos := if m.1.operator ∈ disclosed then some m.1.cos else none
    secret := if m.1.operator ∈ revealed then some m.1.secret else none
    standing := if m.1.operator ∈ revealed then .revealed else .committed
    recovery := none }

/-- The records of all members, in commit order. -/
def table (members : List Member) (disclosed revealed : List Address) : List Participant :=
  members.zipIdx.map (record disclosed revealed)

variable {members : List Member} {disclosed revealed disclosed' revealed' : List Address}

theorem map_table {f : Participant → Participant}
    (h : ∀ m ∈ members, ∀ i, f (record disclosed revealed (m, i)) =
      record disclosed' revealed' (m, i)) :
    (table members disclosed revealed).map f = table members disclosed' revealed' := by
  rw [table, table, List.map_map]
  refine List.map_congr_left fun m hm => ?_
  exact h m.1 (List.fst_mem_of_mem_zipIdx hm) m.2

/-- What the record of each member gives by the member alone. -/
theorem map_table_members {α : Type} {f : Participant → α} {g : Member → α}
    (h : ∀ m ∈ members, ∀ i, f (record disclosed revealed (m, i)) = g m) :
    (table members disclosed revealed).map f = members.map g := by
  calc (table members disclosed revealed).map f
      = members.zipIdx.map fun m => g m.1 := by
        rw [table, List.map_map]
        exact List.map_congr_left fun m hm => h m.1 (List.fst_mem_of_mem_zipIdx hm) m.2
    _ = (members.zipIdx.map Prod.fst).map g := by rw [List.map_map]; rfl
    _ = members.map g := by rw [List.zipIdx_map_fst]

theorem map_operator_table : (table members disclosed revealed).map (·.operator) =
    members.map (·.operator) :=
  map_table_members fun _ _ _ => rfl

theorem mem_table {p : Participant} :
    p ∈ table members disclosed revealed ↔
      ∃ m i, (m, i) ∈ members.zipIdx ∧ record disclosed revealed (m, i) = p := by
  simp [table]

end Member

namespace Round

open Member

/-! ## Courses without a refusal -/

def replies (r : Round) : List Operation → List (Except RoundError Reply)
  | [] => []
  | op :: ops => (r.perform op).2 :: (r.perform op).1.replies ops

/-- Every operation is done, with the answers given, and `r'` is the round afterwards. -/
structure Does (r : Round) (ops : List Operation) (answers : List Reply) (r' : Round) : Prop where
  replies_eq : r.replies ops = answers.map .ok
  run_eq : r.run ops = r'

namespace Does

variable {r r₁ r₂ : Round} {ops ops' : List Operation} {answers answers' : List Reply}

theorem nil (r : Round) : Does r [] [] r := ⟨rfl, rfl⟩

theorem cons {op : Operation} {answer : Reply} (h : r.perform op = (r₁, .ok answer))
    (h' : Does r₁ ops answers r₂) : Does r (op :: ops) (answer :: answers) r₂ := by
  constructor
  · rw [replies, h, List.map_cons, h'.replies_eq]
  · rw [← h'.run_eq]
    exact congrArg (fun r : Round => r.run ops) (congrArg Prod.fst h)

theorem append (h : Does r ops answers r₁) (h' : Does r₁ ops' answers' r₂) :
    Does r (ops ++ ops') (answers ++ answers') r₂ := by
  induction ops generalizing r answers with
  | nil =>
    have hanswers := h.replies_eq
    have hrun := h.run_eq
    cases answers with
    | nil => exact (show r = r₁ from hrun) ▸ h'
    | cons => simp [replies] at hanswers
  | cons op ops ih =>
    cases answers with
    | nil => cases h.replies_eq
    | cons answer answers =>
      have hreplies := h.replies_eq
      rw [replies, List.map_cons, List.cons.injEq] at hreplies
      exact cons (Prod.ext rfl hreplies.1) (ih ⟨hreplies.2, h.run_eq⟩)

end Does

/-! ## Finding members -/

variable {r : Round} {members : List Member} {disclosed revealed : List Address}

theorem committed_table (hr : r.records = table members disclosed revealed) :
    r.committed = members.map (·.operator) := by
  rw [committed, hr, map_operator_table]

theorem find?_table (hd : (members.map (·.operator)).Nodup)
    (hr : r.records = table members disclosed revealed) {m : Member} (hm : m ∈ members) :
    ∃ i, r.find? m.operator = some (record disclosed revealed (m, i)) := by
  obtain ⟨i, hi⟩ := List.getElem?_of_mem hm
  have hmem : (m, i) ∈ members.zipIdx := List.mem_zipIdx_iff_getElem?.mpr hi
  refine ⟨i, (find?_eq_some (committed_table hr ▸ hd)).mpr ⟨?_, rfl⟩⟩
  rw [hr]
  exact mem_table.mpr ⟨m, i, hmem, rfl⟩

/-- The members are told apart by their operators. -/
theorem member_unique (hd : (members.map (·.operator)).Nodup) {m m' : Member} (hm : m ∈ members)
    (hm' : m' ∈ members) (h : m.operator = m'.operator) : m = m' :=
  List.inj_on_of_nodup_map hd hm hm' h

/-! ## Commits -/

def commitAll (members : List Member) : List Operation :=
  members.map fun m => .acceptCommit m.operator m.cvs m.sealed

theorem does_commits (past : List Member) {coming : List Member}
    (hd : ((past ++ coming).map (·.operator)).Nodup)
    (heligible : ∀ m ∈ coming, m.operator ∈ r.eligible) (hphase : r.phase = .collectingCommits)
    (hr : r.records = table past [] []) :
    Does r (commitAll coming) ((coming.zipIdx past.length).map fun m => .place m.2)
      { r with records := table (past ++ coming) [] [] } := by
  induction coming generalizing r past with
  | nil =>
    have hsame : { r with records := table (past ++ []) [] [] } = r := by
      rw [List.append_nil, ← hr]
    exact hsame ▸ .nil r
  | cons m coming ih =>
    have hfresh : r.find? m.operator = none := by
      rw [find?_eq_none, committed_table hr]
      rw [List.map_append, List.map_cons, List.nodup_append] at hd
      intro h
      exact hd.2.2 _ h _ (List.mem_cons_self) rfl
    have hlength : r.records.length = past.length := by
      rw [hr, table, List.length_map, List.length_zipIdx]
    have hstep : r.perform (.acceptCommit m.operator m.cvs m.sealed) =
        ({ r with records := table (past ++ [m]) [] [] }, .ok (.place past.length)) := by
      have hm := heligible m List.mem_cons_self
      simp [perform, answer, acceptCommit, hphase, isEligible, hm, hfresh, hlength, Except.map]
      simp [hr, table, List.zipIdx_append, record]
    have happend : past ++ m :: coming = past ++ [m] ++ coming := by simp
    have hrest := ih (r := { r with records := table (past ++ [m]) [] [] }) (past ++ [m])
      (happend ▸ hd) (fun m' hm' => heligible m' (List.mem_cons_of_mem m hm')) hphase rfl
    rw [← happend, List.length_append, List.length_singleton] at hrest
    exact .cons hstep hrest

theorem does_closeCommits (hphase : r.phase = .collectingCommits)
    (hr : r.records = table members [] [])
    (hne : members ≠ []) :
    ∃ root, Beacon.merkleRoot (members.map (·.cvs)) = .ok root ∧
      Does r [.closeCommits] [.root root]
        { r with merkleRoot := some root, phase := .collectingCos } := by
  have hcvs : r.records.map (·.cvs) = members.map (·.cvs) := by
    rw [hr]
    exact map_table_members fun _ _ _ => rfl
  cases hroot : Beacon.merkleRoot (members.map (·.cvs)) with
  | error e => exact absurd (merkleRoot_eq_error hroot) (by simpa using hne)
  | ok root =>
    refine ⟨root, rfl, .cons ?_ (.nil _)⟩
    simp [perform, answer, closeCommits, hphase, hcvs, hroot, Except.map]

/-! ## First stages -/

def discloseAll (members : List Member) : List Operation :=
  members.map fun m => .acceptCos m.operator m.cos

theorem does_disclosures (disclosed : List Address) (hd : (members.map (·.operator)).Nodup)
    {coming : List Member}
    (hcoming : coming ⊆ members) (hdc : (coming.map (·.operator)).Nodup)
    (hfresh : ∀ m ∈ coming, m.operator ∉ disclosed) (hphase : r.phase = .collectingCos)
    (hr : r.records = table members disclosed []) :
    Does r (discloseAll coming) (coming.map fun _ => .accepted true)
      { r with records := table members (disclosed ++ coming.map (·.operator)) [] } := by
  induction coming generalizing r disclosed with
  | nil =>
    have hsame : { r with records := table members (disclosed ++ []) [] } = r := by
      rw [List.append_nil, ← hr]
    exact hsame ▸ .nil r
  | cons m coming ih =>
    obtain ⟨hm, hcoming⟩ := List.cons_subset.mp hcoming
    obtain ⟨hmc, hdc⟩ := List.nodup_cons.mp hdc
    have hnew := hfresh m List.mem_cons_self
    obtain ⟨i, hf⟩ := find?_table hd hr hm
    have hrecords : r.records.map
        (fun p => if p.operator = m.operator then { p with cos := some m.cos } else p) =
        table members (disclosed ++ [m.operator]) [] := by
      rw [hr]
      refine map_table fun m' hm' i => ?_
      by_cases h : m'.operator = m.operator
      · obtain rfl := member_unique hd hm' hm h
        simp [record]
      · simp [record, h]
    have hopens : cosOpens m.cvs m.cos = true := by simp [cosOpens, cvs]
    have hstep : r.perform (.acceptCos m.operator m.cos) =
        ({ r with records := table members (disclosed ++ [m.operator]) [] },
          .ok (.accepted true)) := by
      simp [perform, answer, acceptCos, hphase, hf, record, hnew, hopens, modify, hrecords,
        Except.map]
    have hrest := ih (r := { r with records := table members (disclosed ++ [m.operator]) [] })
      (disclosed ++ [m.operator]) hcoming hdc ?_ hphase rfl
    · rw [List.append_assoc] at hrest
      exact .cons hstep hrest
    · intro m' hm'
      simp only [List.mem_append, List.mem_singleton, not_or]
      exact ⟨hfresh m' (List.mem_cons_of_mem m hm'), fun h => hmc (List.mem_map.mpr ⟨m', hm', h⟩)⟩

theorem mem_arrivals {arrivals : List Member} (h : arrivals.Perm members) :
    ∀ m ∈ members, m.operator ∈ arrivals.map (·.operator) :=
  fun _ hm => List.mem_map_of_mem (h.mem_iff.mpr hm)

theorem disclosed_table (hr : r.records = table members disclosed revealed)
    (hall : ∀ m ∈ members, m.operator ∈ disclosed) :
    r.disclosed = members.map fun m => (m.operator, m.cos) := by
  have hsome : ∀ p ∈ r.records, (p.cos.map fun cos => (p.operator, cos)) =
      some (p.operator, p.cos.getD Word.zero) := by
    intro p hp
    rw [hr] at hp
    obtain ⟨m, i, hm, rfl⟩ := mem_table.mp hp
    simp [record, hall m (List.fst_mem_of_mem_zipIdx hm)]
  calc r.disclosed
      = r.records.map fun p => (p.operator, p.cos.getD Word.zero) :=
        List.filterMap_eq_map_iff_forall_eq_some.mpr hsome
    _ = members.map fun m => (m.operator, m.cos) := by
        rw [hr]
        refine map_table_members fun m hm i => ?_
        simp [record, hall m hm]

theorem does_closeCos (hphase : r.phase = .collectingCos)
    (hr : r.records = table members disclosed []) (hall : ∀ m ∈ members, m.operator ∈ disclosed) :
    Does r [.closeCos] [.missing []] r := by
  have hcos : ∀ p ∈ r.records, p.cos.isNone = false := by
    intro p hp
    rw [hr] at hp
    obtain ⟨m, i, hm, rfl⟩ := mem_table.mp hp
    simp [record, hall m (List.fst_mem_of_mem_zipIdx hm)]
  have hmark : r.records.map Missing.mark = r.records := by
    refine (List.map_congr_left fun p hp => ?_).trans (List.map_id _)
    simp [Missing.mark, hcos p hp]
  have hclosed : r.closed = r := by rw [closed, hmark]
  have hmissing : r.missing = [] := by
    rw [missing, List.filter_eq_nil_iff.mpr fun p hp => by simp [hcos p hp], List.map_nil]
  refine .cons ?_ (.nil r)
  rw [perform, closeCos_eq hphase, hclosed, hmissing]
  rfl

/-! ## The order -/

/-- The distance of a member's first stage from a value. -/
def gap (value : Word) (m : Member) : Nat := RevealOrder.distance m.cos.toNat value.toNat

theorem filterMap_range_getElem? {α : Type} (as : List α) :
    (List.range as.length).filterMap (as[·]?) = as := by
  induction as with
  | nil => rfl
  | cons a as ih => simp [List.range_succ_eq_map, List.filterMap_map, ih]

/-- The order determined is one of the members, by ascending distance. -/
theorem determineOrder_members (hr : r.disclosed = members.map fun m => (m.operator, m.cos))
    (hne : members ≠ []) :
    ∃ (order : RevealOrder) (turns : List Member),
      r.determineOrder = .ok (order, turns.map (·.operator)) ∧
      order.combined = RevealOrder.combine (members.map (·.cos)) ∧ turns.Perm members ∧
      turns.Pairwise fun m m' => gap order.combined m ≤ gap order.combined m' := by
  have hcos : r.disclosed.map (·.2) = members.map (·.cos) := by rw [hr, List.map_map]; rfl
  have hsome : members.map (·.cos) ≠ [] := by simpa using hne
  obtain ⟨places, hdetermine, hperm, hsorted⟩ := RevealOrder.determine_sorted hsome
  rw [List.length_map] at hperm
  refine ⟨{ combined := RevealOrder.combine (members.map (·.cos)), order := places },
    places.filterMap (members[·]?), ?_, rfl, ?_, ?_⟩
  · rw [determineOrder, hcos, hdetermine]
    simp [Except.map, hr, List.map_filterMap, Function.comp_def]
  · have hall := hperm.filterMap (members[·]?)
    rwa [filterMap_range_getElem?] at hall
  · rw [List.pairwise_filterMap]
    refine hsorted.imp ?_
    intro i j ⟨c, d, hc, hd, h⟩ m hm m' hm'
    rw [List.getElem?_map, hm, Option.map_some, Option.some_inj] at hc
    rw [List.getElem?_map, hm', Option.map_some, Option.some_inj] at hd
    subst hc hd
    show gap _ m ≤ gap _ m'
    rcases h with h | ⟨h, -⟩
    · exact h.le
    · exact h.le

/-! ## Reveals -/

def revealAll (turns : List Member) : List Operation :=
  turns.flatMap fun m => [.nextToRequest, .acceptReveal m.operator m.secret]

theorem does_reveals (past : List Member) (hd : (members.map (·.operator)).Nodup)
    {coming : List Member}
    (hcoming : coming ⊆ members) (hdc : ((past ++ coming).map (·.operator)).Nodup)
    (hphase : r.phase = .revealing) (horder : r.order = (past ++ coming).map (·.operator))
    (hcursor : r.cursor = past.length)
    (hr : r.records = table members disclosed (past.map (·.operator))) :
    Does r (revealAll coming)
      (coming.flatMap fun m => [.next (some m.operator), .stands .revealRequested])
      { r with
        records := table members disclosed ((past ++ coming).map (·.operator))
        cursor := (past ++ coming).length } := by
  induction coming generalizing r past with
  | nil =>
    have hsame : { r with
        records := table members disclosed (List.map (·.operator) (past ++ []))
        cursor := (past ++ []).length } = r := by
      rw [List.append_nil, ← hr, ← hcursor]
    exact hsame ▸ .nil r
  | cons m coming ih =>
    obtain ⟨hm, hcoming⟩ := List.cons_subset.mp hcoming
    have hnew : m.operator ∉ past.map (·.operator) := by
      rw [List.map_append, List.map_cons, List.nodup_append] at hdc
      exact fun h => hdc.2.2 _ h _ List.mem_cons_self rfl
    obtain ⟨i, hf⟩ := find?_table hd hr hm
    have hahead : r.order.drop r.cursor = m.operator :: coming.map (·.operator) := by
      rw [horder, hcursor, List.map_append, List.drop_append_of_le_length (by simp)]
      simp
    have hasked : r.perform .nextToRequest =
        ({ r with cursor := r.cursor + 1 }.setStanding m.operator .revealRequested,
          .ok (.next (some m.operator))) := by
      have hstands : { r with cursor := r.cursor + 1 }.standingOf m.operator = some .committed := by
        change r.standingOf m.operator = some .committed
        rw [standingOf, hf]
        simp [record, hnew]
      rw [perform, nextToRequest, if_neg (not_not.mpr hphase), hahead, requestFirst, if_pos hstands]
    have hrevealed :
        ({ r with cursor := r.cursor + 1 }.setStanding m.operator .revealRequested).perform
          (.acceptReveal m.operator m.secret) =
          ({ r with
              records := table members disclosed ((past ++ [m]).map (·.operator))
              cursor := (past ++ [m]).length }, .ok (.stands .revealRequested)) := by
      have hf' : ({ r with cursor := r.cursor + 1 }.setStanding m.operator .revealRequested).find?
          m.operator = some { record disclosed (past.map (·.operator)) (m, i) with
            standing := .revealRequested } := by
        rw [setStanding, find?_modify (by exact fun _ => rfl)]
        change (r.find? m.operator).map _ = _
        rw [hf, Option.map_some, if_pos rfl]
      have hopens : secretOpens m.cvs m.secret = true := secretOpens_iff.mpr rfl
      have hrecords : ((r.records.map fun p => if p.operator = m.operator then
          { p with standing := .revealRequested } else p).map fun p =>
            if p.operator = m.operator then
              { p with secret := some m.secret, standing := .revealed } else p) =
          table members disclosed ((past ++ [m]).map (·.operator)) := by
        rw [hr, List.map_map]
        refine map_table fun m' hm' i => ?_
        by_cases h : m'.operator = m.operator
        · obtain rfl := member_unique hd hm' hm h
          simp [record]
        · simp [record, h]
      have hreveal : ({ r with cursor := r.cursor + 1 }.setStanding m.operator
          .revealRequested).acceptReveal m.operator m.secret =
            (({ r with cursor := r.cursor + 1 }.setStanding m.operator .revealRequested).modify
              m.operator fun p => { p with secret := some m.secret, standing := .revealed },
              .ok .revealRequested) := by
        rw [acceptReveal, if_neg (by exact not_not.mpr hphase), hf']
        simp [record, Standing.isResolved, hopens]
      rw [perform, hreveal, answer, setStanding, modify, modify]
      simp only [hrecords, hcursor, List.length_append, List.length_singleton]
      rfl
    have happend : past ++ m :: coming = past ++ [m] ++ coming := by simp
    have hrest := ih (r := { r with
      records := table members disclosed ((past ++ [m]).map (·.operator))
      cursor := (past ++ [m]).length })
      (past ++ [m]) hcoming (happend ▸ hdc) hphase (happend ▸ horder) rfl rfl
    rw [← happend] at hrest
    exact .cons hasked (.cons hrevealed hrest)

theorem does_lastRequest (hphase : r.phase = .revealing) (hcursor : r.cursor = r.order.length) :
    Does r [.nextToRequest] [.next none] r := by
  refine .cons ?_ (.nil r)
  rw [perform, nextToRequest, if_neg (not_not.mpr hphase), hcursor, List.drop_length]
  rfl

theorem does_finish (hphase : r.phase = .revealing)
    (hr : r.records = table members disclosed revealed)
    (hall : ∀ m ∈ members, m.operator ∈ revealed) :
    ∃ o, Does r [.finish] [.outcome o] { r with phase := .completed } ∧
      o.secrets = members.map (fun m => (m.operator, m.secret)) ∧ o.recoveries = [] ∧
      o.faulted = [] := by
  have hrow : ∀ p ∈ r.records, p.standing = .revealed ∧ p.recovery = none := by
    intro p hp
    rw [hr] at hp
    obtain ⟨m, i, hm, rfl⟩ := mem_table.mp hp
    simp [record, hall m (List.fst_mem_of_mem_zipIdx hm)]
  have hcomplete : r.isComplete = true :=
    isComplete_iff.mpr ⟨.inl hphase, fun p hp => by simp [(hrow p hp).1, Standing.isResolved]⟩
  refine ⟨{ r with phase := .completed }.outcome, .cons ?_ (.nil _), ?_, ?_, ?_⟩
  · simp [perform, answer, finish, hcomplete, Except.map]
  · have hsome : ∀ p ∈ r.records, (p.secret.map fun secret => (p.operator, secret)) =
        some (p.operator, p.secret.getD Word.zero) := by
      intro p hp
      rw [hr] at hp
      obtain ⟨m, i, hm, rfl⟩ := mem_table.mp hp
      simp [record, hall m (List.fst_mem_of_mem_zipIdx hm)]
    have hnone : r.records.filter (·.standing ≠ .faulted) = r.records :=
      List.filter_eq_self.mpr fun p hp => by simp [(hrow p hp).1]
    calc r.secrets
        = r.records.map fun p => (p.operator, p.secret.getD Word.zero) := by
          rw [secrets, hnone]
          exact List.filterMap_eq_map_iff_forall_eq_some.mpr hsome
      _ = members.map fun m => (m.operator, m.secret) := by
          rw [hr]
          refine map_table_members fun m hm i => ?_
          simp [record, hall m hm]
  · exact List.filterMap_eq_nil_iff.mpr fun p hp => (hrow p hp).2
  · have hnone : r.records.filter (·.standing = .faulted) = [] :=
      List.filter_eq_nil_iff.mpr fun p hp => by simp [(hrow p hp).1]
    exact congrArg (List.map (·.operator)) hnone

/-! ## The whole course -/

/-- Everybody commits, discloses in the order of arrival, and reveals in turn. -/
def honestCourse (members arrivals turns : List Member) (value : Option Word) : List Operation :=
  commitAll members ++ .closeCommits :: (discloseAll arrivals ++ .closeCos ::
    .installOrder value (turns.map (·.operator)) :: .beginRevealing ::
      (revealAll turns ++ [.nextToRequest, .finish]))

/-- What the operations of the course answer: everything is taken in, nobody is missing,
and each member is asked right before it reveals. -/
def honestAnswers (members arrivals turns : List Member) (root : Word) (o : RoundOutcome) :
    List Reply :=
  members.zipIdx.map (fun m => .place m.2) ++ .root root ::
    (arrivals.map (fun _ => .accepted true) ++ .missing [] :: .done :: .done ::
      (turns.flatMap (fun m => [.next (some m.operator), .stands .revealRequested]) ++
        [.next none, .outcome o]))

theorem length_eligible {eligible : List Address} (hd : (members.map (·.operator)).Nodup)
    (h : ∀ a, a ∈ eligible ↔ a ∈ members.map (·.operator)) :
    eligible.eraseDups.length = members.length := by
  have hperm : eligible.eraseDups.Perm (members.map (·.operator)) :=
    (List.perm_ext_iff_of_nodup (nodup_eraseDups eligible) hd).mpr fun a => by
      rw [List.mem_eraseDups, h]
  rw [hperm.length_eq, List.length_map]

theorem allCosReceived_table (hr : r.records = table members disclosed revealed) :
    r.allCosReceived = true ↔ ∀ m ∈ members, m.operator ∈ disclosed := by
  rw [allCosReceived, List.all_eq_true, hr]
  constructor
  · intro h m hm
    obtain ⟨i, hi⟩ := List.getElem?_of_mem hm
    have := h _ (mem_table.mpr ⟨m, i, List.mem_zipIdx_iff_getElem?.mpr hi, rfl⟩)
    by_contra hnot
    simp [record, hnot] at this
  · intro h p hp
    obtain ⟨m, i, hm, rfl⟩ := mem_table.mp hp
    simp [record, h m (List.fst_mem_of_mem_zipIdx hm)]

variable {eligible : List Address} {arrivals : List Member}

theorem does_firstCommits (id : UInt64) (hd : (members.map (·.operator)).Nodup)
    (heligible : ∀ a, a ∈ eligible ↔ a ∈ members.map (·.operator)) (k : Nat) :
    Does (start id eligible) (commitAll (members.take k))
      ((members.take k).zipIdx.map fun m => .place m.2)
      { start id eligible with records := table (members.take k) [] [] } := by
  have hmem : ∀ m ∈ members.take k, m.operator ∈ (start id eligible).eligible := by
    intro m hm
    exact List.mem_eraseDups.mpr
      ((heligible _).mpr (List.mem_map_of_mem (List.mem_of_mem_take hm)))
  have hdk : ((members.take k).map (·.operator)).Nodup :=
    hd.sublist ((List.take_sublist k members).map _)
  exact does_commits [] hdk hmem rfl rfl

/-- The round in which all members committed and some of them disclosed. -/
theorem does_firstDisclosures (id : UInt64) (hne : members ≠ [])
    (hd : (members.map (·.operator)).Nodup)
    (heligible : ∀ a, a ∈ eligible ↔ a ∈ members.map (·.operator))
    (harrivals : arrivals.Perm members) :
    ∃ root, ∀ k, Does (start id eligible)
      (commitAll members ++ .closeCommits :: discloseAll (arrivals.take k))
      (members.zipIdx.map (fun m => .place m.2) ++ .root root ::
        (arrivals.take k).map fun _ => .accepted true)
      { start id eligible with
        phase := .collectingCos
        records := table members ((arrivals.take k).map (·.operator)) []
        merkleRoot := some root } := by
  have hcommits := does_firstCommits id hd heligible members.length
  rw [List.take_length] at hcommits
  obtain ⟨root, -, hclose⟩ := does_closeCommits
    (r := { start id eligible with records := table members [] [] }) rfl rfl hne
  refine ⟨root, fun k => hcommits.append (hclose.append ?_)⟩
  have hda : (arrivals.map (·.operator)).Nodup := (harrivals.map _).nodup_iff.mpr hd
  have hsub : arrivals.take k ⊆ members :=
    fun m hm => harrivals.mem_iff.mp (List.mem_of_mem_take hm)
  have hdk : ((arrivals.take k).map (·.operator)).Nodup :=
    hda.sublist ((List.take_sublist k arrivals).map _)
  exact does_disclosures [] hd hsub hdk (by simp) rfl rfl

/-- The part of the course behind the first stages. -/
theorem does_closing (value : Option Word) (hne : members ≠ [])
    (hd : (members.map (·.operator)).Nodup) (hphase : r.phase = .collectingCos)
    (hr : r.records = table members disclosed []) (hall : ∀ m ∈ members, m.operator ∈ disclosed) :
    ∃ (order : RevealOrder) (turns : List Member) (o : RoundOutcome) (last : Round),
      order.combined = keccak256 (members.flatMap (·.cos.bytes)) ∧ turns.Perm members ∧
      turns.Pairwise (fun m m' => gap order.combined m ≤ gap order.combined m') ∧
      r.determineOrder = .ok (order, turns.map (·.operator)) ∧
      Does r (.closeCos :: .installOrder value (turns.map (·.operator)) :: .beginRevealing ::
          (revealAll turns ++ [.nextToRequest, .finish]))
        (.missing [] :: .done :: .done ::
          (turns.flatMap (fun m => [.next (some m.operator), .stands .revealRequested]) ++
            [.next none, .outcome o])) last ∧
      last.phase = .completed ∧ o.secrets = members.map (fun m => (m.operator, m.secret)) ∧
      o.recoveries = [] ∧ o.faulted = [] := by
  have hdisclosed := disclosed_table hr hall
  obtain ⟨order, turns, hdetermine, hcombined, hperm, hsorted⟩ :=
    determineOrder_members hdisclosed hne
  have hdt : (turns.map (·.operator)).Nodup := (hperm.map _).nodup_iff.mpr hd
  have hcovers : Covers (turns.map (·.operator)) (r.disclosed.map (·.1)) := by
    have hsame : ∀ a, a ∈ turns.map (·.operator) ↔ a ∈ r.disclosed.map (·.1) := by
      intro a
      rw [hdisclosed, List.map_map]
      exact (hperm.map (·.operator)).mem_iff
    exact ⟨hdt, fun a => (hsame a).mp, fun a => (hsame a).mpr⟩
  -- The round once the reveals begin.
  let revealing : Round := { r with
    phase := .revealing, combined := value, order := turns.map (·.operator), cursor := 0 }
  have hinstall : Does r [.installOrder value (turns.map (·.operator)), .beginRevealing]
      [.done, .done] revealing := by
    have hplaced : r.perform (.installOrder value (turns.map (·.operator))) =
        ({ revealing with phase := .orderDetermined }, .ok .done) := by
      rw [perform, installOrder, if_neg (not_not.mpr hphase), if_pos hcovers]
      rfl
    exact .cons hplaced (.cons rfl (.nil _))
  have hreveals := does_reveals (r := revealing) [] hd hperm.subset hdt rfl rfl rfl hr
  obtain ⟨o, hfinish, hsecrets, hrecoveries, hfaulted⟩ := does_finish
    (r := { revealing with
      records := table members disclosed (turns.map (·.operator)), cursor := turns.length })
    rfl rfl fun m hm => List.mem_map_of_mem (hperm.mem_iff.mpr hm)
  have hlast := does_lastRequest
    (r := { revealing with
      records := table members disclosed (turns.map (·.operator)), cursor := turns.length })
    rfl (by simp [revealing])
  let last : Round := { revealing with
    records := table members disclosed (turns.map (·.operator)), cursor := turns.length
    phase := .completed }
  refine ⟨order, turns, o, last, ?_, hperm, hsorted, hdetermine, ?_, rfl, hsecrets, hrecoveries,
    hfaulted⟩
  · rw [hcombined, RevealOrder.combine, List.flatMap_map]
  · exact (does_closeCos hphase hr hall).append
      (hinstall.append (hreveals.append (hlast.append hfinish)))

/-- If everybody takes part, every operation is done and the round completes with all
secrets in commit order. The members are asked by ascending distance of their first
stages from the combined value. -/
theorem honest_round_completes (id : UInt64) (value : Option Word) (hne : members ≠ [])
    (hd : (members.map (·.operator)).Nodup)
    (heligible : ∀ a, a ∈ eligible ↔ a ∈ members.map (·.operator))
    (harrivals : arrivals.Perm members) :
    ∃ (root : Word) (order : RevealOrder) (turns : List Member) (o : RoundOutcome) (last : Round),
      order.combined = keccak256 (members.flatMap (·.cos.bytes)) ∧ turns.Perm members ∧
      turns.Pairwise (fun m m' => gap order.combined m ≤ gap order.combined m') ∧
      ((start id eligible).run (commitAll members ++ .closeCommits ::
        (discloseAll arrivals ++ [.closeCos]))).determineOrder =
          .ok (order, turns.map (·.operator)) ∧
      Does (start id eligible) (honestCourse members arrivals turns value)
        (honestAnswers members arrivals turns root o) last ∧
      last.phase = .completed ∧
      (∀ k ≤ members.length,
        ((start id eligible).run (commitAll (members.take k))).allCommitted = true ↔
          k = members.length) ∧
      (∀ k ≤ members.length, ((start id eligible).run (commitAll members ++ .closeCommits ::
        discloseAll (arrivals.take k))).allCosReceived = true ↔ k = members.length) ∧
      o.secrets = members.map (fun m => (m.operator, m.secret)) ∧ o.recoveries = [] ∧
      o.faulted = [] := by
  obtain ⟨root, hdisclosures⟩ := does_firstDisclosures id hne hd heligible harrivals
  have hall := hdisclosures arrivals.length
  rw [List.take_length] at hall
  have hmem := mem_arrivals harrivals
  obtain ⟨order, turns, o, last, hcombined, hperm, hsorted, hdetermine, hdoes, hphase, houtcome⟩ :=
    does_closing value hne hd (r := { start id eligible with
      phase := .collectingCos
      records := table members (arrivals.map (·.operator)) []
      merkleRoot := some root }) rfl rfl hmem
  refine ⟨root, order, turns, o, last, hcombined, hperm, hsorted, ?_, ?_, hphase, ?_, ?_, houtcome⟩
  · have hclosed := (hall.append (does_closeCos rfl rfl hmem)).run_eq
    rw [List.append_assoc, List.cons_append] at hclosed
    rw [hclosed]
    exact hdetermine
  · have hcourse := hall.append hdoes
    rw [List.append_assoc, List.append_assoc, List.cons_append, List.cons_append] at hcourse
    exact hcourse
  · intro k hk
    rw [(does_firstCommits id hd heligible k).run_eq]
    have hlength : (table (members.take k) [] []).length = k := by simp [table, hk]
    simp [allCommitted, start, hlength, length_eligible hd heligible]
  · intro k hk
    rw [(hdisclosures k).run_eq, allCosReceived_table rfl]
    constructor
    · -- The members are no more than those of them that disclosed.
      intro hsome
      have hsubset : members.map (·.operator) ⊆ (arrivals.take k).map (·.operator) := by
        intro a ha
        obtain ⟨m, hm, rfl⟩ := List.mem_map.mp ha
        exact hsome m hm
      have hlength := (List.subperm_of_subset hd hsubset).length_le
      simp only [List.length_map, List.length_take] at hlength
      omega
    · rintro rfl
      rw [← harrivals.length_eq, List.take_length]
      exact hmem

theorem honest_round_completes_two :
    let a : Member := ⟨⟨.ofNat 20 1⟩, .ofNat 32 7, Word.zero⟩
    let b : Member := ⟨⟨.ofNat 20 2⟩, .ofNat 32 8, Word.zero⟩
    ([a, b].map (·.operator)).Nodup ∧ [b, a].Perm [a, b] ∧
      ∃ turns root o last, turns.Perm [a, b] ∧
        Does (start 1 [b.operator, a.operator]) (honestCourse [a, b] [b, a] turns none)
          (honestAnswers [a, b] [b, a] turns root o) last ∧
        last.phase = .completed ∧ o.secrets = [(a.operator, a.secret), (b.operator, b.secret)] := by
  intro a b
  have hd : ([a, b].map (·.operator)).Nodup := by decide
  have hperm : [b, a].Perm [a, b] := List.Perm.swap a b []
  have heligible : ∀ c, c ∈ [b.operator, a.operator] ↔ c ∈ [a, b].map (·.operator) :=
    fun c => (hperm.map (·.operator)).mem_iff
  obtain ⟨root, order, turns, o, last, -, hturns, -, -, hdoes, hphase, -, -, hsecrets, -⟩ :=
    honest_round_completes 1 none (List.cons_ne_nil a [b]) hd heligible hperm
  exact ⟨hd, hperm, turns, root, o, last, hturns, hdoes, hphase, hsecrets⟩

end Round

end Beacon
