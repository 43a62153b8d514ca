import Beacon.Proofs.Leader.Rounds
import Beacon.Proofs.Round.Finished
import Beacon.Proofs.Round.Registry
import Mathlib.Data.List.Nodup
import Mathlib.Data.List.Perm.Subperm

/-
  What pruning drops: the finished rounds with at least `keep` finished rounds above them
  (`prune_eq`), so that nothing is left to drop when it is done again (`prune_prune`).

  A prune lists the rounds, looks at them one after the other, and drops what it found finished
  and too old. In between the rounds are not locked: they go on, and others are created
  (`Pruning.Event`). No finished round is ever unfinished again (`Round.phase_of_finished`), so
  what was found finished still is (`Pruning.Sound`), and what is dropped in the end is finished
  and too old at that time too (`Pruning.Sound.of_dropped`).
-/

namespace Beacon

theorem Round.phase_of_finished {r : Round} (h : r.phase.isFinished = true) (op : Operation) :
    (r.perform op).1.phase = r.phase := by
  have hne : ∀ {phase : Phase}, phase.isFinished = false → r.phase ≠ phase :=
    Phase.ne_of_isFinished h
  have heffect := effect_perform r op
  generalize (r.perform op).1 = r' at heffect
  cases heffect with
  | close hphase | abandon hphase | install hphase | begin hphase => exact absurd hphase (hne rfl)
  | complete hcomplete => exact ((isComplete_iff.mp hcomplete).1.resolve_left (hne rfl)).symm
  | _ => rfl

namespace Registry

variable {g : Registry} {r s : Round} {id : UInt64} {keep : Nat}

/-! ## Finished rounds by their numbers -/

/-- How many finished rounds have a higher number. -/
def newerFinished (g : Registry) (id : UInt64) : Nat := g.finished.countP (id < ·)

theorem mem_finished : id ∈ g.finished ↔ ∃ r ∈ g.rounds, r.phase.isFinished = true ∧ r.id = id := by
  simp [finished, and_assoc]

theorem Ascending.eq_of_id (h : g.Ascending) (hr : r ∈ g.rounds) (hs : s ∈ g.rounds)
    (hid : r.id = s.id) : r = s :=
  List.inj_on_of_nodup_map (h.imp UInt64.ne_of_lt) hr hs hid

theorem Ascending.find?_of_mem (h : g.Ascending) (hr : r ∈ g.rounds) : g.find? r.id = some r := by
  cases hfound : g.find? r.id with
  | none => exact absurd (List.mem_map_of_mem hr) (find?_eq_none_iff.mp hfound)
  | some s => rw [h.eq_of_id (List.mem_of_find?_eq_some hfound) hr (id_of_find? hfound)]

theorem Ascending.id_mem_finished (h : g.Ascending) (hr : r ∈ g.rounds) :
    r.id ∈ g.finished ↔ r.phase.isFinished = true := by
  rw [mem_finished]
  constructor
  · rintro ⟨s, hs, hfinished, hid⟩
    rwa [← h.eq_of_id hs hr hid]
  · exact fun hfinished => ⟨r, hr, hfinished, rfl⟩

theorem Ascending.finished (h : g.Ascending) : g.finished.Pairwise (· < ·) :=
  List.Pairwise.sublist (List.filter_sublist.map _) h

/-- Of ascending numbers, all but the last `keep` are those with at least `keep` above them. -/
theorem mem_take_iff {ids : List UInt64} (h : ids.Pairwise (· < ·)) :
    id ∈ ids.take (ids.length - keep) ↔ id ∈ ids ∧ keep ≤ ids.countP (id < ·) := by
  induction ids with
  | nil => simp
  | cons first rest ih =>
    obtain ⟨hfirst, hrest⟩ := List.pairwise_cons.mp h
    have hcount : ∀ id ∈ first :: rest,
        (first :: rest).countP (id < ·) = rest.countP (id < ·) := by
      intro id hid
      refine List.countP_cons_of_neg ?_
      rcases List.mem_cons.mp hid with rfl | hid
      · simp
      · simpa using UInt64.le_of_lt (hfirst id hid)
    by_cases hkeep : keep ≤ rest.length
    · rw [List.length_cons, Nat.succ_sub hkeep, List.take_succ_cons, List.mem_cons, ih hrest]
      constructor
      · rintro (rfl | ⟨hid, hle⟩)
        · have hall : rest.countP (id < ·) = rest.length :=
            List.countP_eq_length.mpr fun later hlater => by simpa using hfirst later hlater
          exact ⟨.head rest, by rwa [hcount id (.head rest), hall]⟩
        · exact ⟨.tail first hid, by rwa [hcount id (.tail first hid)]⟩
      · rintro ⟨hid, hle⟩
        rw [hcount id hid] at hle
        exact (List.mem_cons.mp hid).imp_right fun hid => ⟨hid, hle⟩
    · -- There are not more than `keep` numbers.
      rw [List.length_cons, Nat.sub_eq_zero_of_le (by omega), List.take_zero]
      refine iff_of_false List.not_mem_nil ?_
      rintro ⟨hid, hle⟩
      rw [hcount id hid] at hle
      have := List.countP_le_length (p := (id < ·)) (l := rest)
      omega

/-! ## One prune -/

theorem Ascending.id_mem_excess (h : g.Ascending) (hr : r ∈ g.rounds) :
    r.id ∈ g.excess keep ↔ r.phase.isFinished = true ∧ keep ≤ g.newerFinished r.id := by
  rw [excess, mem_take_iff h.finished, h.id_mem_finished hr, newerFinished]

/-- A prune keeps the unfinished rounds, and the finished ones with less than `keep` finished
rounds above them. -/
theorem prune_eq (h : g.Ascending) (keep : Nat) : (g.prune keep).rounds =
    g.rounds.filter fun r => !r.phase.isFinished || decide (g.newerFinished r.id < keep) := by
  refine List.filter_congr fun r hr => ?_
  have hexcess : r.id ∈ g.excess keep ↔ _ := h.id_mem_excess hr
  rw [← Nat.not_lt] at hexcess
  cases hfinished : r.phase.isFinished <;> simp [hexcess, hfinished]

theorem Ascending.prune (h : g.Ascending) (keep : Nat) : (g.prune keep).Ascending :=
  h.of_sublist (ids_prune g keep)

/-- Of the finished rounds a prune keeps the last. -/
theorem finished_prune (h : g.Ascending) (keep : Nat) :
    (g.prune keep).finished = g.finished.drop (g.finished.length - keep) := by
  have hkept : (g.prune keep).finished = g.finished.filter (· ∉ g.excess keep) := by
    rw [finished, finished, prune, drop, List.filter_map, List.filter_filter, List.filter_filter]
    simp only [Function.comp_def, Bool.and_comm]
  have hnodup : (g.excess keep ++ g.finished.drop (g.finished.length - keep)).Nodup := by
    rw [excess, List.take_append_drop]
    exact h.finished.imp UInt64.ne_of_lt
  obtain ⟨-, -, hdisjoint⟩ := List.nodup_append.mp hnodup
  calc (g.prune keep).finished
      = g.finished.filter (· ∉ g.excess keep) := hkept
    _ = (g.excess keep ++ g.finished.drop (g.finished.length - keep)).filter
          (· ∉ g.excess keep) := by rw [excess, List.take_append_drop]
    _ = g.finished.drop (g.finished.length - keep) := by
        rw [List.filter_append, List.filter_eq_nil_iff.mpr (by simp), List.nil_append,
          List.filter_eq_self.mpr]
        intro id hid
        exact decide_eq_true fun hexcess => hdisjoint id hexcess id hid rfl

theorem prune_prune (h : g.Ascending) (keep : Nat) : (g.prune keep).prune keep = g.prune keep := by
  have hnone : (g.prune keep).excess keep = [] := by
    rw [excess, finished_prune h, List.length_drop, Nat.sub_eq_zero_of_le (by omega),
      List.take_zero]
  rw [Registry.prune, hnone, drop]
  congr 1
  exact List.filter_eq_self.mpr fun r _ => by simp

/-! ## A prune while others are at work -/

/-- What is done to the round of a number, if there is one. -/
def perform (g : Registry) (id : UInt64) (op : Round.Operation) : Registry :=
  match g.find? id with
  | some r => g.replace (r.perform op).1
  | none => g

/-- A prune under way: the rounds as they are now, the numbers that were listed and not looked
at yet, and the numbers of the rounds that were found finished. -/
structure Pruning where
  registry : Registry
  unseen : List UInt64
  found : List UInt64

namespace Pruning

/-- What happens after the rounds were listed: the prune looks at the next one, something is done
to a round, or a round is created, which is refused if there is one of that number. -/
inductive Event where
  | look
  | perform (id : UInt64) (op : Round.Operation)
  | create (id : UInt64) (eligible : List Address)

def start (g : Registry) : Pruning := ⟨g, g.ids, []⟩

def finds (g : Registry) (id : UInt64) : Bool := (g.find? id).any (·.phase.isFinished)

def look (p : Pruning) : Pruning :=
  match p.unseen with
  | [] => p
  | id :: rest =>
    { p with unseen := rest, found := if finds p.registry id then p.found ++ [id] else p.found }

def step (p : Pruning) : Event → Pruning
  | .look => p.look
  | .perform id op => { p with registry := p.registry.perform id op }
  | .create id eligible => { p with registry := (p.registry.create id eligible).1 }

def run (p : Pruning) (events : List Event) : Pruning := events.foldl step p

/-- Drops the rounds that were found finished, but for the newest `keep` of them. -/
def remove (p : Pruning) (keep : Nat) : Registry :=
  p.registry.drop (p.found.take (p.found.length - keep))

/-! ### Nothing but looks -/

theorem run_looks (g : Registry) (unseen found : List UInt64) :
    run ⟨g, unseen, found⟩ (List.replicate unseen.length .look) =
      ⟨g, [], found ++ unseen.filter (finds g)⟩ := by
  induction unseen generalizing found with
  | nil => simp [run]
  | cons id rest ih =>
    show run (look ⟨g, id :: rest, found⟩) (List.replicate rest.length .look) = _
    rw [look, ih, List.filter_cons]
    cases finds g id <;> simp

theorem filter_finds (h : g.Ascending) : g.ids.filter (finds g) = g.finished := by
  rw [ids, finished, List.filter_map]
  refine congrArg (List.map _) (List.filter_congr fun r hr => ?_)
  rw [Function.comp_apply, finds, h.find?_of_mem hr]
  rfl

theorem remove_alone (h : g.Ascending) (keep : Nat) :
    ((start g).run (List.replicate g.size .look)).remove keep = g.prune keep := by
  have hsize : g.size = g.ids.length := by rw [size, ids, List.length_map]
  rw [hsize, start, run_looks, filter_finds h, List.nil_append]
  rfl

/-! ### Anything in between -/

/-- The numbers are in order, and what was found finished is finished. -/
structure Sound (p : Pruning) : Prop where
  ascending : p.registry.Ascending
  ordered : (p.found ++ p.unseen).Pairwise (· < ·)
  finished : ∀ id ∈ p.found, finds p.registry id = true

variable {p : Pruning}

theorem Sound.start (h : g.Ascending) : (start g).Sound := ⟨h, h, nofun⟩

theorem Sound.look (h : p.Sound) : p.look.Sound := by
  unfold Pruning.look
  split
  · exact h
  · rename_i id rest hunseen
    have hordered := h.ordered
    rw [hunseen] at hordered
    cases hfinds : finds p.registry id with
    | true =>
      refine ⟨h.ascending, by simpa using hordered, ?_⟩
      intro id' hid'
      rcases List.mem_append.mp hid' with hid' | hid'
      · exact h.finished id' hid'
      · rw [List.mem_singleton.mp hid', hfinds]
    | false => exact ⟨h.ascending, hordered.sublist (by simp), h.finished⟩

theorem finds_iff : finds g id = true ↔ ∃ r, g.find? id = some r ∧ r.phase.isFinished = true := by
  rw [finds, Option.any_eq_true]

theorem finds_perform (h : finds g id = true) (id' : UInt64) (op : Round.Operation) :
    finds (g.perform id' op) id = true := by
  obtain ⟨r, hr, hfinished⟩ := finds_iff.mp h
  unfold Registry.perform
  split
  · rename_i s hs
    rw [finds_iff, find?_replace, hr, Option.map_some]
    refine ⟨_, rfl, ?_⟩
    split
    · rename_i hid
      rw [Round.id_perform, id_of_find? hr, id_of_find? hs] at hid
      obtain rfl : r = s := by
        rw [hid, hs] at hr
        exact (Option.some.inj hr).symm
      rwa [Round.phase_of_finished hfinished]
    · exact hfinished
  · exact h

theorem finds_create (h : finds g id = true) (id' : UInt64) (eligible : List Address) :
    finds (g.create id' eligible).1 id = true := by
  obtain ⟨-, hsame⟩ | ⟨hnew, hcreated⟩ := g.create_spec id' eligible
  · rwa [hsame]
  · obtain ⟨r, hr, hfinished⟩ := finds_iff.mp h
    have hne : id' ≠ id := by
      rintro rfl
      rw [find?_eq_none_iff.mpr hnew] at hr
      cases hr
    rw [hcreated, finds_iff]
    exact ⟨r, (find?_insertRound_ne hne).trans hr, hfinished⟩

theorem ascending_perform (h : g.Ascending) (id : UInt64) (op : Round.Operation) :
    (g.perform id op).Ascending := by
  unfold Registry.perform
  split
  · exact h.of_sublist (by rw [ids_replace])
  · exact h

theorem Sound.step (h : p.Sound) (e : Event) : (p.step e).Sound := by
  cases e with
  | look => exact h.look
  | perform id op =>
    exact ⟨ascending_perform h.ascending id op, h.ordered,
      fun id' hid' => finds_perform (h.finished id' hid') id op⟩
  | create id eligible =>
    exact ⟨h.ascending.create id eligible, h.ordered,
      fun id' hid' => finds_create (h.finished id' hid') id eligible⟩

theorem Sound.run (h : p.Sound) (events : List Event) : (p.run events).Sound := by
  induction events generalizing p with
  | nil => exact h
  | cons e events ih => exact ih (h.step e)

/-- What is dropped is finished, and has `keep` finished rounds above it. -/
theorem Sound.of_dropped (h : p.Sound) (hr : r ∈ p.registry.rounds)
    (hdropped : r ∉ (p.remove keep).rounds) :
    r.phase.isFinished = true ∧ keep ≤ p.registry.newerFinished r.id := by
  have hordered : p.found.Pairwise (· < ·) := (List.pairwise_append.mp h.ordered).1
  have hsome : r.id ∈ p.found.take (p.found.length - keep) := by
    by_contra hnone
    exact hdropped (List.mem_filter.mpr ⟨hr, decide_eq_true hnone⟩)
  obtain ⟨hfound, hnewer⟩ := (mem_take_iff hordered).mp hsome
  -- All that was found finished is finished now, with others perhaps.
  have hsubset : p.found ⊆ p.registry.finished := by
    intro id hid
    obtain ⟨s, hs, hfinished⟩ := finds_iff.mp (h.finished id hid)
    exact mem_finished.mpr ⟨s, List.mem_of_find?_eq_some hs, hfinished, id_of_find? hs⟩
  have hdistinct : p.found.Nodup := hordered.imp UInt64.ne_of_lt
  refine ⟨(h.ascending.id_mem_finished hr).mp (hsubset hfound), Nat.le_trans hnewer ?_⟩
  exact List.Subperm.countP_le _ (hdistinct.subperm hsubset)

end Pruning

/-- A prune drops exactly the finished rounds with `keep` finished rounds above them, leaves all
others as and where they are, and leaves nothing to a second prune. If rounds go on and others are
created while it looks at them, it still drops finished rounds only, none of them among the
newest `keep`; and left alone it is the same as done at once. -/
theorem prune_keeps (h : g.Ascending) (keep : Nat) :
    (g.prune keep).rounds =
      g.rounds.filter (fun r => !r.phase.isFinished || decide (g.newerFinished r.id < keep)) ∧
    (g.prune keep).prune keep = g.prune keep ∧
    ((Pruning.start g).run (List.replicate g.size .look)).remove keep = g.prune keep ∧
    ∀ events : List Pruning.Event,
      let p := (Pruning.start g).run events
      (p.remove keep).rounds.Sublist p.registry.rounds ∧
      ∀ r ∈ p.registry.rounds, r ∉ (p.remove keep).rounds →
        r.phase.isFinished = true ∧ keep ≤ p.registry.newerFinished r.id := by
  refine ⟨prune_eq h keep, prune_prune h keep, Pruning.remove_alone h keep, fun events => ?_⟩
  have hsound := (Pruning.Sound.start h).run events
  exact ⟨List.filter_sublist, fun r hr hdropped => hsound.of_dropped hr hdropped⟩

/-- Two open rounds among two abandoned ones. While they are looked at a third is abandoned that
was not looked at yet, and a round is created. -/
theorem prune_keeps_interleaved :
    let abandoned : UInt64 → Round := fun id => ((Round.start id []).perform .closeCommits).1
    let g : Registry := ⟨[abandoned 1, .start 2 [], abandoned 3, .start 4 []]⟩
    let p := (Pruning.start g).run
      [.look, .look, .perform 4 .closeCommits, .create 5 [], .look, .look]
    g.Ascending ∧ (g.prune 1).rounds = [.start 2 [], abandoned 3, .start 4 []] ∧
      (g.prune 1).prune 1 = g.prune 1 ∧
      p.registry.ids = [1, 2, 3, 4, 5] ∧ (p.remove 1).ids = [2, 4, 5] ∧
      ∀ r ∈ p.registry.rounds, r ∉ (p.remove 1).rounds → r.phase.isFinished = true := by
  intro abandoned g p
  have hascending : g.Ascending := by
    show ([1, 2, 3, 4] : List UInt64).Pairwise (· < ·)
    decide
  obtain ⟨hkept, htwice, -, hmeanwhile⟩ := prune_keeps hascending 1
  obtain ⟨-, hdropped⟩ :=
    hmeanwhile [.look, .look, .perform 4 .closeCommits, .create 5 [], .look, .look]
  refine ⟨hascending, ?_, htwice, by decide, by decide, fun r hr hgone => (hdropped r hr hgone).1⟩
  rw [hkept]
  decide

end Registry

end Beacon
