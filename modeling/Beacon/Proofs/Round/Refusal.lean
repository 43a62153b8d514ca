import Beacon.Proofs.Round.Step

/-
  What a refusal leaves of a round. Taking in a commit, a first stage, a secret or a
  recovery is all or nothing: either it is refused and the round is what it was, or it
  is done and the round is not (`AllOrNothing`). A first stage that was disclosed before
  is neither.

  Whatever the operation, a refusal leaves the round what it was, with one exception:
  closing the commits of a round without any abandons it (`refused_eq`).
-/

namespace Beacon

namespace Round

variable {r : Round} {a b : Address} {p : Participant} {change : Participant → Participant}

/-! ## Finding changed records -/

theorem find?_map {f : Participant → Participant} (hf : ∀ p, (f p).operator = p.operator)
    (a : Address) : { r with records := r.records.map f }.find? a = (r.find? a).map f := by
  simp only [find?, List.find?_map, Function.comp_def, hf]

theorem find?_modify (hchange : ∀ p, (change p).operator = p.operator) :
    (r.modify a change).find? b = (r.find? b).map fun p => if b = a then change p else p := by
  rw [modify, find?_map (by intro p; split <;> simp [hchange])]
  cases hf : r.find? b with
  | none => rfl
  | some p => rw [Option.map_some, Option.map_some, (mem_of_find? hf).2]

theorem standingOf_setStanding_ne {s : Standing} (h : b ≠ a) :
    (r.setStanding a s).standingOf b = r.standingOf b := by
  rw [standingOf, setStanding, find?_modify (by exact fun _ => rfl), standingOf]
  simp only [if_neg h, Option.map_id']

theorem modify_ne (hf : r.find? a = some p) (hchange : ∀ p, (change p).operator = p.operator)
    (h : change p ≠ p) : r.modify a change ≠ r := by
  intro heq
  have hfind := congrArg (·.find? a) heq
  simp only [find?_modify hchange, hf, Option.map_some, if_true, Option.some_inj] at hfind
  exact h hfind

/-! ## All or nothing -/

/-- The round is refused something and stays what it was, or does it and changes. -/
def AllOrNothing {α : Type} (r : Round) (result : Round × Except RoundError α) : Prop :=
  (∃ e, result = (r, .error e)) ∨ ∃ r' x, result = (r', .ok x) ∧ r' ≠ r ∧ r'.id = r.id

theorem acceptCommit_allOrNothing (r : Round) (operator : Address) (cvs sealed : Word) :
    r.AllOrNothing (r.acceptCommit operator cvs sealed) := by
  unfold acceptCommit
  split
  · exact .inl ⟨_, rfl⟩
  split
  · exact .inl ⟨_, rfl⟩
  split
  · exact .inl ⟨_, rfl⟩
  refine .inr ⟨_, _, rfl, fun h => ?_, rfl⟩
  have hlength := congrArg (·.records.length) h
  simp at hlength

/-- A first stage may also have been disclosed before, which is answered by `false`. -/
theorem acceptCos_allOrNothing (r : Round) (operator : Address) (cos : Word) :
    r.acceptCos operator cos = (r, .ok false) ∨ r.AllOrNothing (r.acceptCos operator cos) := by
  unfold acceptCos
  split
  · exact .inr (.inl ⟨_, rfl⟩)
  split
  · exact .inr (.inl ⟨_, rfl⟩)
  rename_i p hf
  split
  · exact .inl rfl
  rename_i hcos
  split
  · exact .inr (.inl ⟨_, rfl⟩)
  refine .inr (.inr ⟨_, _, rfl, modify_ne hf (fun _ => rfl) fun h => hcos ?_, rfl⟩)
  rw [← congrArg Participant.cos h]
  rfl

theorem acceptReveal_allOrNothing (r : Round) (operator : Address) (secret : Word) :
    r.AllOrNothing (r.acceptReveal operator secret) := by
  unfold acceptReveal
  split
  · exact .inl ⟨_, rfl⟩
  split
  · exact .inl ⟨_, rfl⟩
  rename_i p hf
  split
  · exact .inl ⟨_, rfl⟩
  split
  · exact .inl ⟨_, rfl⟩
  rename_i hresolved
  split
  · exact .inl ⟨_, rfl⟩
  refine .inr ⟨_, _, rfl, modify_ne hf (fun _ => rfl) fun h => hresolved ?_, rfl⟩
  rw [← congrArg Participant.standing h]
  rfl

theorem applyRecovery_allOrNothing (r : Round) (params : DelayParams) (proof : Recovery) :
    r.AllOrNothing (r.applyRecovery params proof) := by
  unfold applyRecovery
  split
  · exact .inl ⟨_, rfl⟩
  split
  · exact .inl ⟨_, rfl⟩
  rename_i p hf
  split
  · exact .inl ⟨_, rfl⟩
  rename_i hresolved
  split
  · refine .inr ⟨_, _, rfl, modify_ne hf (fun _ => rfl) fun h => hresolved ?_, rfl⟩
    rw [← congrArg Participant.standing h]
    rfl
  · split
    · refine .inr ⟨_, _, rfl, modify_ne hf (fun _ => rfl) fun h => hresolved ?_, rfl⟩
      rw [← congrArg Participant.standing h]
      rfl
    · exact .inl ⟨_, rfl⟩

/-! ## Every operation -/

theorem answer_eq_error {α : Type} {reply : α → Reply} {result : Round × Except RoundError α}
    {e : RoundError} (h : (answer reply result).2 = .error e) : result.2 = .error e := by
  obtain ⟨r', e' | x⟩ := result
  · cases h
    rfl
  · cases h

theorem answer_eq_ok {α : Type} {reply : α → Reply} {result : Round × Except RoundError α}
    {y : Reply} (h : (answer reply result).2 = .ok y) : ∃ x, result.2 = .ok x ∧ reply x = y := by
  obtain ⟨r', e | x⟩ := result
  · cases h
  · exact ⟨x, rfl, Except.ok.inj h⟩

/-- The round is what it was if something is refused to it. -/
def KeptIfRefused {α : Type} (r : Round) (result : Round × Except RoundError α) : Prop :=
  ∀ e, result.2 = .error e → result.1 = r

section KeptIfRefused

variable {α : Type} {result : Round × Except RoundError α}

theorem keptIfRefused_refused (e : RoundError) : r.KeptIfRefused ((r, .error e) : Round × Except RoundError α) :=
  fun _ _ => rfl

theorem keptIfRefused_done {r' : Round} {x : α} : r.KeptIfRefused (r', .ok x) :=
  nofun

theorem AllOrNothing.keptIfRefused (h : r.AllOrNothing result) : r.KeptIfRefused result := by
  rcases h with ⟨e, rfl⟩ | ⟨r', x, rfl, -⟩
  · exact keptIfRefused_refused e
  · exact keptIfRefused_done

theorem KeptIfRefused.answer {reply : α → Reply} {e : RoundError} (h : r.KeptIfRefused result)
    (he : (Round.answer reply result).2 = .error e) : result.1 = r :=
  h e (answer_eq_error he)

end KeptIfRefused

theorem keptIfRefused_acceptCos (r : Round) (operator : Address) (cos : Word) :
    r.KeptIfRefused (r.acceptCos operator cos) := by
  rcases r.acceptCos_allOrNothing operator cos with h | h
  · rw [h]
    exact keptIfRefused_done
  · exact h.keptIfRefused

theorem keptIfRefused_closeCos (r : Round) : r.KeptIfRefused r.closeCos := by
  unfold closeCos
  split
  · exact keptIfRefused_refused _
  · exact keptIfRefused_done

theorem keptIfRefused_installOrder (r : Round) (combined : Option Word) (order : List Address) :
    r.KeptIfRefused (r.installOrder combined order) := by
  unfold installOrder
  split
  · exact keptIfRefused_refused _
  split
  · exact keptIfRefused_done
  · exact keptIfRefused_refused _

theorem keptIfRefused_beginRevealing (r : Round) : r.KeptIfRefused r.beginRevealing := by
  unfold beginRevealing
  split
  · exact keptIfRefused_refused _
  · exact keptIfRefused_done

theorem keptIfRefused_markTimedOut (r : Round) (operator : Address) :
    r.KeptIfRefused (r.markTimedOut operator) := by
  unfold markTimedOut
  split
  · exact keptIfRefused_refused _
  split
  · exact keptIfRefused_done
  · exact keptIfRefused_done

theorem keptIfRefused_beginRecovery (r : Round) (operator : Address) :
    r.KeptIfRefused (r.beginRecovery operator) := by
  unfold beginRecovery
  split
  · exact keptIfRefused_refused _
  split
  · exact keptIfRefused_refused _
  · exact keptIfRefused_done

theorem keptIfRefused_markFaulted (r : Round) (operator : Address) :
    r.KeptIfRefused (r.markFaulted operator) := by
  unfold markFaulted
  split
  · exact keptIfRefused_refused _
  split
  · exact keptIfRefused_refused _
  · exact keptIfRefused_done

theorem keptIfRefused_finish (r : Round) : r.KeptIfRefused r.finish := by
  unfold finish
  split
  · exact keptIfRefused_refused _
  · exact keptIfRefused_done

def afterRefusal (r : Round) : Operation → RoundError → Round
  | .closeCommits, .noCommits => { r with phase := .abandoned }
  | _, _ => r

theorem closeCommits_eq_error {e : RoundError} (h : r.closeCommits.2 = .error e) :
    r.closeCommits.1 = r.afterRefusal .closeCommits e := by
  rcases hdone : r.closeCommits with ⟨r', result⟩
  rw [hdone] at h
  unfold closeCommits at hdone
  split at hdone
  · cases hdone
    cases h
    rfl
  split at hdone
  · cases hdone
    cases h
    rfl
  · cases hdone
    cases h

theorem acceptCos_repeated {operator : Address} {cos : Word}
    (h : (r.acceptCos operator cos).2 = .ok false) : (r.acceptCos operator cos).1 = r := by
  rcases hdone : r.acceptCos operator cos with ⟨r', result⟩
  rw [hdone] at h
  unfold acceptCos at hdone
  split at hdone
  · cases hdone
    rfl
  split at hdone
  · cases hdone
    rfl
  split at hdone
  · cases hdone
    rfl
  split at hdone
  · cases hdone
    rfl
  · -- The first stage was taken in, which is answered by `true`.
    cases hdone
    cases h

theorem markTimedOut_answered {operator : Address} (h : (r.markTimedOut operator).2 = .ok false) :
    (r.markTimedOut operator).1 = r := by
  rcases hdone : r.markTimedOut operator with ⟨r', result⟩
  rw [hdone] at h
  unfold markTimedOut at hdone
  split at hdone
  · cases hdone
    rfl
  split at hdone
  · cases hdone
    rfl
  · cases hdone
    cases h

theorem perform_eq_false {op : Operation} (h : (r.perform op).2 = .ok (.accepted false)) :
    (r.perform op).1 = r := by
  cases op with
  | nextToRequest => cases h
  | acceptCos operator cos =>
    obtain ⟨x, hx, hreply⟩ := answer_eq_ok h
    cases hreply
    exact acceptCos_repeated hx
  | markTimedOut operator =>
    obtain ⟨x, hx, hreply⟩ := answer_eq_ok h
    cases hreply
    exact markTimedOut_answered hx
  | _ =>
    obtain ⟨_, _, hreply⟩ := answer_eq_ok h
    cases hreply

theorem perform_eq_error {op : Operation} {e : RoundError} (h : (r.perform op).2 = .error e) :
    (r.perform op).1 = r.afterRefusal op e := by
  cases op with
  | acceptCommit operator cvs sealed =>
    exact (r.acceptCommit_allOrNothing operator cvs sealed).keptIfRefused.answer h
  | closeCommits => exact closeCommits_eq_error (answer_eq_error h)
  | acceptCos operator cos => exact (r.keptIfRefused_acceptCos operator cos).answer h
  | closeCos => exact r.keptIfRefused_closeCos.answer h
  | installOrder combined order => exact (r.keptIfRefused_installOrder combined order).answer h
  | beginRevealing => exact r.keptIfRefused_beginRevealing.answer h
  | nextToRequest => cases h
  | acceptReveal operator secret =>
    exact (r.acceptReveal_allOrNothing operator secret).keptIfRefused.answer h
  | markTimedOut operator => exact (r.keptIfRefused_markTimedOut operator).answer h
  | beginRecovery operator => exact (r.keptIfRefused_beginRecovery operator).answer h
  | applyRecovery params proof =>
    exact (r.applyRecovery_allOrNothing params proof).keptIfRefused.answer h
  | markFaulted operator => exact (r.keptIfRefused_markFaulted operator).answer h
  | finish => exact r.keptIfRefused_finish.answer h

/-- Whatever is done to a round, reached or not, if it is refused then the round is what it
was, but that closing the commits of a round without any leaves it abandoned. The round is
also what it was if a first stage was disclosed before, if an operator whose time is up is no
longer awaited, and if the next operator is sought while nobody is to reveal. -/
theorem refused_eq (r : Round) (op : Operation) :
    (∀ e, (r.perform op).2 = .error e → (r.perform op).1 = r.afterRefusal op e) ∧
      ((r.perform op).2 = .ok (.accepted false) → (r.perform op).1 = r) ∧
      (r.phase ≠ .revealing → r.perform .nextToRequest = (r, .ok (.next none))) := by
  refine ⟨fun e h => perform_eq_error h, perform_eq_false, fun hphase => ?_⟩
  rw [perform, nextToRequest, if_pos hphase]

example : (start 1 []).perform .closeCommits =
    ({ start 1 [] with phase := .abandoned }, .error .noCommits) := rfl

end Round

end Beacon
