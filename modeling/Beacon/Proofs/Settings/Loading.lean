import Beacon.Proofs.Time.Span
import Beacon.Settings.Basic

/-
  What loading settings can answer. Every variable is read by its own rule and every check
  names the variable it refuses, so a load ends in settings or in the refusal of a variable,
  but for the arithmetic on the windows: the time of one evaluation, its double and the sum of
  the windows are computed before anything bounds them, and each can be longer than any span.

  `load_yields_iff` says for which settings that is so. The double and the sum are reached
  only if one evaluation is shorter than the commit window, since a delay that is too long for
  it is refused first.
-/

namespace Beacon

/-- The refusals that name one of the variables. -/
def SettingsError.OfVariable : SettingsError → Prop
  | .invalid key _ => key ∈ Settings.variableNames
  | .missing key => key ∈ Settings.variableNames
  | .spanTooLong => False

theorem SettingsError.invalid_ofVariable {key value : String}
    (h : key ∈ Settings.variableNames) : (invalid key value).OfVariable := h

theorem SettingsError.missing_ofVariable {key : String} (h : key ∈ Settings.variableNames) :
    (missing key).OfVariable := h

namespace Settings

variable {α β : Type} {P : α → Prop} {Q : β → Prop} {s : Settings}

/-- A computation that ends in a result with the property or in the refusal of a variable. -/
def Yields (P : α → Prop) : Except SettingsError α → Prop
  | .ok a => P a
  | .error e => e.OfVariable

namespace Yields

theorem refusal {e : SettingsError} (he : e.OfVariable) : Yields P (.error e) := he

theorem bind {r : Except SettingsError α} {f : α → Except SettingsError β} (hr : Yields P r)
    (hf : ∀ a, P a → Yields Q (f a)) : Yields Q (r >>= f) := by
  cases r with
  | ok a => exact hf a hr
  | error e => exact hr

theorem bind_iff {r : Except SettingsError α} {f : α → Except SettingsError β}
    (hr : Yields P r) : Yields Q (r >>= f) ↔ ∀ a, r = .ok a → Yields Q (f a) := by
  cases r with
  | ok a => exact ⟨fun h b hb => Except.ok.inj hb ▸ h, fun h => h a rfl⟩
  | error e => exact iff_of_true hr fun a ha => nomatch ha

theorem bind_iff_of_forall {r : Except SettingsError α} {f : α → Except SettingsError β}
    (hf : ∀ a, Yields Q (f a)) : Yields Q (r >>= f) ↔ Yields (fun _ => True) r := by
  cases r with
  | ok a => exact iff_of_true (hf a) trivial
  | error e => exact Iff.rfl

theorem of_ok {r : Except SettingsError α} {a : α} (hr : Yields P r) (h : r = .ok a) : P a := by
  subst h
  exact hr

theorem refuse_iff {p : Prop} [Decidable p] {e : SettingsError} (he : e.OfVariable)
    {f : Unit → Except SettingsError α} :
    Yields P (if p then throw e >>= f else f ()) ↔ (¬p → Yields P (f ())) := by
  split
  · next h => exact iff_of_true he fun hn => absurd h hn
  · next h => exact ⟨fun hf _ => hf, fun hf => hf h⟩

end Yields

/-! ## Reading -/

theorem read_yields {vars : Variables} {key : String} {rule : String → Option α} {default : α}
    (hkey : key ∈ variableNames) (hdefault : P default)
    (hrule : ∀ v a, rule v = some a → P a) : Yields P (read vars key rule default) := by
  rw [read]
  split
  · exact hdefault
  · split
    · next ha => exact hrule _ _ ha
    · exact hkey

/-- The commit window and the window behind it are whole seconds. -/
def WholeWindows (s : Settings) : Prop :=
  ∃ commit cos, s.commitWindow = Span.ofSeconds commit ∧ s.cosWindow = Span.ofSeconds cos

theorem read_window {vars : Variables} {key : String} (hkey : key ∈ variableNames) (d : UInt64) :
    Yields (fun w => ∃ n, w = Span.ofSeconds n)
      (read vars key parseSeconds (Span.ofSeconds d)) := by
  refine read_yields hkey ⟨d, rfl⟩ fun v w hw => ?_
  obtain ⟨n, -, rfl⟩ := Option.map_eq_some_iff.mp hw
  exact ⟨n, rfl⟩

theorem read_any {vars : Variables} {key : String} {rule : String → Option α} {default : α}
    (hkey : key ∈ variableNames) : Yields (fun _ => True) (read vars key rule default) :=
  read_yields hkey trivial fun _ _ _ => trivial

theorem ofVariables_yields (vars : Variables) : Yields WholeWindows (ofVariables vars) := by
  rw [ofVariables]
  refine (read_any (by decide)).bind fun role _ => ?_
  refine (read_any (by decide)).bind fun bindAddress _ => ?_
  refine (read_any (by decide)).bind fun leaderAddress _ => ?_
  refine (read_window (by decide) 60).bind fun commitWindow ⟨commit, hcommit⟩ => ?_
  refine (read_window (by decide) 15).bind fun cosWindow ⟨cos, hcos⟩ => ?_
  refine (read_any (by decide)).bind fun revealTimeout _ => ?_
  refine (read_any (by decide)).bind fun roundInterval _ => ?_
  refine (read_any (by decide)).bind fun modulus _ => ?_
  refine (read_any (by decide)).bind fun delay _ => ?_
  refine (read_any (by decide)).bind fun squaringRate _ => ?_
  refine (read_any (by decide)).bind fun maxConnections _ => ?_
  exact ⟨commit, cos, hcommit, hcos⟩

/-! ## Spans that are too long -/

def OnceOverlong (s : Settings) : Prop :=
  s.squaringRate = 1 ∧ 2 ^ 64 ≤ s.delay.delay.toNat + 2 ^ 10

def TwiceOverlong (s : Settings) : Prop :=
  (s.squaringRate = 1 ∧ 2 ^ 63 ≤ s.delay.delay.toNat + 2 ^ 9) ∨
    (s.squaringRate = 2 ∧ 2 ^ 64 ≤ s.delay.delay.toNat + 2 ^ 10)

def WindowsOverlong (s : Settings) : Prop :=
  2 ^ 64 ≤ s.commitWindow.seconds + s.cosWindow.seconds

/-- One evaluation is shorter than the commit window. -/
def Fits (s : Settings) : Prop :=
  ∃ once, s.evaluationTime s.squaringRate = some once ∧ s.commitWindow.le once = false

/-- The check of the delay comes upon a span that is too long. -/
def Overlong (s : Settings) : Prop :=
  s.OnceOverlong ∨ (s.Fits ∧ (s.TwiceOverlong ∨ s.WindowsOverlong))

/-- The modulus, the delay and the rate pass their own checks. -/
def Usable (s : Settings) : Prop :=
  s.delay.delay ≠ 0 ∧ 3 < s.delay.modulus ∧ s.squaringRate ≠ 0

theorem rate_eq_one_iff {rate : UInt64} (hrate : rate ≠ 0) : rate.toNat ≤ 1 ↔ rate = 1 := by
  rw [Ne, ← UInt64.toNat_inj] at hrate
  rw [← UInt64.toNat_inj]
  simp only [UInt64.toNat_zero, UInt64.toNat_one] at hrate ⊢
  omega

theorem rate_eq_two_iff {rate : UInt64} : rate.toNat = 2 ↔ rate = 2 := by
  rw [← UInt64.toNat_inj]
  rfl

theorem evaluationTime_eq_none_iff (hrate : s.squaringRate ≠ 0) :
    s.evaluationTime s.squaringRate = none ↔ s.OnceOverlong := by
  rw [evaluationTime, Span.ofRate?_eq_none_iff, rate_eq_one_iff hrate, OnceOverlong]

theorem double?_eq_none_iff_twiceOverlong {once : Span} (hrate : s.squaringRate ≠ 0)
    (honce : s.evaluationTime s.squaringRate = some once) :
    once.double? = none ↔ s.TwiceOverlong := by
  rw [Span.double?_eq_none_iff honce, rate_eq_one_iff hrate, rate_eq_two_iff, TwiceOverlong]

theorem windows_eq_none_iff (hwhole : s.WholeWindows) :
    s.commitWindow.add? s.cosWindow = none ↔ s.WindowsOverlong := by
  obtain ⟨commit, cos, hcommit, hcos⟩ := hwhole
  have hseconds (n : UInt64) : (Span.ofSeconds n).seconds = n.toNat :=
    Nat.mul_div_cancel n.toNat (by decide : 0 < Span.perSecond)
  rw [WindowsOverlong, hcommit, hcos, Span.add?_ofSeconds_eq_none_iff, hseconds, hseconds]

/-! ## Checking -/

theorem invalidDelay_ofVariable (s : Settings) : s.invalidDelay.OfVariable :=
  SettingsError.invalid_ofVariable (by decide)

/-- The check of the delay refuses the delay or passes unless a span is too long. -/
theorem checkDelay_yields_iff (hwhole : s.WholeWindows) (hrate : s.squaringRate ≠ 0) :
    Yields (fun _ => True) (s.checkDelay s.squaringRate) ↔ ¬s.Overlong := by
  have hdelay := s.invalidDelay_ofVariable
  have honce := evaluationTime_eq_none_iff hrate
  rw [checkDelay]
  cases hevaluation : s.evaluationTime s.squaringRate with
  | none => exact iff_of_false id (not_not_intro (.inl (honce.mp hevaluation)))
  | some once =>
    have hnot : ¬s.OnceOverlong := fun h => by simp [honce.mpr h] at hevaluation
    have hfits : s.Fits ↔ s.commitWindow.le once = false := by
      simp only [Fits, hevaluation, Option.some.injEq, exists_eq_left']
    have htwice := double?_eq_none_iff_twiceOverlong hrate hevaluation
    have hwindows := windows_eq_none_iff hwhole
    simp only [Overlong, hnot, hfits, ← htwice, ← hwindows, false_or, spanOrRefuse, bind,
      Except.bind]
    -- The check stops at the first of: a delay too long for the commit window, a double and
    -- a sum that are too long.
    cases hle : s.commitWindow.le once with
    | true => exact iff_of_true hdelay (by simp)
    | false =>
      cases hdouble : once.double? with
      | none => exact iff_of_false id (not_not_intro ⟨rfl, .inl rfl⟩)
      | some twice =>
        cases hadd : s.commitWindow.add? s.cosWindow with
        | none => exact iff_of_false id (not_not_intro ⟨rfl, .inr rfl⟩)
        | some windows =>
          refine iff_of_true ?_ (by simp)
          change Yields _ (if twice.le windows = true then .error s.invalidDelay else .ok ())
          split
          · exact .refusal hdelay
          · trivial

theorem checkParams_yields (s : Settings) : Yields (fun _ => True) s.checkParams := by
  rw [checkParams]
  split
  · trivial
  · exact .refusal (SettingsError.invalid_ofVariable (by decide))
  · exact .refusal s.invalidDelay_ofVariable

theorem checkParams_eq_ok_iff :
    s.checkParams = .ok () ↔ s.delay.delay ≠ 0 ∧ 3 < s.delay.modulus := by
  rw [checkParams, DelayParams.check]
  by_cases hzero : s.delay.delay = 0
  · simp [hzero]
  by_cases hmodulus : s.delay.modulus ≤ 3
  · simp [hzero, hmodulus]
  · simp [hzero, hmodulus, Nat.lt_of_not_le hmodulus]

theorem checkLeader_yields (s : Settings) : Yields (fun _ => True) s.checkLeader := by
  rw [checkLeader]
  split
  · exact .refusal (SettingsError.missing_ofVariable (by decide))
  split
  · exact .refusal (SettingsError.missing_ofVariable (by decide))
  · trivial

theorem check_yields_iff (hwhole : s.WholeWindows) :
    Yields (fun _ => True) s.check ↔ ¬(s.Usable ∧ s.Overlong) := by
  have hleader : Yields (fun _ => True) (if s.role = .operator then s.checkLeader else .ok ()) := by
    split
    · exact s.checkLeader_yields
    · trivial
  have hinterval : (SettingsError.invalid "DRB_ROUND_INTERVAL_SECS" "0").OfVariable :=
    SettingsError.invalid_ofVariable (by decide)
  have hrate : (SettingsError.invalid "DRB_VDF_SQUARINGS_PER_SEC" "0").OfVariable :=
    SettingsError.invalid_ofVariable (by decide)
  -- Whatever the check of the delay answers, the checks behind it yield.
  have hbehind := (Yields.refuse_iff (p := s.roundInterval.nanoseconds = 0)
    (f := fun _ => if s.role = .operator then s.checkLeader else .ok ()) hinterval).mpr
      fun _ => hleader
  have hdelay (h : s.squaringRate ≠ 0) :=
    (Yields.bind_iff_of_forall (r := s.checkDelay s.squaringRate) fun _ => hbehind).trans
      (checkDelay_yields_iff hwhole h)
  have hsteps : Yields (fun _ => True) s.check ↔
      (s.checkParams = .ok () → s.squaringRate ≠ 0 → ¬s.Overlong) := by
    rw [check, s.checkParams_yields.bind_iff]
    constructor
    · intro h hparams hne
      exact (hdelay hne).mp ((Yields.refuse_iff hrate).mp (h () hparams) hne)
    · intro h _ hparams
      exact (Yields.refuse_iff hrate).mpr fun hne => (hdelay hne).mpr (h hparams hne)
  rw [hsteps, checkParams_eq_ok_iff, Usable]
  simp only [not_and, and_imp]

/-- Loading ends in settings or in the refusal of a variable, unless the variables make
settings whose delay, at their rate and with their windows, needs a span that is too long. -/
theorem load_yields_iff (vars : Variables) :
    Yields (fun _ => True) (load vars) ↔
      ¬∃ s, ofVariables vars = .ok s ∧ s.Usable ∧ s.Overlong := by
  have hread := ofVariables_yields vars
  calc Yields (fun _ => True) (load vars)
      ↔ ∀ s, ofVariables vars = .ok s → Yields (fun _ => True) s.check :=
        hread.bind_iff.trans (forall₂_congr fun _ _ => Yields.bind_iff_of_forall fun _ => trivial)
    _ ↔ ∀ s, ofVariables vars = .ok s → ¬(s.Usable ∧ s.Overlong) :=
        forall₂_congr fun s hs => check_yields_iff (hread.of_ok hs)
    _ ↔ ¬∃ s, ofVariables vars = .ok s ∧ s.Usable ∧ s.Overlong := by
        simp only [not_exists, not_and]

def Variables.ofList (l : List (String × String)) : Variables := fun key => l.lookup key

/-- Nothing bounds the numbers before they are computed with: the longest delay at one
squaring per second has no time, at two per second its time has no double, and the longest
commit window has no sum with another of one second. -/
theorem load_tooLong :
    load (.ofList [("DRB_VDF_DELAY", "18446744073709551615"),
      ("DRB_VDF_SQUARINGS_PER_SEC", "1")]) = .error .spanTooLong ∧
    load (.ofList [("DRB_VDF_DELAY", "18446744073709551615"), ("DRB_VDF_SQUARINGS_PER_SEC", "2"),
      ("DRB_COMMIT_WINDOW_SECS", "18446744073709551615")]) = .error .spanTooLong ∧
    load (.ofList [("DRB_COMMIT_WINDOW_SECS", "18446744073709551615"),
      ("DRB_COS_WINDOW_SECS", "1")]) = .error .spanTooLong ∧
    ¬∀ vars, Yields (fun _ => True) (load vars) := by
  have honce : load (.ofList [("DRB_VDF_DELAY", "18446744073709551615"),
      ("DRB_VDF_SQUARINGS_PER_SEC", "1")]) = .error .spanTooLong := rfl
  refine ⟨honce, rfl, rfl, fun h => ?_⟩
  have hyields := h (.ofList [("DRB_VDF_DELAY", "18446744073709551615"),
    ("DRB_VDF_SQUARINGS_PER_SEC", "1")])
  rw [honce] at hyields
  exact hyields

end Settings

end Beacon
