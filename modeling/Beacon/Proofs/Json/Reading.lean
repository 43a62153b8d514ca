import Beacon.Json.Format
import Beacon.Proofs.Text.Digits
import Mathlib.Tactic.SplitIfs

/-
  What is written is read back. `Written` holds of the values that formats write: of
  numbers the natural ones, of strings and keys those that escape a text. The text of
  such a value in either layout, with something behind it that is no part of a number,
  is read as the value, and reading ends right behind it (`value_render`).
-/

namespace Beacon.Json

/-! ## Strings -/

theorem unit?_hex4 {n : Nat} (h : n < 65536) :
    unit? (Hex.digit (n / 4096 % 16)) (Hex.digit (n / 256 % 16)) (Hex.digit (n / 16 % 16))
      (Hex.digit (n % 16)) = some n := by
  have hdigit (d : Nat) : Numeral.digitIn? 16 (Hex.digit (d % 16)) = some (d % 16) :=
    Numeral.digitIn?_digit (by omega) (Nat.mod_lt d (by omega))
  simp only [unit?, Numeral.value?, Numeral.valueFrom?, hdigit, Option.bind_some,
    Option.some.injEq]
  omega

theorem unescape_escapeChar (c : Char) (s : List Char) :
    unescape (escapeChar c ++ s) = (unescape s).map (c :: ·) := by
  unfold escapeChar
  split_ifs with hquote hback hn hr ht hb hf hcontrol
  · subst hquote; simp [unescape, shortEscape?]
  · subst hback; simp [unescape, shortEscape?]
  · subst hn; simp [unescape, shortEscape?]
  · subst hr; simp [unescape, shortEscape?]
  · subst ht; simp [unescape, shortEscape?]
  · subst hb; simp [unescape, shortEscape?]
  · subst hf; simp [unescape, shortEscape?]
  · have hunit := unit?_hex4 (n := c.toNat) (by omega)
    have hlow : isLowUnit c.toNat = false := by simp [isLowUnit]; omega
    have hhigh : isHighUnit c.toNat = false := by simp [isHighUnit]; omega
    simp [hex4, unescape, hunit, hlow, hhigh]
  · simp [unescape, hback]

theorem unescape_escape (cs : List Char) : unescape (escape cs) = some cs := by
  induction cs with
  | nil => rfl
  | cons c cs ih =>
    rw [escape, List.flatMap_cons, unescape_escapeChar, ← escape, ih]
    rfl

@[simp] theorem textOf?_escape (s : String) : textOf? (escape s.toList) = some s := by
  simp [textOf?, unescape_escape]

@[simp] theorem text?_ofText (s : String) : (ofText s).text? = some s := textOf?_escape s

theorem isHexDigit_digit (n : Nat) : isHexDigit (Hex.digit (n % 16)) = true := by
  rw [isHexDigit, Hex.value?_digit _ (Nat.mod_lt n (by omega))]
  rfl

theorem stringLexeme?_escapeChar (acc : List Char) (c : Char) (s : List Char) :
    stringLexeme? acc (escapeChar c ++ s) =
      stringLexeme? ((escapeChar c).reverse ++ acc) s := by
  unfold escapeChar
  split_ifs with hquote hback hn hr ht hb hf hcontrol
  · simp [stringLexeme?, shortEscape?]
  · simp [stringLexeme?, shortEscape?]
  · simp [stringLexeme?, shortEscape?]
  · simp [stringLexeme?, shortEscape?]
  · simp [stringLexeme?, shortEscape?]
  · simp [stringLexeme?, shortEscape?]
  · simp [stringLexeme?, shortEscape?]
  · simp [hex4, stringLexeme?, isHexDigit_digit]
  · simp [stringLexeme?, hback, hcontrol]

theorem stringLexeme?_escape (acc cs rest : List Char) :
    stringLexeme? acc (escape cs ++ '"' :: rest) = some (acc.reverse ++ escape cs) := by
  induction cs generalizing acc with
  | nil => simp [escape, stringLexeme?]
  | cons c cs ih =>
    rw [escape, List.flatMap_cons, ← escape, List.append_assoc, stringLexeme?_escapeChar, ih]
    simp

/-! ## Numbers -/

theorem isDigit_digit : ∀ d < 10, isDigit (Hex.digit d) = true := by decide

theorem isDigit_of_mem_decimal {n : Nat} {c : Char} (h : c ∈ Numeral.decimal n) :
    isDigit c = true := by
  obtain ⟨d, hd, rfl⟩ := Numeral.mem_digits (by omega) h
  exact isDigit_digit d hd

/-- Whether a text goes on without a digit. -/
def Undigited (s : List Char) : Prop := ∀ c ∈ s.head?, isDigit c = false

theorem takeWhile_isDigit {ds s : List Char} (hds : ∀ c ∈ ds, isDigit c = true)
    (hs : Undigited s) : (ds ++ s).takeWhile isDigit = ds := by
  rw [List.takeWhile_append_of_pos hds]
  cases s with
  | nil => simp
  | cons c s => simp [hs c rfl]

/-- Whether a text goes on with nothing that could be part of a number. -/
def Delimited (s : List Char) : Prop :=
  ∀ c ∈ s.head?, isDigit c = false ∧ c ≠ '.' ∧ c ≠ 'e' ∧ c ≠ 'E'

theorem Delimited.undigited {s : List Char} (h : Delimited s) : Undigited s :=
  fun c hc => (h c hc).1

theorem delimited_nil : Delimited [] := nofun

theorem delimited_cons {c : Char} {s : List Char}
    (h : isDigit c = false ∧ c ≠ '.' ∧ c ≠ 'e' ∧ c ≠ 'E') : Delimited (c :: s) := by
  rintro d hd
  cases hd
  exact h

theorem fractionPart?_of_delimited {s : List Char} (h : Delimited s) :
    fractionPart? s = some [] := by
  cases s with
  | nil => rfl
  | cons c s =>
    have hc := (h c rfl).2.1
    unfold fractionPart?
    split
    · exact absurd (List.cons.inj ‹_›).1 hc
    · rfl

theorem exponentPart?_of_delimited {s : List Char} (h : Delimited s) :
    exponentPart? s = some [] := by
  cases s with
  | nil => rfl
  | cons c s =>
    have hc := (h c rfl).2.2
    rw [exponentPart?, if_neg (not_or.mpr hc)]

theorem head_decimal (n : Nat) :
    ∃ d < 10, ∃ ds, Numeral.decimal n = Hex.digit d :: ds ∧ (d = 0 → ds = []) := by
  cases hds : Numeral.decimal n with
  | nil => exact absurd hds (Numeral.decimal_ne_nil n)
  | cons c ds =>
    have hc : c ∈ Numeral.decimal n := hds ▸ List.mem_cons_self
    obtain ⟨d, hd, rfl⟩ := Numeral.mem_digits (by omega) hc
    refine ⟨d, hd, ds, rfl, fun h0 => ?_⟩
    by_cases hn : n = 0
    · rw [hn] at hds
      exact (List.cons.inj hds).2.symm
    · have hhead : (Numeral.decimal n).head? ≠ some '0' :=
        Numeral.head_digits_ne_zero (by omega) (by omega) hn
      rw [hds, h0] at hhead
      exact absurd rfl hhead

theorem wholePart?_decimal (n : Nat) {s : List Char} (hs : Undigited s) :
    wholePart? (Numeral.decimal n ++ s) = some (Numeral.decimal n) := by
  obtain ⟨d, hd, ds, hds, hzero⟩ := head_decimal n
  by_cases h0 : d = 0
  · rw [hds, hzero h0, h0]
    rfl
  · have hdigits := takeWhile_isDigit (fun c hc => isDigit_of_mem_decimal (n := n) hc) hs
    have hne : Hex.digit d ≠ '0' := by
      have hall : ∀ d < 10, d ≠ 0 → Hex.digit d ≠ '0' := by decide
      exact hall d hd h0
    unfold wholePart?
    split
    · rename_i heq
      rw [hds] at heq
      exact absurd (List.cons.inj heq).1 hne
    · rw [digits?, hdigits, if_neg (Numeral.decimal_ne_nil n)]

theorem numberLexeme?_decimal (n : Nat) {s : List Char} (hs : Delimited s) :
    numberLexeme? (Numeral.decimal n ++ s) = some (Numeral.decimal n) := by
  have hminus : (Numeral.decimal n ++ s).head? ≠ some '-' := by
    obtain ⟨d, hd, ds, hds, -⟩ := head_decimal n
    have hne : ∀ d < 10, Hex.digit d ≠ '-' := by decide
    simpa [hds] using hne d hd
  simp only [numberLexeme?, if_neg hminus]
  simp [wholePart?_decimal n hs.undigited, fractionPart?_of_delimited hs,
    exponentPart?_of_delimited hs]

/-! ## Scalars -/

theorem scalar_string (cs rest : List Char) :
    scalar ('"' :: (escape cs ++ '"' :: rest)) = (.string (escape cs), rest) := by
  have hlexeme := stringLexeme?_escape [] cs rest
  simp [scalar, hlexeme]

theorem scalar_ofNat (n : Nat) {rest : List Char} (h : Delimited rest) :
    scalar (Numeral.decimal n ++ rest) = (ofNat n, rest) := by
  have hlexeme := numberLexeme?_decimal n h
  obtain ⟨d, hd, ds, hds, -⟩ := head_decimal n
  have hne : ∀ d < 10, Hex.digit d ≠ '"' ∧ Hex.digit d ≠ 'n' ∧ Hex.digit d ≠ 't' ∧
      Hex.digit d ≠ 'f' := by decide
  obtain ⟨hquote, hn, ht, hf⟩ := hne d hd
  rw [hds, List.cons_append] at hlexeme ⊢
  unfold scalar
  split
  · exact absurd (List.cons.inj ‹_›).1 hquote
  · exact absurd (List.cons.inj ‹_›).1 hn
  · exact absurd (List.cons.inj ‹_›).1 ht
  · exact absurd (List.cons.inj ‹_›).1 hf
  · simp [hlexeme, ofNat, hds]

/-! ## Values -/

/-- The values that formats write. -/
inductive Written : Json → Prop where
  | null : Written .null
  | bool (b : Bool) : Written (.bool b)
  | ofNat (n : Nat) : Written (.ofNat n)
  | ofText (s : String) : Written (.ofText s)
  | array {vs : List Json} (h : ∀ v ∈ vs, Written v) : Written (.array vs)
  | object {ms : List (List Char × Json)} (hkeys : ∀ m ∈ ms, ∃ key, m.1 = escape key)
      (h : ∀ m ∈ ms, Written m.2) : Written (.object ms)

/-- A value starts with a character that is no blank and closes nothing. -/
theorem Written.render_eq_cons {v : Json} (h : Written v) (l : Layout) (depth : Nat) :
    ∃ c s, render l depth v = c :: s ∧ isSpace c = false ∧ c ≠ ']' := by
  cases h with
  | null => exact ⟨'n', _, by rw [render], by decide⟩
  | bool b =>
    cases b with
    | false => exact ⟨'f', _, by rw [render], by decide⟩
    | true => exact ⟨'t', _, by rw [render], by decide⟩
  | ofNat n =>
    obtain ⟨d, hd, ds, hds, -⟩ := head_decimal n
    have hall : ∀ d < 10, isSpace (Hex.digit d) = false ∧ Hex.digit d ≠ ']' := by decide
    exact ⟨Hex.digit d, ds, by rw [Json.ofNat, render, hds], hall d hd⟩
  | ofText s => exact ⟨'"', _, by rw [Json.ofText, render], by decide⟩
  | @array vs => cases vs <;> exact ⟨'[', _, by rw [render], by decide⟩
  | @object ms =>
    rcases ms with _ | ⟨⟨key, v⟩, ms⟩ <;> exact ⟨'\x7b', _, by rw [render], by decide⟩

theorem skipSpace_cons {c : Char} {s : List Char} (h : isSpace c = false) :
    skipSpace (c :: s) = c :: s := by
  simp [skipSpace, h]

theorem skipSpace_line (l : Layout) (depth : Nat) (s : List Char) :
    skipSpace (l.line depth ++ s) = skipSpace s := by
  cases l with
  | compact => rfl
  | pretty =>
    have hspace : ∀ c ∈ Layout.pretty.line depth, isSpace c = true := by
      intro c hc
      rcases List.mem_cons.mp hc with rfl | hc
      · rfl
      · rw [List.eq_of_mem_replicate hc]
        rfl
    exact List.dropWhile_append_of_pos hspace

theorem delimited_line (l : Layout) (depth : Nat) {s : List Char} (h : Delimited s) :
    Delimited (l.line depth ++ s) := by
  cases l with
  | compact => exact h
  | pretty => exact delimited_cons (by decide)

theorem delimited_comma (s : List Char) : Delimited (',' :: s) := delimited_cons (by decide)

theorem Written.skipSpace_render {v : Json} (h : Written v) (l : Layout) (depth : Nat)
    (s : List Char) : skipSpace (render l depth v ++ s) = render l depth v ++ s := by
  obtain ⟨c, r, hr, hc, -⟩ := h.render_eq_cons l depth
  rw [hr, List.cons_append, skipSpace_cons hc]

/-- A value that starts with no bracket is a scalar. -/
theorem value_of_scalar {s : List Char} {steps : Nat} (hs : ∀ c ∈ s.head?, c ≠ '[' ∧ c ≠ '\x7b')
    (hsteps : 0 < steps) : value steps s = scalar s := by
  obtain ⟨steps, rfl⟩ := Nat.exists_eq_succ_of_ne_zero (Nat.ne_of_gt hsteps)
  cases s with
  | nil => rfl
  | cons c s =>
    obtain ⟨harray, hobject⟩ := hs c rfl
    rw [value]
    · intro r h
      exact harray (List.cons.inj h).1
    · intro r h
      exact hobject (List.cons.inj h).1

/-- A value is read back at a depth, whatever is behind it. -/
def ReadsBack (l : Layout) (depth : Nat) (v : Json) : Prop :=
  ∀ steps rest, (render l depth v).length ≤ steps → Delimited rest →
    value steps (render l depth v ++ rest) = (v, rest)

theorem items_render {l : Layout} {depth : Nat} {v : Json} {vs : List Json}
    (hvs : ∀ w ∈ v :: vs, Written w ∧ ReadsBack l depth w) {steps : Nat}
    (hsteps : (render l depth v).length + (renderItems l depth vs).length ≤ steps) (outer : Nat)
    (rest : List Char) :
    items (steps + 1) (render l depth v ++
      (renderItems l depth vs ++ (l.line outer ++ ']' :: rest))) = (v :: vs, rest) := by
  induction vs generalizing v steps with
  | nil =>
    have hbehind : Delimited (l.line outer ++ ']' :: rest) :=
      delimited_line l outer (delimited_cons (by decide))
    have hclose : skipSpace (l.line outer ++ ']' :: rest) = ']' :: rest := by
      rw [skipSpace_line, skipSpace_cons (by decide)]
    have hv := (hvs v List.mem_cons_self).2 steps _ (by omega) hbehind
    rw [items, renderItems, List.nil_append, hv]
    simp only [hclose]
  | cons w vs ih =>
    have hw := (hvs w (List.mem_cons_of_mem v List.mem_cons_self)).1
    have hlength : (renderItems l depth (w :: vs)).length =
        1 + ((l.line depth).length + (render l depth w).length +
          (renderItems l depth vs).length) := by
      simp [renderItems]; omega
    obtain ⟨steps, rfl⟩ : ∃ n, steps = n + 1 := ⟨steps - 1, by omega⟩
    have hshort : (render l depth w).length + (renderItems l depth vs).length ≤ steps := by omega
    have hnext := ih (fun u hu => hvs u (List.mem_cons_of_mem v hu)) hshort
    have hv := (hvs v List.mem_cons_self).2 (steps + 1)
      (',' :: (l.line depth ++ render l depth w ++ renderItems l depth vs) ++
        (l.line outer ++ ']' :: rest)) (by omega) (delimited_comma _)
    rw [items, renderItems, hv]
    simp only [List.cons_append, skipSpace_cons (c := ',') (by decide), List.append_assoc,
      skipSpace_line, hw.skipSpace_render, hnext]

theorem skipSpace_colon (l : Layout) (s : List Char) :
    ∃ r, l.colon ++ s = ':' :: r ∧ skipSpace r = skipSpace s := by
  cases l with
  | compact => exact ⟨s, rfl, rfl⟩
  | pretty => exact ⟨' ' :: s, rfl, List.dropWhile_cons_of_pos rfl⟩

section Members

variable {l : Layout} {depth : Nat} {v : Json} {steps : Nat}

theorem scalar_renderMember (key : List Char) (hv : Written v) (hback : ReadsBack l depth v)
    (hsteps : (render l depth v).length ≤ steps) {s : List Char} (hs : Delimited s) :
    ∃ r r', scalar (renderMember l depth (escape key) v ++ s) = (.string (escape key), ':' :: r) ∧
      skipSpace r = r' ∧ value steps r' = (v, s) := by
  obtain ⟨r, hcolon, hr⟩ := skipSpace_colon l (render l depth v ++ s)
  refine ⟨r, render l depth v ++ s, ?_, by rw [hr, hv.skipSpace_render], hback steps s hsteps hs⟩
  have hscalar := scalar_string key (':' :: r)
  rwa [renderMember, List.cons_append, List.append_assoc, List.cons_append, List.append_assoc,
    hcolon]

theorem members_last (key : List Char) (hv : Written v) (hback : ReadsBack l depth v)
    (hsteps : (render l depth v).length ≤ steps) (outer : Nat) (rest : List Char) :
    members (steps + 1) (renderMember l depth (escape key) v ++
      (l.line outer ++ '\x7d' :: rest)) = ([(escape key, v)], rest) := by
  have hbehind : Delimited (l.line outer ++ '\x7d' :: rest) :=
    delimited_line l outer (delimited_cons (by decide))
  have hclose : skipSpace (l.line outer ++ '\x7d' :: rest) = '\x7d' :: rest := by
    rw [skipSpace_line, skipSpace_cons (by decide)]
  obtain ⟨r, r', hscalar, hr, hvalue⟩ := scalar_renderMember key hv hback hsteps hbehind
  rw [members, hscalar]
  simp only [skipSpace_cons (c := ':') (by decide), hr, hvalue, hclose]

theorem members_next (key : List Char) (hv : Written v) (hback : ReadsBack l depth v)
    (hsteps : (render l depth v).length ≤ steps) {s rest : List Char}
    {ms : List (List Char × Json)} (hnext : members steps (skipSpace s) = (ms, rest)) :
    members (steps + 1) (renderMember l depth (escape key) v ++ ',' :: s) =
      ((escape key, v) :: ms, rest) := by
  obtain ⟨r, r', hscalar, hr, hvalue⟩ :=
    scalar_renderMember key hv hback hsteps (delimited_comma s)
  rw [members, hscalar]
  simp only [skipSpace_cons (c := ':') (by decide), skipSpace_cons (c := ',') (by decide), hr,
    hvalue, hnext]

theorem members_render {key : List Char} {ms : List (List Char × Json)}
    (hkeys : ∀ m ∈ (key, v) :: ms, ∃ k, m.1 = escape k)
    (hms : ∀ m ∈ (key, v) :: ms, Written m.2 ∧ ReadsBack l depth m.2)
    (hsteps : (renderMember l depth key v).length + (renderMembers l depth ms).length ≤ steps)
    (outer : Nat) (rest : List Char) :
    members (steps + 1) (renderMember l depth key v ++
      (renderMembers l depth ms ++ (l.line outer ++ '\x7d' :: rest))) = ((key, v) :: ms, rest) := by
  have hmember : (render l depth v).length ≤ (renderMember l depth key v).length := by
    simp [renderMember]; omega
  obtain ⟨hv, hback⟩ : Written v ∧ ReadsBack l depth v := hms _ List.mem_cons_self
  induction ms generalizing key v steps with
  | nil =>
    obtain ⟨k, rfl⟩ : ∃ k, key = escape k := hkeys _ List.mem_cons_self
    rw [renderMembers, List.nil_append]
    exact members_last k hv hback (by omega) outer rest
  | cons m ms ih =>
    obtain ⟨key', w⟩ := m
    obtain ⟨k, rfl⟩ : ∃ k, key = escape k := hkeys _ List.mem_cons_self
    have hms' : ∀ m ∈ (key', w) :: ms, Written m.2 ∧ ReadsBack l depth m.2 :=
      fun u hu => hms u (List.mem_cons_of_mem _ hu)
    obtain ⟨hw, hwback⟩ : Written w ∧ ReadsBack l depth w := hms' _ List.mem_cons_self
    have hlength : (renderMembers l depth ((key', w) :: ms)).length =
        1 + ((l.line depth).length + (renderMember l depth key' w).length +
          (renderMembers l depth ms).length) := by
      simp [renderMembers]; omega
    obtain ⟨steps, rfl⟩ : ∃ n, steps = n + 1 := ⟨steps - 1, by omega⟩
    have hshort : (renderMember l depth key' w).length + (renderMembers l depth ms).length ≤
        steps := by omega
    have hnext := ih (fun u hu => hkeys u (List.mem_cons_of_mem _ hu)) hms' hshort
      (by simp [renderMember]; omega) hw hwback
    rw [renderMembers, List.cons_append]
    refine members_next k hv hback (by omega) ?_
    have hquote (t : List Char) :
        skipSpace (renderMember l depth key' w ++ t) = renderMember l depth key' w ++ t := by
      rw [renderMember, List.cons_append, skipSpace_cons (by decide)]
    rwa [List.append_assoc, List.append_assoc, skipSpace_line, hquote]

end Members

theorem Written.length_render_pos {v : Json} (h : Written v) (l : Layout) (depth : Nat) :
    0 < (render l depth v).length := by
  obtain ⟨c, s, hs, -⟩ := h.render_eq_cons l depth
  rw [hs]
  exact Nat.succ_pos _

theorem value_array {s r rest : List Char} {c : Char} {vs : List Json} {steps : Nat}
    (hs : skipSpace s = c :: r) (hc : c ≠ ']') (hitems : items steps (c :: r) = (vs, rest)) :
    value (steps + 1) ('[' :: s) = (.array vs, rest) := by
  rw [value, hs]
  split
  · exact absurd (List.cons.inj ‹_›).1 hc
  · rw [hitems]

theorem value_object {s r rest : List Char} {ms : List (List Char × Json)} {steps : Nat}
    (hs : skipSpace s = '"' :: r) (hmembers : members steps ('"' :: r) = (ms, rest)) :
    value (steps + 1) ('\x7b' :: s) = (.object ms, rest) := by
  rw [value, hs]
  split
  · exact absurd (List.cons.inj ‹_›).1 (by decide)
  · rw [hmembers]

/-- What is written is read back, at any depth of either layout. -/
theorem value_render {v : Json} (h : Written v) (l : Layout) (depth : Nat) :
    ReadsBack l depth v := by
  intro steps rest hsteps hrest
  have hpos := Nat.lt_of_lt_of_le (h.length_render_pos l depth) hsteps
  -- A bracket and a part cost a step each, and each is a character of the text at least.
  induction h generalizing depth steps rest with
  | null =>
    rw [render, value_of_scalar (by simp) hpos]
    rfl
  | bool b =>
    cases b with
    | false =>
      rw [render, value_of_scalar (by simp) hpos]
      rfl
    | true =>
      rw [render, value_of_scalar (by simp) hpos]
      rfl
  | ofNat n =>
    obtain ⟨d, hd, ds, hds, -⟩ := head_decimal n
    have hbrackets : ∀ d < 10, Hex.digit d ≠ '[' ∧ Hex.digit d ≠ '\x7b' := by decide
    rw [Json.ofNat, render, value_of_scalar _ hpos, scalar_ofNat n hrest, Json.ofNat]
    rw [hds]
    simpa using hbrackets d hd
  | ofText s =>
    rw [Json.ofText, render, List.cons_append, List.append_assoc, List.singleton_append,
      value_of_scalar (by simp) hpos, scalar_string]
  | @array vs h ih =>
    obtain ⟨steps, rfl⟩ := Nat.exists_eq_succ_of_ne_zero (Nat.ne_of_gt hpos)
    cases vs with
    | nil =>
      rw [render]
      rfl
    | cons v vs =>
      have hvs : ∀ w ∈ v :: vs, Written w ∧ ReadsBack l (depth + 1) w := fun w hw =>
        ⟨h w hw, fun steps rest hsteps hrest => ih w hw (depth + 1) steps rest hsteps hrest
          (Nat.lt_of_lt_of_le ((h w hw).length_render_pos l _) hsteps)⟩
      simp only [render, List.length_cons, List.length_append, List.length_nil] at hsteps
      obtain ⟨steps, rfl⟩ : ∃ n, steps = n + 1 := ⟨steps - 1, by omega⟩
      have hshort : (render l (depth + 1) v).length + (renderItems l (depth + 1) vs).length ≤
          steps := by omega
      have hitems := items_render hvs hshort depth rest
      obtain ⟨c, s, hs, hspace, hclose⟩ :=
        (h v List.mem_cons_self).render_eq_cons l (depth + 1)
      rw [hs, List.cons_append] at hitems
      rw [render, List.cons_append]
      refine value_array ?_ hclose hitems
      simp [hs, skipSpace_line, skipSpace_cons hspace]
  | @object ms hkeys h ih =>
    obtain ⟨steps, rfl⟩ := Nat.exists_eq_succ_of_ne_zero (Nat.ne_of_gt hpos)
    cases ms with
    | nil =>
      rw [render]
      rfl
    | cons m ms =>
      obtain ⟨key, v⟩ := m
      have hms : ∀ m ∈ (key, v) :: ms, Written m.2 ∧ ReadsBack l (depth + 1) m.2 := fun m hm =>
        ⟨h m hm, fun steps rest hsteps hrest => ih m hm (depth + 1) steps rest hsteps hrest
          (Nat.lt_of_lt_of_le ((h m hm).length_render_pos l _) hsteps)⟩
      simp only [render, List.length_cons, List.length_append, List.length_nil] at hsteps
      obtain ⟨steps, rfl⟩ : ∃ n, steps = n + 1 := ⟨steps - 1, by omega⟩
      have hshort : (renderMember l (depth + 1) key v).length +
          (renderMembers l (depth + 1) ms).length ≤ steps := by omega
      have hmembers := members_render hkeys hms hshort depth rest
      rw [render, List.cons_append]
      rw [renderMember, List.cons_append] at hmembers
      refine value_object ?_ hmembers
      simp [renderMember, skipSpace_line, skipSpace_cons (c := '"') (by decide)]

/-- The text of a value, in either layout, is read as the value and nothing else. -/
theorem document_print {v : Json} (h : Written v) (l : Layout) :
    document (print l v) = ⟨v, true⟩ := by
  have hspace := h.skipSpace_render l 0 []
  have hvalue := value_render h l 0 (2 * (render l 0 v).length + 2) [] (by omega) delimited_nil
  rw [List.append_nil] at hspace hvalue
  simp only [document, print, String.toList_ofList, hspace, hvalue]
  rfl

end Beacon.Json
