import Beacon.Proofs.Record.Kept
import Beacon.Store.Records

/-
  What happens to the files of a data directory. Files of different keys have different
  names, and no file has the name of a temporary one, so that replacing a file leaves all
  others alone. A replacement that fails leaves the file itself alone too (`replaceFile_spec`).
-/

namespace Beacon

theorem Address.text_injective {a b : Address} (h : a.text = b.text) : a = b := by
  have hparse := congrArg Address.parse h
  rwa [Address.parse_text, Address.parse_text, Except.ok.injEq] at hparse

/-! ## Names -/

namespace FileKey

/-- The first letters of a name tell what the file is for. -/
def initials : FileKey → List Char
  | .commitment _ => ['c', 'o', 'm']
  | .participant _ _ => ['l', 'e', 'a']
  | .order _ => ['r', 'e', 'v']
  | .addressBook => ['r', 'e', 'g']
  | .latestRound => ['l', 'a', 't']
  | .privateKey => ['n', 'o', 'd']

theorem take_stem (k : FileKey) : k.stem.toList.take 3 = k.initials := by
  unfold stem initials
  cases k <;> simp

theorem decimal_append {m n : Nat} {s t : List Char}
    (h : Numeral.decimal m ++ '_' :: s = Numeral.decimal n ++ '_' :: t) : m = n ∧ s = t := by
  have hmark (u : List Char) : Json.Undigited ('_' :: u) := by
    rintro c hc
    cases hc
    rfl
  have hdigits := congrArg (List.takeWhile Json.isDigit) h
  rw [Json.takeWhile_isDigit (fun c hc => Json.isDigit_of_mem_decimal hc) (hmark s),
    Json.takeWhile_isDigit (fun c hc => Json.isDigit_of_mem_decimal hc) (hmark t)] at hdigits
  rw [hdigits] at h
  exact ⟨Numeral.decimalText_injective (congrArg String.ofList hdigits),
    (List.cons.inj (List.append_cancel_left h)).2⟩

theorem stem_injective {k k' : FileKey} (h : k.stem = k'.stem) : k = k' := by
  have hinitials : k.initials = k'.initials := by rw [← take_stem, ← take_stem, h]
  cases k with
  | commitment round =>
    cases k' with
    | commitment round' =>
      have h : "commit_" ++ Numeral.decimalText round.toNat =
        "commit_" ++ Numeral.decimalText round'.toNat := h
      rw [String.append_right_inj] at h
      rw [UInt64.toNat_inj.mp (Numeral.decimalText_injective h)]
    | _ => exact absurd hinitials (by simp [initials])
  | participant round operator =>
    cases k' with
    | participant round' operator' =>
      have h : "leader_commit_" ++ Numeral.decimalText round.toNat ++ "_" ++ operator.text =
        "leader_commit_" ++ Numeral.decimalText round'.toNat ++ "_" ++ operator'.text := h
      simp only [String.append_assoc, String.append_right_inj] at h
      have hlist := congrArg String.toList h
      simp only [String.toList_append, Numeral.decimalText, String.toList_ofList] at hlist
      obtain ⟨hround, hoperator⟩ := decimal_append hlist
      rw [UInt64.toNat_inj.mp hround, Address.text_injective (String.toList_inj.mp hoperator)]
    | _ => exact absurd hinitials (by simp [initials])
  | order round =>
    cases k' with
    | order round' =>
      have h : "reveal_order_" ++ Numeral.decimalText round.toNat =
        "reveal_order_" ++ Numeral.decimalText round'.toNat := h
      rw [String.append_right_inj] at h
      rw [UInt64.toNat_inj.mp (Numeral.decimalText_injective h)]
    | _ => exact absurd hinitials (by simp [initials])
  | addressBook =>
    cases k' with
    | addressBook => rfl
    | _ => exact absurd hinitials (by simp [initials])
  | latestRound =>
    cases k' with
    | latestRound => rfl
    | _ => exact absurd hinitials (by simp [initials])
  | privateKey =>
    cases k' with
    | privateKey => rfl
    | _ => exact absurd hinitials (by simp [initials])

/-- The last letter of a name; it is another one for temporary files. -/
theorem getLast?_name (k : FileKey) :
    k.name.toList.getLast? = some (if k = .privateKey then 'x' else 'n') := by
  cases k <;> simp [name]

theorem getLast?_temporary (k : FileKey) : k.temporary.toList.getLast? = some 'p' := by
  simp [temporary]

theorem name_injective {k k' : FileKey} (h : k.name = k'.name) : k = k' := by
  have hlast := congrArg (fun s => s.toList.getLast?) h
  simp only [getLast?_name, Option.some.injEq] at hlast
  by_cases hk : k = .privateKey
  · by_cases hk' : k' = .privateKey
    · rw [hk, hk']
    · rw [if_pos hk, if_neg hk'] at hlast
      exact absurd hlast (by decide)
  · by_cases hk' : k' = .privateKey
    · rw [if_neg hk, if_pos hk'] at hlast
      exact absurd hlast (by decide)
    · have hname {k : FileKey} (hk : k ≠ .privateKey) : k.name = k.stem ++ ".json" := by
        cases k with
        | privateKey => exact absurd rfl hk
        | _ => rfl
      rw [hname hk, hname hk', String.append_left_inj] at h
      exact stem_injective h

theorem name_ne_temporary (k k' : FileKey) : k.name ≠ k'.temporary := by
  intro h
  have hlast := congrArg (fun s => s.toList.getLast?) h
  simp only [getLast?_name, getLast?_temporary, Option.some.injEq] at hlast
  split_ifs at hlast
  · exact absurd hlast (by decide)
  · exact absurd hlast (by decide)

end FileKey

/-! ## Single names -/

namespace Disk

variable {d d' : Disk} {name temporary other text : String}

theorem find?_remove (d : Disk) (name other : String) :
    (d.remove name).find? other = if other = name then none else d.find? other := by
  simp only [find?, remove, List.find?_filter]
  split_ifs with hsame
  · subst hsame
    simp
  · congr 1
    refine congrArg (List.find? · d.entries) (funext fun e => ?_)
    by_cases he : e.1 = other
    · simp [he, hsame]
    · simp [he]

theorem find?_put (d : Disk) (name other : String) (e : Entry) :
    (d.put name e).find? other = if other = name then some e else d.find? other := by
  by_cases hsame : other = name
  · simp [find?, put, hsame]
  · have hremoved := find?_remove d name other
    rw [if_neg hsame] at hremoved ⊢
    rw [← hremoved]
    simp [find?, put, Ne.symm hsame]

/-- What a replacement does: all of it, or nothing but to the temporary file. -/
theorem replace_spec {result : Except DiskError Unit} (hne : name ≠ temporary)
    (h : d.replace name temporary text = (d', result)) :
    (∀ other, other ≠ name → other ≠ temporary → d'.find? other = d.find? other) ∧
      (result = .ok () ∧ d'.find? name = some (.file text) ∨
        result = .error .failed ∧ d'.find? name = d.find? name) := by
  -- The temporary file is written, and the replacement fails.
  have hleft (e : Entry) : (∀ other, other ≠ name → other ≠ temporary →
      (d.nextFault.2.put temporary e).find? other = d.find? other) ∧
      (d.nextFault.2.put temporary e).find? name = d.find? name := by
    refine ⟨fun other _ hother => ?_, ?_⟩
    · rw [find?_put, if_neg hother]
      rfl
    · rw [find?_put, if_neg hne]
      rfl
  simp only [replace] at h
  split at h
  · cases h
    exact ⟨fun _ _ _ => rfl, .inr ⟨rfl, rfl⟩⟩
  · split at h
    · cases h
      exact ⟨(hleft _).1, .inr ⟨rfl, (hleft _).2⟩⟩
    · cases h
      exact ⟨(hleft _).1, .inr ⟨rfl, (hleft _).2⟩⟩
    · cases h
      exact ⟨(hleft _).1, .inr ⟨rfl, (hleft _).2⟩⟩
    · rw [rename] at h
      split at h
      · cases h
        exact ⟨(hleft _).1, .inr ⟨rfl, (hleft _).2⟩⟩
      · cases h
        refine ⟨fun other hname hother => ?_, .inl ⟨rfl, by rw [find?_put, if_pos rfl]⟩⟩
        rw [find?_put, if_neg hname, find?_remove, if_neg hother]
        exact (hleft _).1 other hname hother

/-! ## Files by key -/

theorem replaceFile_spec {k : FileKey} {result : Except StoreError Unit}
    (h : d.replaceFile k text = (d', result)) :
    (∀ k', k' ≠ k → d'.find? k'.name = d.find? k'.name) ∧
      (result = .ok () ∧ d'.find? k.name = some (.file text) ∨
        result = .error (.io k.name) ∧ d'.find? k.name = d.find? k.name) := by
  rcases hr : d.replace k.name k.temporary text with ⟨d₁, r⟩
  obtain ⟨hothers, hresult⟩ := replace_spec (FileKey.name_ne_temporary k k) hr
  simp only [replaceFile, hr, Prod.mk.injEq] at h
  obtain ⟨rfl, rfl⟩ := h
  refine ⟨fun k' hk' => hothers k'.name (fun hname => hk' (FileKey.name_injective hname))
    (FileKey.name_ne_temporary k' k), ?_⟩
  rcases hresult with ⟨rfl, hfile⟩ | ⟨rfl, hsame⟩
  · exact .inl ⟨rfl, hfile⟩
  · exact .inr ⟨rfl, hsame⟩

section Records

variable {α : Type} {k : FileKey} {f : Format α}

theorem load_congr (h : d'.find? k.name = d.find? k.name) : d'.load k f = d.load k f := by
  rw [load, load, readFile, readFile, read, read, h]

theorem load_eq (d : Disk) (k : FileKey) (f : Format α) :
    d.load k f = match d.find? k.name with
      | none => .ok none
      | some (.file text) => ((f.parse text).map some).mapError (.corrupt k.name)
      | some .directory => .error (.io k.name) := by
  rw [load, readFile, read]
  rcases d.find? k.name with _ | text | _ <;> rfl

theorem find?_of_load_none (h : d.load k f = .ok none) : d.find? k.name = none := by
  rw [load_eq] at h
  cases hfile : d.find? k.name with
  | none => rfl
  | some e =>
    rw [hfile] at h
    cases e with
    | directory => cases h
    | file text =>
      simp only at h
      cases hparse : f.parse text <;> rw [hparse] at h <;> cases h

theorem find?_of_load_some {a : α} (h : d.load k f = .ok (some a)) :
    ∃ e, d.find? k.name = some e := by
  cases hfile : d.find? k.name with
  | none =>
    rw [load_eq, hfile] at h
    cases h
  | some e => exact ⟨e, rfl⟩

theorem load_of_file {a : α} (ha : f.Keeps a)
    (h : d.find? k.name = some (.file (f.print .pretty a))) : d.load k f = .ok (some a) := by
  rw [load_eq, h]
  simp only [Format.parse_print ha]
  rfl

theorem save_spec (d : Disk) (k : FileKey) (f : Format α) (a : α) :
    (∀ k', k' ≠ k → (d.save k f a).1.find? k'.name = d.find? k'.name) ∧
      ((d.save k f a).2 = .ok () ∧
          (d.save k f a).1.find? k.name = some (.file (f.print .pretty a)) ∨
        (d.save k f a).2 = .error (.io k.name) ∧
          (d.save k f a).1.find? k.name = d.find? k.name) :=
  replaceFile_spec rfl

end Records

end Disk

end Beacon
