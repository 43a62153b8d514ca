import Beacon.Proofs.Octets
import Beacon.RevealOrder
import Mathlib.Algebra.Order.Ring.Int
import Mathlib.Data.List.Nodup
import Mathlib.Data.List.Sort

/-
  The order of reveals is sorted. It names every place once, and of two places the one
  whose first stage is nearer to the combined value comes first, the earlier commit at
  equal distances (`determine_sorted`). There is no other such order, and the place of a
  commit in it is found by looking for it (`determine_unique`).

  The entries are sorted by distance alone, so the tie-break is the stability of the
  sort: among the entries at one distance it leaves the order in which they came.
-/

namespace Beacon.RevealOrder

variable {target value i j k : Nat} {cos : List Word}

/-- Of two places the first is nearer to the target, or as near and earlier. -/
def Ahead (target : Nat) (cos : List Word) (i j : Nat) : Prop :=
  ∃ c d, cos[i]? = some c ∧ cos[j]? = some d ∧
    (distance c.toNat target < distance d.toNat target ∨
      distance c.toNat target = distance d.toNat target ∧ i < j)

/-! ## Distances -/

def difference? (a b : Nat) : Option Nat := if b ≤ a then some (a - b) else none

/-- The distance of a value from the target, by differences that have to be there. -/
def distance? (value target : Nat) : Option Nat :=
  if target < value then difference? value target else difference? target value

theorem distance_spec (value target : Nat) :
    distance? value target = some (distance value target) ∧
      (distance value target : Int) = |(value : Int) - target| := by
  rw [distance?, distance]
  rcases Nat.lt_trichotomy value target with hlt | rfl | hgt
  · rw [if_neg (by omega), if_pos hlt, difference?, if_pos hlt.le, abs_of_neg (by omega)]
    exact ⟨rfl, by omega⟩
  · simp [difference?]
  · rw [if_pos hgt, if_neg (by omega), difference?, if_pos hgt.le, abs_of_pos (by omega)]
    exact ⟨rfl, by omega⟩

theorem distance_lt {n : Nat} (hvalue : value < n) (htarget : target < n) :
    distance value target < n := by
  rw [distance]
  split <;> omega

/-! ## Entries -/

theorem map_snd_entries (target : Nat) (cos : List Word) :
    (entries target cos).map (·.2) = List.range cos.length := by
  apply List.ext_getElem
  · simp [entries]
  · intro i h h'
    simp [entries]

theorem entries_pairwise (target : Nat) (cos : List Word) :
    (entries target cos).Pairwise fun a b => a.2 < b.2 := by
  have h : ((entries target cos).map (·.2)).Pairwise (· < ·) := by
    rw [map_snd_entries]
    exact List.pairwise_lt_range
  exact List.pairwise_map.mp h

theorem mem_entries {e : Nat × Nat} (h : e ∈ entries target cos) :
    ∃ c, cos[e.2]? = some c ∧ e.1 = distance c.toNat target := by
  obtain ⟨i, hi, rfl⟩ := List.mem_mapIdx.mp h
  exact ⟨cos[i], List.getElem?_eq_getElem hi, rfl⟩

/-! ## Sorting -/

theorem nearer_trans (a b c : Nat × Nat) (h : nearer a b = true) (h' : nearer b c = true) :
    nearer a c = true := by
  simp only [nearer, decide_eq_true_eq] at *
  omega

theorem nearer_total (a b : Nat × Nat) : (nearer a b || nearer b a) = true := by
  simp only [nearer, Bool.or_eq_true, decide_eq_true_eq]
  omega

/-- Sorting leaves the entries at one distance in their order. -/
theorem filter_mergeSort (d : Nat) (es : List (Nat × Nat)) :
    (es.mergeSort nearer).filter (·.1 = d) = es.filter (·.1 = d) := by
  have hsorted : (es.filter (·.1 = d)).Pairwise fun a b => nearer a b = true := by
    refine List.pairwise_of_forall_mem_list fun a ha b hb => ?_
    have ha := (List.mem_filter.mp ha).2
    have hb := (List.mem_filter.mp hb).2
    simp only [decide_eq_true_eq] at ha hb
    simp [nearer, ha, hb]
  have hsub := (List.sublist_mergeSort nearer_trans nearer_total hsorted List.filter_sublist).filter
    (·.1 = d)
  simp only [List.filter_filter, Bool.and_self] at hsub
  have hlength := ((List.mergeSort_perm es nearer).filter (·.1 = d)).length_eq
  exact (hsub.eq_of_length hlength.symm).symm

/-- The sorted entries: nearer ones first, those at one distance by place. -/
theorem mergeSort_entries_pairwise (target : Nat) (cos : List Word) :
    ((entries target cos).mergeSort nearer).Pairwise fun a b =>
      a.1 < b.1 ∨ a.1 = b.1 ∧ a.2 < b.2 := by
  rw [List.pairwise_iff_forall_sublist]
  intro a b hab
  have hle : nearer a b = true :=
    List.pairwise_iff_forall_sublist.mp
      (List.pairwise_mergeSort nearer_trans nearer_total (entries target cos)) hab
  simp only [nearer, decide_eq_true_eq] at hle
  rcases Nat.lt_or_eq_of_le hle with hlt | heq
  · exact .inl hlt
  · -- At one distance the pair stands among the entries as it does after sorting.
    have hpair := hab.filter (·.1 = a.1)
    rw [filter_mergeSort] at hpair
    simp only [heq, decide_true, List.filter_cons_of_pos, List.filter_nil] at hpair
    exact .inr ⟨heq, List.pairwise_iff_forall_sublist.mp (entries_pairwise target cos)
      (hpair.trans List.filter_sublist)⟩

theorem determine_sorted (h : cos ≠ []) :
    ∃ order, determine cos = .ok { combined := combine cos, order } ∧
      order.Perm (List.range cos.length) ∧ order.Pairwise (Ahead (combine cos).toNat cos) := by
  refine ⟨((entries (combine cos).toNat cos).mergeSort nearer).map (·.2), ?_, ?_, ?_⟩
  · rw [determine, if_neg h]
  · rw [← map_snd_entries (combine cos).toNat]
    exact (List.mergeSort_perm _ _).map _
  · rw [List.pairwise_map]
    refine (mergeSort_entries_pairwise _ cos).imp_of_mem ?_
    intro a b ha hb hab
    obtain ⟨c, hc, hac⟩ := mem_entries (List.mem_mergeSort.mp ha)
    obtain ⟨d, hd, hbd⟩ := mem_entries (List.mem_mergeSort.mp hb)
    rw [hac, hbd] at hab
    exact ⟨c, d, hc, hd, hab⟩

/-! ## The only order -/

theorem Ahead.asymm (h : Ahead target cos i j) : ¬Ahead target cos j i := by
  rintro ⟨d', c', hd', hc', hlt'⟩
  obtain ⟨c, d, hc, hd, hlt⟩ := h
  obtain rfl : c = c' := Option.some.inj (hc.symm.trans hc')
  obtain rfl : d = d' := Option.some.inj (hd.symm.trans hd')
  omega

theorem eq_of_pairwise_ahead {order order' : List Nat} (hperm : order.Perm order')
    (h : order.Pairwise (Ahead target cos)) (h' : order'.Pairwise (Ahead target cos)) :
    order = order' :=
  hperm.eq_of_pairwise (fun _ _ _ _ hij hji => absurd hji hij.asymm) h h'

theorem positionOf_eq_some {o : RevealOrder} (h : o.order.Nodup) :
    o.positionOf i = some k ↔ o.order[k]? = some i := by
  rw [positionOf, List.findIdx?_eq_some_iff_getElem, List.getElem?_eq_some_iff]
  refine exists_congr fun hk => ?_
  rw [beq_iff_eq]
  constructor
  · exact And.left
  · intro hi
    refine ⟨hi, fun j hj => ?_⟩
    rw [← hi, beq_iff_eq, h.getElem_inj_iff]
    exact Nat.ne_of_lt hj

theorem positionOf_eq_none {o : RevealOrder} : o.positionOf i = none ↔ i ∉ o.order := by
  rw [positionOf, List.findIdx?_eq_none_iff]
  constructor
  · intro h hi
    simpa using h i hi
  · intro h j hj
    rw [beq_eq_false_iff_ne]
    rintro rfl
    exact h hj

/-- For any first stages but none there is an order, whose combined value is the digest of all
of them in commit order. The distances from it are taken without going below zero and are
numbers of 256 bits. The order is the only one that names every place once, each ahead of all
that are farther from the combined value, and of the later ones that are as far. A commit is
found at the place at which the order names it, and no other index is found. -/
theorem determine_unique (h : cos ≠ []) :
    ∃ o, determine cos = .ok o ∧ o.combined = keccak256 (cos.flatMap Octets.bytes) ∧
      (∀ c ∈ cos, distance? c.toNat o.combined.toNat = some (distance c.toNat o.combined.toNat) ∧
        (distance c.toNat o.combined.toNat : Int) = |(c.toNat : Int) - o.combined.toNat| ∧
        distance c.toNat o.combined.toNat < 2 ^ 256) ∧
      (∀ order : List Nat, order = o.order ↔
        order.Perm (List.range cos.length) ∧ order.Pairwise (Ahead o.combined.toNat cos)) ∧
      (∀ k < cos.length, ∃ i, o.order[k]? = some i ∧ o.positionOf i = some k) ∧
      (∀ i k, o.positionOf i = some k ↔ o.order[k]? = some i) ∧
      ∀ i, o.positionOf i = none ↔ cos.length ≤ i := by
  obtain ⟨order, hdetermine, hperm, hsorted⟩ := determine_sorted h
  have hnodup : order.Nodup := hperm.nodup_iff.mpr List.nodup_range
  refine ⟨_, hdetermine, rfl, fun c _ => ?_, fun order' => ?_, fun k hk => ?_,
    fun i k => positionOf_eq_some hnodup, fun i => ?_⟩
  · obtain ⟨hthere, habs⟩ := distance_spec c.toNat (combine cos).toNat
    exact ⟨hthere, habs, distance_lt c.toNat_lt (combine cos).toNat_lt⟩
  · constructor
    · rintro rfl
      exact ⟨hperm, hsorted⟩
    · rintro ⟨hperm', hsorted'⟩
      exact eq_of_pairwise_ahead (hperm'.trans hperm.symm) hsorted' hsorted
  · have hk : k < order.length := by rwa [hperm.length_eq, List.length_range]
    have hget : order[k]? = some order[k] := List.getElem?_eq_getElem hk
    exact ⟨_, hget, (positionOf_eq_some hnodup).mpr hget⟩
  · rw [positionOf_eq_none, hperm.mem_iff, List.mem_range, Nat.not_lt]

theorem determine_unique_ties :
    ∃ o, [Word.ofUInt64 9, .ofUInt64 9, .ofUInt64 9] ≠ [] ∧
      determine [.ofUInt64 9, .ofUInt64 9, .ofUInt64 9] = .ok o ∧ o.order = [0, 1, 2] ∧
      o.positionOf 2 = some 2 ∧ o.positionOf 3 = none := by
  have hsome : [Word.ofUInt64 9, .ofUInt64 9, .ofUInt64 9] ≠ [] := List.cons_ne_nil _ _
  obtain ⟨o, hdetermine, -, -, honly, -, hposition, hnone⟩ := determine_unique hsome
  have horder : [0, 1, 2] = o.order := by
    have hget : ∀ i ∈ [0, 1, 2],
        [Word.ofUInt64 9, .ofUInt64 9, .ofUInt64 9][i]? = some (.ofUInt64 9) := by simp
    have hascending : [0, 1, 2].Pairwise (· < ·) := by decide
    refine (honly [0, 1, 2]).mpr ⟨List.Perm.refl _, hascending.imp_of_mem ?_⟩
    intro i j hi hj hlt
    exact ⟨_, _, hget i hi, hget j hj, .inr ⟨rfl, hlt⟩⟩
  refine ⟨o, hsome, hdetermine, horder.symm, (hposition 2 2).mpr ?_,
    (hnone 3).mpr (Nat.le_refl 3)⟩
  rw [← horder]
  rfl

end Beacon.RevealOrder
