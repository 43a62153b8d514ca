import Beacon.Delay.Claim
import Beacon.Proofs.Octets
import Beacon.Settings.Basic

/-
  What the bytes of a challenge say. Each of the three values is written in as many words as
  it takes, and nothing says how many these are. So the bytes tell two claims apart if it is
  known where the values end (`eq_of_challengeBytes`), which it is below moduli of one word:
  there every value is one word long.

  Above them a word at the end of one value can as well be the first one of the next, as long
  as no value that is longer than a word starts with zeros. The smallest modulus for which
  two claims share their bytes is the first that needs more than a word
  (`transcript_unambiguous_iff`), and the standard modulus is far above that.
-/

namespace Beacon

/-- How many words a number takes; zero takes one. -/
def wordCount (x : Nat) : Nat := (byteLength x + 31) / 32

theorem length_padToWords (x : Nat) : (padToWords (minimalBytes x)).length = 32 * wordCount x := by
  rw [padToWords, List.length_append, List.length_replicate, minimalBytes, length_bigEndian,
    wordCount]
  omega

theorem eq_of_padToWords {x y : Nat}
    (h : padToWords (minimalBytes x) = padToWords (minimalBytes y)) : x = y := by
  have hvalue := congrArg ofBigEndian h
  rwa [ofBigEndian_padToWords, ofBigEndian_padToWords, ofBigEndian_minimalBytes,
    ofBigEndian_minimalBytes] at hvalue

theorem wordCount_of_lt {x : Nat} (h : x < 2 ^ 256) : wordCount x = 1 := by
  have hbits : x.log2 < 256 := by
    by_cases h0 : x = 0
    · subst h0
      decide
    · exact (Nat.log2_lt h0).mpr h
  rw [wordCount, byteLength]
  omega

namespace DelayClaim

variable {x y v x' y' v' : Nat}

theorem challengeBytes_eq (x y v : Nat) :
    challengeBytes x y v =
      padToWords (minimalBytes x) ++ (padToWords (minimalBytes y) ++ padToWords (minimalBytes v)) := by
  simp [challengeBytes, transcript, Segment.bytes]

theorem eq_of_challengeBytes (h : challengeBytes x y v = challengeBytes x' y' v')
    (hx : wordCount x = wordCount x') (hy : wordCount y = wordCount y') :
    x = x' ∧ y = y' ∧ v = v' := by
  have length_eq {a b : Nat} (hab : wordCount a = wordCount b) :
      (padToWords (minimalBytes a)).length = (padToWords (minimalBytes b)).length := by
    rw [length_padToWords, length_padToWords, hab]
  rw [challengeBytes_eq, challengeBytes_eq] at h
  obtain ⟨hfirst, hrest⟩ := List.append_inj h (length_eq hx)
  obtain ⟨hsecond, hthird⟩ := List.append_inj hrest (length_eq hy)
  exact ⟨eq_of_padToWords hfirst, eq_of_padToWords hsecond, eq_of_padToWords hthird⟩

/-- The words one, zero, one, zero: two of them may be the first value or the last. -/
theorem challengeBytes_shifted : challengeBytes (2 ^ 256) 1 0 = challengeBytes 1 0 (2 ^ 256) := by
  decide +kernel

/-- Values with the same bytes for their challenge are the same exactly if the first two
take as many words. So below a modulus no two claims share their bytes exactly if the
modulus is at most the number of all words. -/
theorem transcript_unambiguous_iff :
    (∀ x y v x' y' v', challengeBytes x y v = challengeBytes x' y' v' →
      ((x = x' ∧ y = y' ∧ v = v') ↔ wordCount x = wordCount x' ∧ wordCount y = wordCount y')) ∧
    ∀ N, (∀ x y v x' y' v', x < N → y < N → v < N → x' < N → y' < N → v' < N →
      challengeBytes x y v = challengeBytes x' y' v' → x = x' ∧ y = y' ∧ v = v') ↔
        N ≤ 2 ^ 256 := by
  refine ⟨fun x y v x' y' v' h => ⟨?_, fun hcount => ?_⟩, fun N => ⟨?_, ?_⟩⟩
  · rintro ⟨rfl, rfl, -⟩
    exact ⟨rfl, rfl⟩
  · exact eq_of_challengeBytes h hcount.1 hcount.2
  · intro hall
    apply Nat.le_of_not_lt
    intro hN
    have hone : 1 < N := Nat.lt_trans (by decide) hN
    have hzero : 0 < N := Nat.zero_lt_of_lt hN
    have heq := hall _ 1 0 1 0 _ hN hone hzero hone hzero hN challengeBytes_shifted
    exact absurd heq.2.1 (by decide)
  · intro hN x y v x' y' v' hx hy _ hx' hy' _ h
    have one_word {a : Nat} (ha : a < N) : wordCount a = 1 :=
      wordCount_of_lt (Nat.lt_of_lt_of_le ha hN)
    exact eq_of_challengeBytes h ((one_word hx).trans (one_word hx').symm)
      ((one_word hy).trans (one_word hy').symm)

/-- Bytes that two claims share, which differ in their first value already, and a modulus for
which there are none. -/
theorem transcript_unambiguous_iff_shifted :
    challengeBytes (2 ^ 256) 1 0 = challengeBytes 1 0 (2 ^ 256) ∧
      ¬(wordCount (2 ^ 256) = wordCount 1 ∧ wordCount 1 = wordCount 0) ∧
      ∀ x y v x' y' v', x < 7 → y < 7 → v < 7 → x' < 7 → y' < 7 → v' < 7 →
        challengeBytes x y v = challengeBytes x' y' v' → x = x' ∧ y = y' ∧ v = v' := by
  obtain ⟨hsame, hbelow⟩ := transcript_unambiguous_iff
  refine ⟨challengeBytes_shifted, fun hcount => ?_, (hbelow 7).mpr (by decide)⟩
  have heq := (hsame _ _ _ _ _ _ challengeBytes_shifted).mpr hcount
  exact absurd heq.2.1 (by decide)

/-- Below the standard modulus there are two different claims that share their bytes, and so
their challenge. -/
theorem shifted_boundaries :
    (2 ^ 256 < DelayParams.standardModulus ∧ 1 < DelayParams.standardModulus ∧
      0 < DelayParams.standardModulus) ∧
      challengeBytes (2 ^ 256) 1 0 = challengeBytes 1 0 (2 ^ 256) ∧
      challenge (2 ^ 256) 1 0 = challenge 1 0 (2 ^ 256) ∧
      ¬(2 ^ 256 = 1 ∧ 1 = 0 ∧ 0 = 2 ^ 256) := by
  refine ⟨by decide +kernel, challengeBytes_shifted, ?_, by decide⟩
  rw [challenge, challenge, challengeBytes_shifted]

end DelayClaim

end Beacon
