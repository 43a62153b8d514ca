import Beacon.Digest.Keccak

/-
  The digests on lists of lanes, with the twenty-five lanes of a round named one by
  one. It is the same permutation (`toList_permute`) and the same sponge
  (`bytes_sponge`), in the form in which the value of a digest is soon computed.
-/

namespace Beacon.Keccak

/-! ## The permutation -/

def roundLanes : List UInt64 → UInt64 → List UInt64
  | [a0, a1, a2, a3, a4, a5, a6, a7, a8, a9, a10, a11, a12, a13, a14, a15, a16, a17, a18, a19,
     a20, a21, a22, a23, a24], c =>
    let c0 := a0 ^^^ a5 ^^^ a10 ^^^ a15 ^^^ a20
    let c1 := a1 ^^^ a6 ^^^ a11 ^^^ a16 ^^^ a21
    let c2 := a2 ^^^ a7 ^^^ a12 ^^^ a17 ^^^ a22
    let c3 := a3 ^^^ a8 ^^^ a13 ^^^ a18 ^^^ a23
    let c4 := a4 ^^^ a9 ^^^ a14 ^^^ a19 ^^^ a24
    let r0 := rotate c0 1
    let r1 := rotate c1 1
    let r2 := rotate c2 1
    let r3 := rotate c3 1
    let r4 := rotate c4 1
    let b0 := rotate (a0 ^^^ c4 ^^^ r1) 0
    let b1 := rotate (a6 ^^^ c0 ^^^ r2) 44
    let b2 := rotate (a12 ^^^ c1 ^^^ r3) 43
    let b3 := rotate (a18 ^^^ c2 ^^^ r4) 21
    let b4 := rotate (a24 ^^^ c3 ^^^ r0) 14
    let b5 := rotate (a3 ^^^ c2 ^^^ r4) 28
    let b6 := rotate (a9 ^^^ c3 ^^^ r0) 20
    let b7 := rotate (a10 ^^^ c4 ^^^ r1) 3
    let b8 := rotate (a16 ^^^ c0 ^^^ r2) 45
    let b9 := rotate (a22 ^^^ c1 ^^^ r3) 61
    let b10 := rotate (a1 ^^^ c0 ^^^ r2) 1
    let b11 := rotate (a7 ^^^ c1 ^^^ r3) 6
    let b12 := rotate (a13 ^^^ c2 ^^^ r4) 25
    let b13 := rotate (a19 ^^^ c3 ^^^ r0) 8
    let b14 := rotate (a20 ^^^ c4 ^^^ r1) 18
    let b15 := rotate (a4 ^^^ c3 ^^^ r0) 27
    let b16 := rotate (a5 ^^^ c4 ^^^ r1) 36
    let b17 := rotate (a11 ^^^ c0 ^^^ r2) 10
    let b18 := rotate (a17 ^^^ c1 ^^^ r3) 15
    let b19 := rotate (a23 ^^^ c2 ^^^ r4) 56
    let b20 := rotate (a2 ^^^ c1 ^^^ r3) 62
    let b21 := rotate (a8 ^^^ c2 ^^^ r4) 55
    let b22 := rotate (a14 ^^^ c3 ^^^ r0) 39
    let b23 := rotate (a15 ^^^ c4 ^^^ r1) 41
    let b24 := rotate (a21 ^^^ c0 ^^^ r2) 2
    [(b0 ^^^ (~~~ b1 &&& b2)) ^^^ c, b1 ^^^ (~~~ b2 &&& b3), b2 ^^^ (~~~ b3 &&& b4),
     b3 ^^^ (~~~ b4 &&& b0), b4 ^^^ (~~~ b0 &&& b1), b5 ^^^ (~~~ b6 &&& b7),
     b6 ^^^ (~~~ b7 &&& b8), b7 ^^^ (~~~ b8 &&& b9), b8 ^^^ (~~~ b9 &&& b5),
     b9 ^^^ (~~~ b5 &&& b6), b10 ^^^ (~~~ b11 &&& b12), b11 ^^^ (~~~ b12 &&& b13),
     b12 ^^^ (~~~ b13 &&& b14), b13 ^^^ (~~~ b14 &&& b10), b14 ^^^ (~~~ b10 &&& b11),
     b15 ^^^ (~~~ b16 &&& b17), b16 ^^^ (~~~ b17 &&& b18), b17 ^^^ (~~~ b18 &&& b19),
     b18 ^^^ (~~~ b19 &&& b15), b19 ^^^ (~~~ b15 &&& b16), b20 ^^^ (~~~ b21 &&& b22),
     b21 ^^^ (~~~ b22 &&& b23), b22 ^^^ (~~~ b23 &&& b24), b23 ^^^ (~~~ b24 &&& b20),
     b24 ^^^ (~~~ b20 &&& b21)]
  | _, _ => []

def permuteLanes (a : List UInt64) : List UInt64 := roundConstants.foldl roundLanes a

theorem ofFn_lanes (f : Fin 25 → UInt64) :
    Vector.ofFn f =
      #v[f 0, f 1, f 2, f 3, f 4, f 5, f 6, f 7, f 8, f 9, f 10, f 11, f 12, f 13, f 14, f 15,
        f 16, f 17, f 18, f 19, f 20, f 21, f 22, f 23, f 24] := by
  -- As lists both sides are soon the same; as vectors they are too long to compare.
  apply Vector.toList_inj.mp
  rw [Vector.toList_ofFn]
  rfl

theorem exists_ofFn (a : State) : ∃ f : Fin 25 → UInt64, Vector.ofFn f = a :=
  ⟨_, Vector.ofFn_getElem⟩

theorem toList_round (a : State) (c : UInt64) : (round a c).toList = roundLanes a.toList c := by
  obtain ⟨f, rfl⟩ := exists_ofFn a
  rw [ofFn_lanes f, round, chi, ofFn_lanes, rhoPi, ofFn_lanes, theta, ofFn_lanes]
  rfl

theorem toList_permute (a : State) : (permute a).toList = permuteLanes a.toList :=
  (List.foldl_hom Vector.toList fun a c => (toList_round a c).symm).symm

/-! ## The sponge -/

def absorbBlockLanes (a : List UInt64) (block : Bytes) : List UInt64 :=
  permuteLanes (List.zipWith (· ^^^ ·) a ((List.range 17).map (blockLane block) ++ List.replicate 8 0))

def absorbLanes : Nat → List UInt64 → Bytes → List UInt64
  | 0, a, _ => a
  | n + 1, a, bs => absorbLanes n (absorbBlockLanes a (bs.take rate)) (bs.drop rate)

def spongeLanes (ending : UInt8) (message : Bytes) : Bytes :=
  ((absorbLanes (message.length / rate + 1) (List.replicate 25 0) (pad ending message)).take 4).flatMap
    fun x => littleEndian 8 x.toNat

theorem toList_absorbBlock (a : State) (block : Bytes) :
    (absorbBlock a block).toList = absorbBlockLanes a.toList block := by
  rw [absorbBlock, toList_permute, absorbBlockLanes]
  refine congrArg permuteLanes ?_
  obtain ⟨f, rfl⟩ := exists_ofFn a
  rw [ofFn_lanes f, ofFn_lanes]
  rfl

theorem toList_absorb (n : Nat) (a : State) (bs : Bytes) :
    (absorb n a bs).toList = absorbLanes n a.toList bs := by
  induction n generalizing a bs with
  | zero => rfl
  | succ n ih => rw [absorb, ih, toList_absorbBlock, absorbLanes]

theorem bytes_firstWord (a : State) :
    (firstWord a).bytes = (a.toList.take 4).flatMap fun x => littleEndian 8 x.toNat := by
  obtain ⟨f, rfl⟩ := exists_ofFn a
  rw [ofFn_lanes f]
  rfl

theorem bytes_sponge (ending : UInt8) (message : Bytes) :
    (sponge ending message).bytes = spongeLanes ending message := by
  rw [sponge, bytes_firstWord, toList_absorb, Vector.toList_replicate, spongeLanes]

end Beacon.Keccak

namespace Beacon

theorem bytes_keccak256 (message : Bytes) :
    (keccak256 message).bytes = Keccak.spongeLanes 0x01 message :=
  Keccak.bytes_sponge 0x01 message

theorem bytes_sha3Pair (left right : Word) :
    (sha3Pair left right).bytes = Keccak.spongeLanes 0x06 (left.bytes ++ right.bytes) :=
  Keccak.bytes_sponge 0x06 _

end Beacon
