import PaxosPsi.Library.XorAlgebra
import Mathlib

/-! The round of the Rijndael cipher on a state of four columns of four bytes, and the
inverse of each of its steps. Multiplication by a constant is linear, so a circulant of
constants is inverted by another as soon as their product is the unit. -/
namespace PaxosPsi.Rijndael
open XorAlgebra

abbrev State := Fin 4 → Fin 4 → BitVec 8

def xtime (a : BitVec 8) : BitVec 8 := (a <<< 1) ^^^ if a.getLsbD 7 then 0x1b#8 else 0#8

def mulBits : Nat → BitVec 8 → BitVec 8 → BitVec 8
  | 0, _, _ => 0#8
  | n + 1, c, a => xtime (mulBits n (c >>> 1) a) ^^^ if c.getLsbD 0 then a else 0#8

def mul (c a : BitVec 8) : BitVec 8 := mulBits 8 c a

/-- Sixteen bytes a row, the first on the left. -/
def sboxRows : List (BitVec 128) := [
  0x637c777bf26b6fc53001672bfed7ab76#128, 0xca82c97dfa5947f0add4a2af9ca472c0#128,
  0xb7fd9326363ff7cc34a5e5f171d83115#128, 0x04c723c31896059a071280e2eb27b275#128,
  0x09832c1a1b6e5aa0523bd6b329e32f84#128, 0x53d100ed20fcb15b6acbbe394a4c58cf#128,
  0xd0efaafb434d338545f9027f503c9fa8#128, 0x51a3408f929d38f5bcb6da2110fff3d2#128,
  0xcd0c13ec5f974417c4a77e3d645d1973#128, 0x60814fdc222a908846eeb814de5e0bdb#128,
  0xe0323a0a4906245cc2d3ac629195e479#128, 0xe7c8376d8dd54ea96c56f4ea657aae08#128,
  0xba78252e1ca6b4c6e8dd741f4bbd8b8a#128, 0x703eb5664803f60e613557b986c11d9e#128,
  0xe1f8981169d98e949b1e87e9ce5528df#128, 0x8ca1890dbfe6426841992d0fb054bb16#128]

def invSboxRows : List (BitVec 128) := [
  0x52096ad53036a538bf40a39e81f3d7fb#128, 0x7ce339829b2fff87348e4344c4dee9cb#128,
  0x547b9432a6c2233dee4c950b42fac34e#128, 0x082ea16628d924b2765ba2496d8bd125#128,
  0x72f8f66486689816d4a45ccc5d65b692#128, 0x6c704850fdedb9da5e154657a78d9d84#128,
  0x90d8ab008cbcd30af7e45805b8b34506#128, 0xd02c1e8fca3f0f02c1afbd0301138a6b#128,
  0x3a9111414f67dcea97f2cfcef0b4e673#128, 0x96ac7422e7ad3585e2f937e81c75df6e#128,
  0x47f11a711d29c5896fb7620eaa18be1b#128, 0xfc563e4bc6d279209adbc0fe78cd5af4#128,
  0x1fdda8338807c731b11210592780ec5f#128, 0x60517fa919b54a0d2de57a9f93c99cef#128,
  0xa0e03b4dae2af5b0c8ebbb3c83539961#128, 0x172b047eba77d626e169146355210c7d#128]

def substitute (rows : List (BitVec 128)) (a : BitVec 8) : BitVec 8 :=
  (rows.getD (a.toNat / 16) 0#128).extractLsb' (8 * (15 - a.toNat % 16)) 8

def sbox (a : BitVec 8) : BitVec 8 := substitute sboxRows a

def invSbox (a : BitVec 8) : BitVec 8 := substitute invSboxRows a

theorem invSboxSbox (a : BitVec 8) : invSbox (sbox a) = a := by
  revert a
  decide +kernel

section Circulant

theorem xtimeXor (a b : BitVec 8) : xtime (a ^^^ b) = xtime a ^^^ xtime b := by
  unfold xtime
  rw [BitVec.shiftLeft_xor_distrib, BitVec.getLsbD_xor]
  rw [xorXorComm]
  cases a.getLsbD 7 <;> cases b.getLsbD 7 <;> simp

theorem mulXor (c a b : BitVec 8) : mul c (a ^^^ b) = mul c a ^^^ mul c b := by
  have bits : ∀ n c, mulBits n c (a ^^^ b) = mulBits n c a ^^^ mulBits n c b := by
    intro n
    induction n with
    | zero => exact fun _ => BitVec.xor_zero.symm
    | succ n ih =>
      intro c
      rw [mulBits, mulBits, mulBits, ih, xtimeXor, xorXorComm]
      cases c.getLsbD 0 <;> simp
  exact bits 8 c

theorem mulZero (c : BitVec 8) : mul c 0#8 = 0#8 := by
  have twice := mulXor c 0#8 0#8
  rwa [BitVec.xor_self, BitVec.xor_self] at twice

theorem bitsSum (a : BitVec 8) :
    xorSum ((List.range 8).map fun k => if a.getLsbD k then BitVec.twoPow 8 k else 0#8) = a := by
  revert a
  decide +kernel

theorem linearExt {f g : BitVec 8 → BitVec 8} (zeroF : f 0#8 = 0#8) (zeroG : g 0#8 = 0#8)
    (xorF : ∀ a b, f (a ^^^ b) = f a ^^^ f b) (xorG : ∀ a b, g (a ^^^ b) = g a ^^^ g b)
    (basis : ∀ k < 8, f (BitVec.twoPow 8 k) = g (BitVec.twoPow 8 k)) (a : BitVec 8) : f a = g a := by
  conv_lhs => rw [← bitsSum a]
  conv_rhs => rw [← bitsSum a]
  rw [← xorSumMap _ _ f zeroF xorF, ← xorSumMap _ _ g zeroG xorG]
  refine xorSumCongr fun k listed => ?_
  split
  · exact basis k (List.mem_range.mp listed)
  · rw [zeroF, zeroG]

/-- A column times the circulant matrix of the given constants. -/
def circulant (c : Fin 4 → BitVec 8) (a : Fin 4 → BitVec 8) : Fin 4 → BitVec 8 := fun r =>
  xorSum ((List.finRange 4).map fun i => mul (c i) (a (r + i)))

theorem circulantXor (c a b : Fin 4 → BitVec 8) (r : Fin 4) :
    circulant c (fun i => a i ^^^ b i) r = circulant c a r ^^^ circulant c b r := by
  unfold circulant
  rw [← xorSumXor]
  exact xorSumCongr fun i _ => mulXor _ _ _

/-- One circulant undoes another when the products of their constants, added over every
pair of rows `t` apart, fix each single bit for `t` zero and erase it otherwise. -/
theorem circulantInverts {c d : Fin 4 → BitVec 8}
    (unit : ∀ t, ∀ k < 8, xorSum ((List.finRange 4).map fun i => mul (d i) (mul (c (t - i)) (BitVec.twoPow 8 k))) =
      if t = 0 then BitVec.twoPow 8 k else 0#8)
    (a : Fin 4 → BitVec 8) : circulant d (circulant c a) = a := by
  have whole : ∀ (t : Fin 4) (x : BitVec 8),
      xorSum ((List.finRange 4).map fun i => mul (d i) (mul (c (t - i)) x)) = if t = 0 then x else 0#8 := by
    intro t
    refine linearExt ?_ (ite_self _) ?_ ?_ (unit t)
    · simp only [mulZero]
      exact xorSumZero _
    · intro x y
      simp only [mulXor]
      exact xorSumXor _ _ _
    · intro x y
      split
      · rfl
      · exact BitVec.xor_zero.symm
  funext r
  have reindex : ∀ i : Fin 4, mul (d i) (circulant c a (r + i)) =
      xorSum ((List.finRange 4).map fun t => mul (d i) (mul (c (t - i)) (a (r + t)))) := by
    intro i
    unfold circulant
    rw [← xorSumMap _ _ _ (mulZero _) (mulXor _)]
    have shifted : ((List.finRange 4).map fun t => t - i).Perm (List.finRange 4) := by
      revert i
      decide
    have moved := xorSumPerm (shifted.map fun j => mul (d i) (mul (c j) (a (r + i + j))))
    rw [List.map_map] at moved
    refine moved.symm.trans (xorSumCongr fun t _ => ?_)
    have back : r + i + (t - i) = r + t := by rw [add_assoc, add_sub_cancel]
    simp only [Function.comp_apply, back]
  calc circulant d (circulant c a) r
      = xorSum ((List.finRange 4).map fun i =>
          xorSum ((List.finRange 4).map fun t => mul (d i) (mul (c (t - i)) (a (r + t))))) :=
        xorSumCongr fun i _ => reindex i
    _ = xorSum ((List.finRange 4).map fun t =>
          xorSum ((List.finRange 4).map fun i => mul (d i) (mul (c (t - i)) (a (r + t))))) := xorSumSwap _ _ _
    _ = xorSum ((List.finRange 4).map fun t => if t = 0 then a (r + t) else 0#8) :=
        xorSumCongr fun t _ => whole t (a (r + t))
    _ = a r := by simp [List.finRange]

end Circulant

section Steps

def shiftRows (s : State) : State := fun c r => s (c + r) r

def invShiftRows (s : State) : State := fun c r => s (c - r) r

def subBytes (s : State) : State := fun c r => sbox (s c r)

def invSubBytes (s : State) : State := fun c r => invSbox (s c r)

def mixBytes : Fin 4 → BitVec 8 := ![2#8, 3#8, 1#8, 1#8]

def invMixBytes : Fin 4 → BitVec 8 := ![14#8, 11#8, 13#8, 9#8]

def mixColumns (s : State) : State := fun c => circulant mixBytes (s c)

def invMixColumns (s : State) : State := fun c => circulant invMixBytes (s c)

theorem invShiftRowsShift (s : State) : invShiftRows (shiftRows s) = s := by
  funext c r
  unfold invShiftRows shiftRows
  rw [sub_add_cancel]

theorem invSubBytesSub (s : State) : invSubBytes (subBytes s) = s :=
  funext fun c => funext fun r => invSboxSbox (s c r)

theorem invMixColumnsMix (s : State) : invMixColumns (mixColumns s) = s := by
  funext c
  exact circulantInverts (by decide +kernel) (s c)

theorem invMixColumnsXor (s k : State) (c r : Fin 4) :
    invMixColumns (fun c r => s c r ^^^ k c r) c r = invMixColumns s c r ^^^ invMixColumns k c r :=
  circulantXor invMixBytes (s c) (k c) r

end Steps

section Words

def bytes (b : BitVec 128) : State := fun c r => b.extractLsb' (8 * (4 * c + r)) 8

def pack (s : State) : BitVec 128 :=
  BitVec.ofFnLE fun k : Fin 128 => (s (Fin.ofNat 4 (k / 32)) (Fin.ofNat 4 (k / 8))).getLsbD (k % 8)

theorem bytesPack (s : State) : bytes (pack s) = s := by
  funext c r
  apply BitVec.eq_of_getLsbD_eq
  intro k bound
  have inside : 8 * (4 * (c : Nat) + r) + k < 128 := by omega
  have column : Fin.ofNat 4 ((8 * (4 * (c : Nat) + r) + k) / 32) = c := Fin.ext (by simp; omega)
  have row : Fin.ofNat 4 ((8 * (4 * (c : Nat) + r) + k) / 8) = r := Fin.ext (by simp; omega)
  have bit : (8 * (4 * (c : Nat) + r) + k) % 8 = k := by omega
  unfold bytes pack
  rw [BitVec.getLsbD_extractLsb', BitVec.getLsbD_ofFnLE, dif_pos inside, decide_eq_true bound, Bool.true_and]
  simp only [column, row, bit]

theorem packBytes (b : BitVec 128) : pack (bytes b) = b := by
  apply BitVec.eq_of_getLsbD_eq
  intro k bound
  have small : k % 8 < 8 := by omega
  have whole : 8 * (4 * (k / 32 % 4) + k / 8 % 4) + k % 8 = k := by omega
  unfold bytes pack
  rw [BitVec.getLsbD_ofFnLE, dif_pos bound, BitVec.getLsbD_extractLsb', decide_eq_true small, Bool.true_and]
  exact congrArg b.getLsbD whole

theorem bytesXor (a b : BitVec 128) : bytes (a ^^^ b) = fun c r => bytes a c r ^^^ bytes b c r :=
  funext fun _ => funext fun _ => BitVec.extractLsb'_xor

theorem packXor (s k : State) : pack (fun c r => s c r ^^^ k c r) = pack s ^^^ pack k := by
  have view := bytesXor (pack s) (pack k)
  rw [bytesPack, bytesPack] at view
  rw [← view, packBytes]

end Words

end PaxosPsi.Rijndael
