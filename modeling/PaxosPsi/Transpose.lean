import PaxosPsi.Expansion

/-! The bit transpositions of `Tools.cpp`: the two that move squares of sixteen bits with
byte loads and `movemask`, and the one that swaps halves, quarters and so on in place. A
matrix of 128 rows with `w` blocks each is one flat buffer. -/
namespace PaxosPsi.Transpose
open CountedLoop Memory

def slli_epi64 (a : Block) (imm : Nat) : Block := (a.extractLsb' 64 64 <<< imm) ++ (a.extractLsb' 0 64 <<< imm)

def movemask_epi8 (a : Block) : BitVec 16 := BitVec.ofFnLE fun l : Fin 16 => a.getLsbD (8 * l + 7)

/-- `((u16*)m)[k] = v`. -/
def storeU16 (m : Blocks) (k : Nat) (v : BitVec 16) : Blocks :=
  Function.update m (k / 8) (BitVec.ofFnLE fun c : Fin 128 =>
    if c / 16 = k % 8 then v.getLsbD (c % 16) else (m (k / 8)).getLsbD c)

/-- Bytes `2 * y` and `2 * y + 1` of block `i` of the rows `16 * x` to `16 * x + 15`. -/
def loadSquare (w : Nat) (m : Blocks) (x y i : Nat) : Blocks :=
  blocksOf fun b => bytesOf m (16 * w * (16 * x + b % 16) + 16 * i + (2 * y + b / 16))

def sse_loadSubSquare (m : Blocks) (x y : Nat) : Blocks := loadSquare 1 m x y 0

def sse_loadSubSquarex (m : Blocks) (x y i : Nat) : Blocks := loadSquare 8 m x y i

def sse_transposeSubSquare (out square : Blocks) (x y : Nat) : Blocks :=
  (forLoop 8 (fun j (s : Blocks × Blocks) =>
    (storeU16 (storeU16 s.1 ((16 * x + 7 - j) * 8 + y) (movemask_epi8 (s.2 0)))
      ((16 * x + 15 - j) * 8 + y) (movemask_epi8 (s.2 1)), fun e => slli_epi64 (s.2 e) 1)) (out, square)).1

def sse_transposeSubSquarex (out square : Blocks) (x y i : Nat) : Blocks :=
  let out := forLoop 8 (fun j out =>
    storeU16 out ((x * 16 + 7 - j) * 64 + (i * 8 + y)) (movemask_epi8 (slli_epi64 (square 0) j))) out
  forLoop 8 (fun j out =>
    storeU16 out ((x * 16 + 15 - j) * 64 + (i * 8 + y)) (movemask_epi8 (slli_epi64 (square 1) j))) out

/-- The loops both functions run over their squares: the one on the diagonal first, then
the pairs left of it. -/
def transposeSquares (load : Blocks → Nat → Nat → Blocks) (store : Blocks → Blocks → Nat → Nat → Blocks)
    (m : Blocks) : Blocks :=
  forLoop 8 (fun j m =>
    forLoop j (fun k m => store (store m (load m k j) j k) (load m j k) k j) (store m (load m j j) j j)) m

def sse_transpose128 (inOut : Blocks) : Blocks := transposeSquares sse_loadSubSquare sse_transposeSubSquare inOut

def sse_transpose128x1024 (inOut : Blocks) : Blocks :=
  forLoop 8 (fun i inOut => transposeSquares (fun m x y => sse_loadSubSquarex m x y i)
    (fun out square x y => sse_transposeSubSquarex out square x y i) inOut) inOut

section Squares

theorem slliBit (a : Block) {imm c : Nat} (inside : c < 128) (lane : imm ≤ c % 64) :
    (slli_epi64 a imm).getLsbD c = a.getLsbD (c - imm) := by
  unfold slli_epi64
  rw [BitVec.getLsbD_append]
  by_cases low : c < 64
  · have reached : ¬ c < imm := by omega
    simp [low, reached]
  · have high : c - 64 < 64 := by omega
    have reached : ¬ c - 64 < imm := by omega
    have offset : 64 + (c - 64 - imm) = c - imm := by omega
    simp [low, high, reached, offset]

theorem slliSlli (a : Block) (j k : Nat) : slli_epi64 (slli_epi64 a j) k = slli_epi64 a (j + k) := by
  unfold slli_epi64
  have low : ((a.extractLsb' 64 64 <<< j) ++ (a.extractLsb' 0 64 <<< j)).extractLsb' 0 64 = a.extractLsb' 0 64 <<< j := by
    apply BitVec.eq_of_getLsbD_eq
    intro c bound
    rw [BitVec.getLsbD_extractLsb', BitVec.getLsbD_append]
    simp [bound]
  have high : ((a.extractLsb' 64 64 <<< j) ++ (a.extractLsb' 0 64 <<< j)).extractLsb' 64 64 =
      a.extractLsb' 64 64 <<< j := by
    apply BitVec.eq_of_getLsbD_eq
    intro c bound
    have past : ¬ 64 + c < 64 := by omega
    rw [BitVec.getLsbD_extractLsb', BitVec.getLsbD_append]
    simp [bound, past]
  rw [low, high, BitVec.shiftLeft_add, BitVec.shiftLeft_add]

theorem slliZero (a : Block) : slli_epi64 a 0 = a := by
  apply BitVec.eq_of_getLsbD_eq
  intro c bound
  exact slliBit a bound (Nat.zero_le _)

theorem movemaskBit (a : Block) {j l : Nat} (shift : j < 8) (inside : l < 16) :
    (movemask_epi8 (slli_epi64 a j)).getLsbD l = a.getLsbD (8 * l + (7 - j)) := by
  unfold movemask_epi8
  rw [BitVec.getLsbD_ofFnLE, dif_pos inside]
  dsimp only
  rw [slliBit a (by omega) (by omega)]
  congr 1
  omega

theorem storeU16Bit (m : Blocks) (k : Nat) (v : BitVec 16) (a : Nat) {c : Nat} (inside : c < 128) :
    (storeU16 m k v a).getLsbD c = if 8 * a + c / 16 = k then v.getLsbD (c % 16) else (m a).getLsbD c := by
  unfold storeU16
  by_cases here : a = k / 8
  · subst a
    rw [Function.update_self, BitVec.getLsbD_ofFnLE, dif_pos inside]
    dsimp only
    congr 1
    exact propext (by omega)
  · rw [Function.update_of_ne here, if_neg (by omega)]

theorem loadSquareBit (w : Nat) (m : Blocks) (x y : Nat) {i e l k : Nat} (halves : e < 2) (row : l < 16) (bit : k < 8)
    (column : y < 8) : (loadSquare w m x y i e).getLsbD (8 * l + k) =
      (m ((16 * x + l) * w + i)).getLsbD (16 * y + (8 * e + k)) := by
  have inside : 8 * l + k < 128 := by omega
  have byte : 16 * e + (8 * l + k) / 8 = 16 * e + l := by omega
  have lane : (8 * l + k) % 8 = k := by omega
  have rowOf : (16 * e + l) % 16 = l := by omega
  have half : (16 * e + l) / 16 = e := by omega
  have scaled : 16 * w * (16 * x + l) = 16 * ((16 * x + l) * w) := by rw [Nat.mul_assoc, Nat.mul_comm w]
  have blk : (16 * w * (16 * x + l) + 16 * i + (2 * y + e)) / 16 = (16 * x + l) * w + i := by omega
  have offset : (16 * w * (16 * x + l) + 16 * i + (2 * y + e)) % 16 = 2 * y + e := by omega
  have index : 8 * (2 * y + e) + k = 16 * y + (8 * e + k) := by omega
  unfold loadSquare blocksOf
  rw [BitVec.getLsbD_ofFnLE, dif_pos inside]
  dsimp only
  rw [byte, lane, rowOf, half]
  unfold bytesOf
  rw [blk, offset, BitVec.getLsbD_extractLsb', index, decide_eq_true bit, Bool.true_and]

theorem storeColumn {w i y top n : Nat} (v : Nat → BitVec 16) (m : Blocks) (inside : i < w) (column : y < 8)
    (rows : n ≤ top + 1) {r i' c : Nat} (inside' : i' < w) (bit : c < 128) :
    (forLoop n (fun j m => storeU16 m (((top - j) * w + i) * 8 + y) (v j)) m (r * w + i')).getLsbD c =
      if i' = i ∧ c / 16 = y ∧ r ≤ top ∧ top < r + n then (v (top - r)).getLsbD (c % 16)
      else (m (r * w + i')).getLsbD c := by
  induction n with
  | zero => rw [forLoopZero, if_neg (by omega)]
  | succ n ih =>
    rw [forLoopSucc, storeU16Bit _ _ _ _ bit, ih (by omega)]
    by_cases here : 8 * (r * w + i') + c / 16 = ((top - n) * w + i) * 8 + y
    · have same : r * w + i' = (top - n) * w + i := by omega
      obtain ⟨row, rfl⟩ := offsetInjective inside' inside same
      have back : top - r = n := by omega
      rw [if_pos here, if_pos (by omega), back]
    · have apart : ¬ (i' = i ∧ c / 16 = y ∧ r = top - n) := by
        rintro ⟨rfl, own, rfl⟩
        omega
      rw [if_neg here]
      congr 1
      exact propext (by omega)

/-- What storing the transpose of a square into square `x`, `y` of block column `i` writes. -/
def Stores (w i : Nat) (store : Blocks → Blocks → Nat → Nat → Blocks) : Prop :=
  ∀ m square x y, y < 8 → ∀ r i' c, i' < w → c < 128 → (store m square x y (r * w + i')).getLsbD c =
    if i' = i ∧ c / 16 = y ∧ r / 16 = x then (square (r % 16 / 8)).getLsbD (8 * (c % 16) + r % 8)
    else (m (r * w + i')).getLsbD c

theorem storesSubSquarex {i : Nat} (inside : i < 8) :
    Stores 8 i fun m square x y => sse_transposeSubSquarex m square x y i := by
  intro m square x y column r i' c inside' bit
  have offset : ∀ row, row * 64 + (i * 8 + y) = (row * 8 + i) * 8 + y := by omega
  unfold sse_transposeSubSquarex
  simp only [offset]
  rw [storeColumn _ _ inside column (by omega) inside' bit, storeColumn _ _ inside column (by omega) inside' bit]
  by_cases own : i' = i ∧ c / 16 = y ∧ r / 16 = x
  · rw [if_pos own]
    obtain ⟨rfl, rfl, rfl⟩ := own
    by_cases low : r % 16 < 8
    · have half : r % 16 / 8 = 0 := by omega
      have shift : 7 - (r / 16 * 16 + 7 - r) = r % 8 := by omega
      rw [if_neg (by omega), if_pos (by omega), half, movemaskBit _ (by omega) (by omega), shift]
    · have half : r % 16 / 8 = 1 := by omega
      have shift : 7 - (r / 16 * 16 + 15 - r) = r % 8 := by omega
      rw [if_pos (by omega), half, movemaskBit _ (by omega) (by omega), shift]
  · rw [if_neg own, if_neg (by omega), if_neg (by omega)]

theorem storesSubSquare : Stores 1 0 sse_transposeSubSquare := by
  intro m square x y column r i' c inside' bit
  obtain rfl : i' = 0 := by omega
  have passes : ∀ n ≤ 8, ∀ s, s = forLoop n (fun j (s : Blocks × Blocks) =>
      (storeU16 (storeU16 s.1 ((16 * x + 7 - j) * 8 + y) (movemask_epi8 (s.2 0)))
        ((16 * x + 15 - j) * 8 + y) (movemask_epi8 (s.2 1)), fun e => slli_epi64 (s.2 e) 1)) (m, square) →
      (∀ e, s.2 e = slli_epi64 (square e) n) ∧ (s.1 (r * 1 + 0)).getLsbD c =
        if c / 16 = y ∧ r / 16 = x ∧ 8 ≤ r % 8 + n then (square (r % 16 / 8)).getLsbD (8 * (c % 16) + r % 8)
        else (m (r * 1 + 0)).getLsbD c := by
    intro n
    induction n with
    | zero =>
      rintro - s rfl
      refine ⟨fun e => ?_, ?_⟩
      · exact (slliZero _).symm
      · rw [forLoopZero, if_neg (by omega)]
    | succ n ih =>
      rintro bound s rfl
      obtain ⟨shifted, bits⟩ := ih (by omega) _ rfl
      rw [forLoopSucc]
      refine ⟨fun e => ?_, ?_⟩
      · dsimp only
        rw [shifted, slliSlli]
      · dsimp only
        rw [storeU16Bit _ _ _ _ bit, storeU16Bit _ _ _ _ bit, shifted, shifted, bits]
        by_cases own : c / 16 = y ∧ r / 16 = x
        · obtain ⟨rfl, rfl⟩ := own
          by_cases now : r % 8 = 7 - n
          · by_cases low : r % 16 < 8
            · have half : r % 16 / 8 = 0 := by omega
              rw [if_neg (by omega), if_pos (by omega), if_pos (by omega), half, movemaskBit _ (by omega) (by omega), now]
            · have half : r % 16 / 8 = 1 := by omega
              rw [if_pos (by omega), if_pos (by omega), half, movemaskBit _ (by omega) (by omega), now]
          · rw [if_neg (by omega), if_neg (by omega)]
            congr 1
            exact propext (by omega)
        · rw [if_neg (by omega), if_neg (by omega), if_neg (by omega), if_neg (by omega)]
  obtain ⟨-, bits⟩ := passes 8 (Nat.le_refl 8) _ rfl
  refine bits.trans ?_
  congr 1
  exact propext (by omega)

end Squares

section Passes
variable {w i : Nat} {load : Blocks → Nat → Nat → Blocks} {store : Blocks → Blocks → Nat → Nat → Blocks}

/-- What loading square `x`, `y` of block column `i` reads. -/
def Loads (w i : Nat) (load : Blocks → Nat → Nat → Blocks) : Prop :=
  ∀ m x y, y < 8 → ∀ e l k, e < 2 → l < 16 → k < 8 →
    (load m x y e).getLsbD (8 * l + k) = (m ((16 * x + l) * w + i)).getLsbD (16 * y + (8 * e + k))

theorem movedSquare (loads : Loads w i load) (stores : Stores w i store) (m src : Blocks) {x y x' y' : Nat}
    (column : y < 8) (column' : y' < 8) {r i' c : Nat} (inside : i' < w) (bit : c < 128) :
    (store m (load src x' y') x y (r * w + i')).getLsbD c =
      if i' = i ∧ c / 16 = y ∧ r / 16 = x then (src ((16 * x' + c % 16) * w + i)).getLsbD (16 * y' + r % 16)
      else (m (r * w + i')).getLsbD c := by
  have offset : 8 * (r % 16 / 8) + r % 8 = r % 16 := by omega
  rw [stores m _ x y column r i' c inside bit, loads src x' y' column' _ _ _ (by omega) (by omega) (by omega), offset]

def Transposed (w i : Nat) (m out : Blocks) (done : Nat → Nat → Prop) [∀ x y, Decidable (done x y)] : Prop :=
  ∀ r i' c, r < 128 → i' < w → c < 128 → (out (r * w + i')).getLsbD c =
    if i' = i ∧ done (r / 16) (c / 16) then (m (c * w + i)).getLsbD r else (m (r * w + i')).getLsbD c

theorem transposedPair (loads : Loads w i load) (stores : Stores w i store) {m out : Blocks} {j k : Nat} (inside : i < w)
    (diagonal : j < 8) (left : k < j)
    (before : Transposed w i m out fun x y => x < j ∧ y < j ∨ x = j ∧ y = j ∨ x = j ∧ y < k ∨ y = j ∧ x < k) :
    Transposed w i m (store (store out (load out k j) j k) (load out j k) k j)
      fun x y => x < j ∧ y < j ∨ x = j ∧ y = j ∨ x = j ∧ y < k + 1 ∨ y = j ∧ x < k + 1 := by
  intro r i' c row inside' bit
  rw [movedSquare loads stores _ _ diagonal (by omega) inside' bit,
    movedSquare loads stores _ _ (by omega) diagonal inside' bit]
  by_cases upper : i' = i ∧ c / 16 = j ∧ r / 16 = k
  · obtain ⟨rfl, rfl, rfl⟩ := upper
    have rowOf : 16 * (c / 16) + c % 16 = c := by omega
    have bitOf : 16 * (r / 16) + r % 16 = r := by omega
    rw [if_pos ⟨rfl, rfl, rfl⟩, if_pos (by omega), rowOf, bitOf, before c i' r bit inside row, if_neg (by omega)]
  · rw [if_neg upper]
    by_cases lower : i' = i ∧ c / 16 = k ∧ r / 16 = j
    · obtain ⟨rfl, rfl, rfl⟩ := lower
      have rowOf : 16 * (c / 16) + c % 16 = c := by omega
      have bitOf : 16 * (r / 16) + r % 16 = r := by omega
      rw [if_pos ⟨rfl, rfl, rfl⟩, if_pos (by omega), rowOf, bitOf, before c i' r bit inside row, if_neg (by omega)]
    · rw [if_neg lower, before r i' c row inside' bit]
      congr 1
      exact propext (by omega)

theorem transposedSquares (loads : Loads w i load) (stores : Stores w i store) (inside : i < w) (m : Blocks) :
    Transposed w i m (transposeSquares load store m) fun _ _ => True := by
  have passes : ∀ j ≤ 8, Transposed w i m (forLoop j (fun j m =>
      forLoop j (fun k m => store (store m (load m k j) j k) (load m j k) k j) (store m (load m j j) j j)) m)
      fun x y => x < j ∧ y < j := by
    intro j
    induction j with
    | zero =>
      intro _ r i' c _ _ _
      rw [forLoopZero, if_neg (by omega)]
    | succ j ih =>
      intro bound
      have before := ih (by omega)
      rw [forLoopSucc]
      generalize forLoop j (fun j m =>
        forLoop j (fun k m => store (store m (load m k j) j k) (load m j k) k j) (store m (load m j j) j j)) m =
          out at before ⊢
      have pairs : ∀ k ≤ j, Transposed w i m
          (forLoop k (fun k m => store (store m (load m k j) j k) (load m j k) k j) (store out (load out j j) j j))
          fun x y => x < j ∧ y < j ∨ x = j ∧ y = j ∨ x = j ∧ y < k ∨ y = j ∧ x < k := by
        intro k
        induction k with
        | zero =>
          intro _ r i' c row inside' bit
          rw [forLoopZero, movedSquare loads stores _ _ (by omega) (by omega) inside' bit]
          by_cases own : i' = i ∧ c / 16 = j ∧ r / 16 = j
          · have rowOf : 16 * j + c % 16 = c := by omega
            have bitOf : 16 * j + r % 16 = r := by omega
            rw [if_pos own, if_pos (by omega), rowOf, bitOf, before c i r bit inside row, if_neg (by omega)]
          · rw [if_neg own, before r i' c row inside' bit]
            congr 1
            exact propext (by omega)
        | succ k ihk =>
          intro short
          exact transposedPair loads stores inside (by omega) (by omega) (ihk (by omega))
      intro r i' c row inside' bit
      rw [pairs j (Nat.le_refl j) r i' c row inside' bit]
      congr 1
      exact propext (by omega)
  intro r i' c row inside' bit
  have whole := passes 8 (Nat.le_refl 8) r i' c row inside' bit
  refine whole.trans ?_
  congr 1
  exact propext ⟨fun own => ⟨own.1, trivial⟩, fun own => ⟨own.1, by omega, by omega⟩⟩

theorem loadsSubSquare : Loads 1 0 sse_loadSubSquare :=
  fun m x y column _ _ _ halves row bit => loadSquareBit 1 m x y halves row bit column

theorem loadsSubSquarex (i : Nat) : Loads 8 i fun m x y => sse_loadSubSquarex m x y i :=
  fun m x y column _ _ _ halves row bit => loadSquareBit 8 m x y halves row bit column

end Passes

/-- Moving squares in place transposes each of the eight block columns, which is what the
pads are read off. -/
theorem sseTranspose128x1024 (inOut : Blocks) {a : Nat} (inside : a < 1024) :
    sse_transpose128x1024 inOut a = Expansion.sse_transpose128x1024 inOut a := by
  have columns : ∀ n ≤ 8, ∀ r i c, r < 128 → i < 8 → c < 128 →
      (forLoop n (fun i inOut => transposeSquares (fun m x y => sse_loadSubSquarex m x y i)
        (fun out square x y => sse_transposeSubSquarex out square x y i) inOut) inOut (r * 8 + i)).getLsbD c =
      if i < n then (inOut (c * 8 + i)).getLsbD r else (inOut (r * 8 + i)).getLsbD c := by
    intro n
    induction n with
    | zero =>
      intro _ r i c _ _ _
      rw [forLoopZero, if_neg (by omega)]
    | succ n ih =>
      intro bound r i c row column bit
      have next := transposedSquares (loadsSubSquarex n) (storesSubSquarex (by omega)) (by omega : n < 8)
        (forLoop n (fun i inOut => transposeSquares (fun m x y => sse_loadSubSquarex m x y i)
          (fun out square x y => sse_transposeSubSquarex out square x y i) inOut) inOut) r i c row column bit
      rw [forLoopSucc, next]
      by_cases here : i = n
      · subst i
        rw [if_pos (by simp), if_pos (by omega), ih (by omega) c n r bit column row, if_neg (by omega)]
      · rw [if_neg (by simp [here]), ih (by omega) r i c row column bit]
        congr 1
        exact propext (by omega)
  apply BitVec.eq_of_getLsbD_eq
  intro c bit
  have split : a / 8 * 8 + a % 8 = a := by omega
  have read := columns 8 (Nat.le_refl 8) (a / 8) (a % 8) c (by omega) (by omega) bit
  rw [split, if_pos (by omega)] at read
  unfold Expansion.sse_transpose128x1024 superBlkSize
  rw [BitVec.getLsbD_ofFnLE, dif_pos bit]
  exact read

theorem rowFiveTransposed : sse_transpose128x1024 (fun i => BitVec.ofNat 128 i) 5 =
    Expansion.sse_transpose128x1024 (fun i => BitVec.ofNat 128 i) 5 :=
  sseTranspose128x1024 _ (by omega)

section Eklundh

def TRANSPOSE_MASKS128 : List (BitVec 64 × BitVec 64) :=
  [(0x0000000000000000#64, 0xFFFFFFFFFFFFFFFF#64), (0x00000000FFFFFFFF#64, 0x00000000FFFFFFFF#64),
    (0x0000FFFF0000FFFF#64, 0x0000FFFF0000FFFF#64), (0x00FF00FF00FF00FF#64, 0x00FF00FF00FF00FF#64),
    (0x0F0F0F0F0F0F0F0F#64, 0x0F0F0F0F0F0F0F0F#64), (0x3333333333333333#64, 0x3333333333333333#64),
    (0x5555555555555555#64, 0x5555555555555555#64)]

/-- The rows `i1` and `i2` of one pass; a shift by 64 is undefined, so width 64 has a branch of its own. -/
def swapRows (width : Nat) (mask1 mask2 : BitVec 64) (i1 i2 : Nat) (inOut : Blocks) : Blocks :=
  let t1 := (inOut i1).extractLsb' 0 64
  let t2 := (inOut i1).extractLsb' 64 64
  let tt1 := (inOut i2).extractLsb' 0 64
  let tt2 := (inOut i2).extractLsb' 64 64
  if width < 64 then
    let d1 := (t1 &&& mask1) ^^^ ((tt1 &&& mask1) <<< width)
    let d2 := (t2 &&& mask2) ^^^ ((tt2 &&& mask2) <<< width) ^^^ ((tt1 &&& mask1) >>> (64 - width))
    let dd1 := (tt1 &&& ~~~mask1) ^^^ ((t1 &&& ~~~mask1) >>> width) ^^^ ((t2 &&& ~~~mask2) <<< (64 - width))
    let dd2 := (tt2 &&& ~~~mask2) ^^^ ((t2 &&& ~~~mask2) >>> width)
    Function.update (Function.update inOut i1 (d2 ++ d1)) i2 (dd2 ++ dd1)
  else
    let d1 := t1 &&& mask1
    let d2 := (t2 &&& mask2) ^^^ ((tt1 &&& mask1) >>> (64 - width))
    let dd1 := (tt1 &&& ~~~mask1) ^^^ ((t2 &&& ~~~mask2) <<< (64 - width))
    let dd2 := tt2 &&& ~~~mask2
    Function.update (Function.update inOut i1 (d2 ++ d1)) i2 (dd2 ++ dd1)

def swapLevel (width nswaps : Nat) (masks : BitVec 64 × BitVec 64) (inOut : Blocks) : Blocks :=
  forLoop nswaps (fun j inOut => forLoop width (fun k inOut =>
    swapRows width masks.2 masks.1 (k + 2 * width * j) (k + width + 2 * width * j) inOut) inOut) inOut

def eklundh_transpose128 (inOut : Blocks) : Blocks :=
  (forLoop 7 (fun i (s : Nat × Nat × Blocks) =>
    (s.1 / 2, s.2.1 * 2, swapLevel s.1 s.2.1 (TRANSPOSE_MASKS128.getD i (0, 0)) s.2.2)) (64, 1, inOut)).2.2

def widths : List Nat := [64, 32, 16, 8, 4, 2, 1]

theorem widthCases {width : Nat} (listed : width ∈ widths) :
    width = 64 ∨ width = 32 ∨ width = 16 ∨ width = 8 ∨ width = 4 ∨ width = 2 ∨ width = 1 := by
  simpa [widths] using listed

/-- The masks select the columns whose bit `width` is not set. -/
def Selects (width : Nat) (masks : BitVec 64 × BitVec 64) : Prop :=
  ∀ c < 64, masks.2.getLsbD c = decide (c / width % 2 = 0) ∧ masks.1.getLsbD c = decide ((64 + c) / width % 2 = 0)

theorem masksSelect : ∀ i < 7, Selects (widths.getD i 0) (TRANSPOSE_MASKS128.getD i (0, 0)) := by
  unfold Selects
  decide

section Words
variable {w : Nat} {mask : BitVec 64}

theorem shiftedIn (narrow : w = 32 ∨ w = 16 ∨ w = 8 ∨ w = 4 ∨ w = 2 ∨ w = 1)
    (selects : ∀ c < 64, mask.getLsbD c = decide (c / w % 2 = 0)) (t tt : BitVec 64) {c : Nat} (inside : c < 64) :
    ((t &&& mask) ^^^ ((tt &&& mask) <<< w)).getLsbD c = if c / w % 2 = 0 then t.getLsbD c else tt.getLsbD (c - w) := by
  rw [BitVec.getLsbD_xor, BitVec.getLsbD_and, BitVec.getLsbD_shiftLeft, BitVec.getLsbD_and, selects c inside,
    selects (c - w) (by omega)]
  by_cases even : c / w % 2 = 0
  · have none : c < w ∨ (c - w) / w % 2 ≠ 0 := by
      rcases narrow with rfl | rfl | rfl | rfl | rfl | rfl <;> omega
    rcases none with short | odd
    · simp [even, short]
    · simp [even, odd]
  · have back : ¬ c < w ∧ (c - w) / w % 2 = 0 := by
      rcases narrow with rfl | rfl | rfl | rfl | rfl | rfl <;> omega
    simp [even, inside, back.1, back.2]

theorem shiftedOut (narrow : w = 32 ∨ w = 16 ∨ w = 8 ∨ w = 4 ∨ w = 2 ∨ w = 1)
    (selects : ∀ c < 64, mask.getLsbD c = decide (c / w % 2 = 0)) (t tt : BitVec 64) {c : Nat} (inside : c < 64) :
    ((tt &&& ~~~mask) ^^^ ((t &&& ~~~mask) >>> w)).getLsbD c =
      if c / w % 2 = 0 then t.getLsbD (c + w) else tt.getLsbD c := by
  rw [BitVec.getLsbD_xor, BitVec.getLsbD_and, BitVec.getLsbD_ushiftRight, BitVec.getLsbD_and, BitVec.getLsbD_not,
    BitVec.getLsbD_not, selects c inside, Nat.add_comm w c]
  by_cases even : c / w % 2 = 0
  · have next : c + w < 64 ∧ (c + w) / w % 2 ≠ 0 := by
      rcases narrow with rfl | rfl | rfl | rfl | rfl | rfl <;> omega
    rw [selects _ next.1]
    simp only [even, next.1, next.2, decide_true, decide_false, Bool.not_true, Bool.not_false, Bool.and_true,
      Bool.and_false, Bool.false_xor, if_true]
  · by_cases past : c + w < 64
    · have back : (c + w) / w % 2 = 0 := by
        rcases narrow with rfl | rfl | rfl | rfl | rfl | rfl <;> omega
      rw [selects _ past]
      simp only [even, inside, back, decide_true, decide_false, Bool.not_true, Bool.not_false, Bool.and_true,
        Bool.and_false, Bool.xor_false, if_false]
    · rw [BitVec.getLsbD_of_ge t _ (by omega), Bool.false_and, Bool.xor_false]
      simp only [even, inside, decide_true, decide_false, Bool.not_false, Bool.and_true, if_false]

theorem crossDown (narrow : w = 32 ∨ w = 16 ∨ w = 8 ∨ w = 4 ∨ w = 2 ∨ w = 1)
    (selects : ∀ c < 64, mask.getLsbD c = decide (c / w % 2 = 0)) (tt : BitVec 64) :
    (tt &&& mask) >>> (64 - w) = 0#64 := by
  apply BitVec.eq_of_getLsbD_eq
  intro c inside
  rw [BitVec.getLsbD_ushiftRight, BitVec.getLsbD_and, BitVec.getLsbD_zero]
  by_cases past : 64 - w + c < 64
  · have odd : (64 - w + c) / w % 2 ≠ 0 := by
      rcases narrow with rfl | rfl | rfl | rfl | rfl | rfl <;> omega
    simp [selects _ past, odd]
  · rw [BitVec.getLsbD_of_ge _ _ (by omega), Bool.false_and]

theorem crossUp (narrow : w = 32 ∨ w = 16 ∨ w = 8 ∨ w = 4 ∨ w = 2 ∨ w = 1)
    (selects : ∀ c < 64, mask.getLsbD c = decide (c / w % 2 = 0)) (t : BitVec 64) :
    (t &&& ~~~mask) <<< (64 - w) = 0#64 := by
  apply BitVec.eq_of_getLsbD_eq
  intro c inside
  rw [BitVec.getLsbD_shiftLeft, BitVec.getLsbD_and, BitVec.getLsbD_not, BitVec.getLsbD_zero]
  by_cases reached : c < 64 - w
  · simp [reached]
  · have even : (c - (64 - w)) / w % 2 = 0 := by
      rcases narrow with rfl | rfl | rfl | rfl | rfl | rfl <;> omega
    have small : c - (64 - w) < 64 := by omega
    simp [reached, selects _ small, even]

end Words

/-- Column `c` of the two rows of a pair after the pass: they exchange the square above
the diagonal of one with the square below it of the other. -/
theorem swapRowsBit {width : Nat} {masks : BitVec 64 × BitVec 64} (listed : width ∈ widths)
    (selects : Selects width masks) {i1 i2 : Nat} (apart : i1 ≠ i2) (m : Blocks) (a : Nat) {c : Nat} (bit : c < 128) :
    (swapRows width masks.2 masks.1 i1 i2 m a).getLsbD c =
      if a = i1 then if c / width % 2 = 0 then (m i1).getLsbD c else (m i2).getLsbD (c - width)
      else if a = i2 then if c / width % 2 = 0 then (m i1).getLsbD (c + width) else (m i2).getLsbD c
      else (m a).getLsbD c := by
  have low : ∀ r, ∀ k < 64, ((m r).extractLsb' 0 64).getLsbD k = (m r).getLsbD k := by
    intro r k inside
    simp [inside]
  have high : ∀ r, ∀ k < 64, ((m r).extractLsb' 64 64).getLsbD k = (m r).getLsbD (64 + k) := by
    intro r k inside
    simp [inside]
  have rows : ∀ out1 out2 : Block,
      (Function.update (Function.update m i1 out1) i2 out2 a).getLsbD c =
        if a = i1 then out1.getLsbD c else if a = i2 then out2.getLsbD c else (m a).getLsbD c := by
    intro out1 out2
    by_cases first : a = i1
    · rw [if_pos first, first, Function.update_of_ne apart, Function.update_self]
    · by_cases second : a = i2
      · rw [if_neg first, if_pos second, second, Function.update_self]
      · rw [if_neg first, if_neg second, Function.update_of_ne second, Function.update_of_ne first]
  rcases widthCases listed with rfl | narrow
  · have lower : masks.2 = BitVec.allOnes 64 := by
      apply BitVec.eq_of_getLsbD_eq
      intro k inside
      have first : k / 64 % 2 = 0 := by omega
      rw [(selects k inside).1, decide_eq_true first, BitVec.getLsbD_allOnes, decide_eq_true inside]
    have upper : masks.1 = 0#64 := by
      apply BitVec.eq_of_getLsbD_eq
      intro k inside
      have second : ¬ (64 + k) / 64 % 2 = 0 := by omega
      rw [(selects k inside).2, decide_eq_false second, BitVec.getLsbD_zero]
    unfold swapRows
    dsimp only
    rw [if_neg (by omega), lower, upper, rows, BitVec.getLsbD_append, BitVec.getLsbD_append]
    simp only [BitVec.and_allOnes, BitVec.and_zero, BitVec.not_allOnes, BitVec.not_zero, BitVec.zero_xor,
      Nat.sub_self, BitVec.shiftLeft_zero, BitVec.ushiftRight_zero]
    by_cases half : c < 64
    · have even : c / 64 % 2 = 0 := by omega
      rw [if_pos half, if_pos half, if_pos even, if_pos even, low _ _ half, high _ _ half, Nat.add_comm c 64]
    · have odd : ¬ c / 64 % 2 = 0 := by omega
      have inside : c - 64 < 64 := by omega
      have offset : 64 + (c - 64) = c := by omega
      rw [if_neg half, if_neg half, if_neg odd, if_neg odd, low _ _ inside, high _ _ inside, offset]
  · have under : width < 64 := by omega
    have lower : ∀ k < 64, masks.2.getLsbD k = decide (k / width % 2 = 0) := fun k inside => (selects k inside).1
    have upper : ∀ k < 64, masks.1.getLsbD k = decide (k / width % 2 = 0) := by
      intro k inside
      rw [(selects k inside).2]
      congr 1
      rcases narrow with rfl | rfl | rfl | rfl | rfl | rfl <;> exact propext (by omega)
    unfold swapRows
    dsimp only
    rw [if_pos under, crossDown narrow lower, crossUp narrow upper, BitVec.xor_zero, BitVec.xor_zero, rows,
      BitVec.getLsbD_append, BitVec.getLsbD_append]
    by_cases half : c < 64
    · have next : c / width % 2 = 0 → c + width < 64 := by
        rcases narrow with rfl | rfl | rfl | rfl | rfl | rfl <;> omega
      rw [if_pos half, if_pos half, shiftedIn narrow lower _ _ half, shiftedOut narrow lower _ _ half]
      by_cases even : c / width % 2 = 0
      · rw [if_pos even, if_pos even, if_pos even, if_pos even, low _ _ half, low _ _ (next even)]
      · rw [if_neg even, if_neg even, if_neg even, if_neg even, low _ _ half, low _ _ (by omega)]
    · have inside : c - 64 < 64 := by omega
      have parity : (c - 64) / width % 2 = c / width % 2 := by
        rcases narrow with rfl | rfl | rfl | rfl | rfl | rfl <;> omega
      have next : c / width % 2 = 0 → c - 64 + width < 64 := by
        rcases narrow with rfl | rfl | rfl | rfl | rfl | rfl <;> omega
      have back : ¬ c / width % 2 = 0 → 64 + (c - 64 - width) = c - width := by
        rcases narrow with rfl | rfl | rfl | rfl | rfl | rfl <;> omega
      have own : 64 + (c - 64) = c := by omega
      have partner : 64 + (c - 64 + width) = c + width := by omega
      rw [if_neg half, if_neg half, shiftedIn narrow upper _ _ inside, shiftedOut narrow upper _ _ inside, parity]
      by_cases even : c / width % 2 = 0
      · rw [if_pos even, if_pos even, if_pos even, if_pos even, high _ _ inside, high _ _ (next even), own, partner]
      · rw [if_neg even, if_neg even, if_neg even, if_neg even, high _ _ inside, high _ _ (by omega), own, back even]

theorem pairRows {width k : Nat} (listed : width ∈ widths) (inside : k < width) (j : Nat) :
    ((k + 2 * width * j) / width % 2 = 0 ∧ (k + 2 * width * j) / (2 * width) = j ∧ (k + 2 * width * j) % width = k) ∧
    ((k + width + 2 * width * j) / width % 2 = 1 ∧ (k + width + 2 * width * j) / (2 * width) = j ∧
      (k + width + 2 * width * j) % width = k) := by
  rcases widthCases listed with rfl | rfl | rfl | rfl | rfl | rfl | rfl <;> omega

/-- The rows a pass has done hold the bits it moves across the diagonal of their square. -/
def Swapped (width : Nat) (m out : Blocks) (done : Nat → Prop) [DecidablePred done] : Prop :=
  ∀ a c, c < 128 → (out a).getLsbD c =
    if done a ∧ a / width % 2 ≠ c / width % 2 then
      if a / width % 2 = 0 then (m (a + width)).getLsbD (c - width) else (m (a - width)).getLsbD (c + width)
    else (m a).getLsbD c

theorem swappedPair {width : Nat} {masks : BitVec 64 × BitVec 64} (listed : width ∈ widths)
    (selects : Selects width masks) {m out : Blocks} {j k : Nat} (inside : k < width)
    (before : Swapped width m out fun a => a / (2 * width) < j ∨ a / (2 * width) = j ∧ a % width < k) :
    Swapped width m (swapRows width masks.2 masks.1 (k + 2 * width * j) (k + width + 2 * width * j) out)
      fun a => a / (2 * width) < j ∨ a / (2 * width) = j ∧ a % width < k + 1 := by
  obtain ⟨⟨even, own, offset⟩, odd, own', offset'⟩ := pairRows listed inside j
  intro a c bit
  have shifted : c / width % 2 = 0 → c + width < 128 := by
    rcases widthCases listed with rfl | rfl | rfl | rfl | rfl | rfl | rfl <;> omega
  have upper : ∀ c' < 128, (out (k + 2 * width * j)).getLsbD c' = (m (k + 2 * width * j)).getLsbD c' := by
    intro c' inside'
    rw [before _ c' inside', if_neg (by omega)]
  have lower : ∀ c' < 128, (out (k + width + 2 * width * j)).getLsbD c' =
      (m (k + width + 2 * width * j)).getLsbD c' := by
    intro c' inside'
    rw [before _ c' inside', if_neg (by omega)]
  rw [swapRowsBit listed selects (by omega) _ _ bit]
  by_cases first : a = k + 2 * width * j
  · subst first
    have partner : k + 2 * width * j + width = k + width + 2 * width * j := by omega
    rw [if_pos rfl, upper c bit, lower (c - width) (by omega)]
    by_cases column : c / width % 2 = 0
    · rw [if_pos column, if_neg (by omega)]
    · rw [if_neg column, if_pos ⟨by omega, by omega⟩, if_pos even, partner]
  · rw [if_neg first]
    by_cases second : a = k + width + 2 * width * j
    · subst second
      have partner : k + width + 2 * width * j - width = k + 2 * width * j := by omega
      rw [if_pos rfl]
      by_cases column : c / width % 2 = 0
      · rw [if_pos column, upper _ (shifted column), if_pos ⟨by omega, by omega⟩, if_neg (by omega), partner]
      · rw [if_neg column, lower c bit, if_neg (by omega)]
    · have apart : a / (2 * width) = j → a % width ≠ k := by
        rcases widthCases listed with rfl | rfl | rfl | rfl | rfl | rfl | rfl <;> omega
      rw [if_neg second, before _ _ bit]
      congr 1
      exact propext (by omega)

theorem swapLevelBits {width : Nat} {masks : BitVec 64 × BitVec 64} (listed : width ∈ widths)
    (selects : Selects width masks) (m : Blocks) (nswaps : Nat) :
    Swapped width m (swapLevel width nswaps masks m) fun a => a / (2 * width) < nswaps := by
  unfold swapLevel
  induction nswaps with
  | zero =>
    intro a c _
    rw [forLoopZero, if_neg fun crossed => Nat.not_lt_zero _ crossed.1]
  | succ j ih =>
    rw [forLoopSucc]
    generalize forLoop j (fun j inOut => forLoop width (fun k inOut =>
      swapRows width masks.2 masks.1 (k + 2 * width * j) (k + width + 2 * width * j) inOut) inOut) m = out at ih ⊢
    have passes : ∀ k ≤ width, Swapped width m (forLoop k (fun k inOut =>
        swapRows width masks.2 masks.1 (k + 2 * width * j) (k + width + 2 * width * j) inOut) out)
        fun a => a / (2 * width) < j ∨ a / (2 * width) = j ∧ a % width < k := by
      intro k
      induction k with
      | zero =>
        intro _ a c bit
        rw [forLoopZero, ih a c bit]
        congr 1
        exact propext (by omega)
      | succ k ihk =>
        intro short
        exact swappedPair listed selects (by omega) (ihk (by omega))
    have positive : 0 < width := by
      rcases widthCases listed with rfl | rfl | rfl | rfl | rfl | rfl | rfl <;> omega
    intro a c bit
    have within : a % width < width := Nat.mod_lt a positive
    rw [passes width (Nat.le_refl width) a c bit]
    congr 1
    exact propext (by omega)

/-- Rows and columns have exchanged their multiples of `s`. -/
def Mixed (s : Nat) (m out : Blocks) : Prop :=
  ∀ a c, a < 128 → c < 128 → (out a).getLsbD c = (m (c / s * s + a % s)).getLsbD (a / s * s + c % s)

theorem mixedHalf {width : Nat} (listed : width ∈ widths) {m before out : Blocks} (mixed : Mixed (2 * width) m before)
    (swapped : Swapped width before out fun a => a / (2 * width) < 64 / width) : Mixed width m out := by
  intro a c row bit
  have done : a / (2 * width) < 64 / width := by
    rcases widthCases listed with rfl | rfl | rfl | rfl | rfl | rfl | rfl <;> omega
  rw [swapped a c bit]
  by_cases cross : a / width % 2 = c / width % 2
  · have rows : c / (2 * width) * (2 * width) + a % (2 * width) = c / width * width + a % width := by
      rcases widthCases listed with rfl | rfl | rfl | rfl | rfl | rfl | rfl <;> omega
    have columns : a / (2 * width) * (2 * width) + c % (2 * width) = a / width * width + c % width := by
      rcases widthCases listed with rfl | rfl | rfl | rfl | rfl | rfl | rfl <;> omega
    rw [if_neg (by omega), mixed a c row bit, rows, columns]
  · rw [if_pos ⟨done, cross⟩]
    by_cases even : a / width % 2 = 0
    · have bounds : a + width < 128 ∧ c - width < 128 := by
        rcases widthCases listed with rfl | rfl | rfl | rfl | rfl | rfl | rfl <;> omega
      have rows : (c - width) / (2 * width) * (2 * width) + (a + width) % (2 * width) = c / width * width + a % width := by
        rcases widthCases listed with rfl | rfl | rfl | rfl | rfl | rfl | rfl <;> omega
      have columns : (a + width) / (2 * width) * (2 * width) + (c - width) % (2 * width) =
          a / width * width + c % width := by
        rcases widthCases listed with rfl | rfl | rfl | rfl | rfl | rfl | rfl <;> omega
      rw [if_pos even, mixed _ _ bounds.1 bounds.2, rows, columns]
    · have bounds : a - width < 128 ∧ c + width < 128 := by
        rcases widthCases listed with rfl | rfl | rfl | rfl | rfl | rfl | rfl <;> omega
      have rows : (c + width) / (2 * width) * (2 * width) + (a - width) % (2 * width) = c / width * width + a % width := by
        rcases widthCases listed with rfl | rfl | rfl | rfl | rfl | rfl | rfl <;> omega
      have columns : (a - width) / (2 * width) * (2 * width) + (c + width) % (2 * width) =
          a / width * width + c % width := by
        rcases widthCases listed with rfl | rfl | rfl | rfl | rfl | rfl | rfl <;> omega
      rw [if_neg even, mixed _ _ bounds.1 bounds.2, rows, columns]

theorem eklundhMixed (m : Blocks) : Mixed 1 m (eklundh_transpose128 m) := by
  have passes : ∀ i ≤ 7, ∀ s, s = forLoop i (fun i (s : Nat × Nat × Blocks) =>
      (s.1 / 2, s.2.1 * 2, swapLevel s.1 s.2.1 (TRANSPOSE_MASKS128.getD i (0, 0)) s.2.2)) (64, 1, m) →
      s.1 = 64 / 2 ^ i ∧ s.2.1 = 2 ^ i ∧ Mixed (128 / 2 ^ i) m s.2.2 := by
    intro i
    induction i with
    | zero =>
      rintro - s rfl
      refine ⟨rfl, rfl, fun a c row bit => ?_⟩
      have same : c / 128 * 128 + a % 128 = a ∧ a / 128 * 128 + c % 128 = c := by omega
      rw [forLoopZero, pow_zero, Nat.div_one, same.1, same.2]
    | succ i ih =>
      rintro bound s rfl
      obtain ⟨width, nswaps, mixed⟩ := ih (by omega) _ rfl
      rw [forLoopSucc]
      dsimp only
      rw [width, nswaps]
      have last : i < 7 := by omega
      have selects := masksSelect i last
      have widthOf : widths.getD i 0 = 64 / 2 ^ i := by
        interval_cases i <;> rfl
      have listed : 64 / 2 ^ i ∈ widths := by
        interval_cases i <;> decide
      have sizes : 128 / 2 ^ i = 2 * (64 / 2 ^ i) ∧ 128 / 2 ^ (i + 1) = 64 / 2 ^ i ∧ 64 / (64 / 2 ^ i) = 2 ^ i ∧
          64 / 2 ^ i / 2 = 64 / 2 ^ (i + 1) ∧ 2 ^ i * 2 = 2 ^ (i + 1) := by
        interval_cases i <;> decide
      obtain ⟨double, half, swaps, narrower, more⟩ := sizes
      rw [widthOf] at selects
      have swapped := swapLevelBits listed selects (forLoop i (fun i (s : Nat × Nat × Blocks) =>
        (s.1 / 2, s.2.1 * 2, swapLevel s.1 s.2.1 (TRANSPOSE_MASKS128.getD i (0, 0)) s.2.2)) (64, 1, m)).2.2 (2 ^ i)
      rw [double] at mixed
      rw [half]
      refine ⟨narrower, more, mixedHalf listed mixed ?_⟩
      rw [swaps]
      exact swapped
  exact (passes 7 (Nat.le_refl 7) _ rfl).2.2

/-- Both transpositions of 128 rows, by squares and by halving, move bit `c` of row `r` to
bit `r` of row `c`. -/
theorem transposes128 (inOut : Blocks) {r c : Nat} (row : r < 128) (column : c < 128) :
    (sse_transpose128 inOut r).getLsbD c = (inOut c).getLsbD r ∧
      (eklundh_transpose128 inOut r).getLsbD c = (inOut c).getLsbD r := by
  refine ⟨?_, ?_⟩
  · have squares := transposedSquares loadsSubSquare storesSubSquare (by omega) inOut r 0 c row (by omega) column
    rw [if_pos (by simp)] at squares
    simpa [sse_transpose128] using squares
  · have halves := eklundhMixed inOut r c row column
    simpa [Nat.mod_one] using halves

theorem bitsExchanged : (sse_transpose128 (fun i => BitVec.ofNat 128 i) 2).getLsbD 9 = (BitVec.ofNat 128 9).getLsbD 2 ∧
    (eklundh_transpose128 (fun i => BitVec.ofNat 128 i) 2).getLsbD 9 = (BitVec.ofNat 128 9).getLsbD 2 :=
  transposes128 _ (by omega) (by omega)

end Eklundh
end PaxosPsi.Transpose
