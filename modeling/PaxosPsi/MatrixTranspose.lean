import PaxosPsi.Transpose
import PaxosPsi.Prng

/-! `sse_transpose` of `Tools.cpp` for a bit matrix of any size: squares of eight bytes by
sixteen rows, a strip of single bytes below them with the last rows of its last byte left
out, and a strip of fewer than sixteen rows beside both. -/
namespace PaxosPsi.Transpose
open CountedLoop Memory

/-- `MatrixView<u8>`. -/
structure MatrixView where
  bounds0 : Nat
  stride : Nat
  data : Bytes

/-- `*(u16*)out0 = v` for two bytes, `*out0 = v` for one. -/
def storeBytes (bytes : Nat) (out : Bytes) (out0 : Nat) (v : BitVec 16) : Bytes := fun b =>
  if out0 ≤ b ∧ b < out0 + bytes then v.extractLsb' (8 * (b - out0)) 8 else out b

/-- `t.bytes[e][l] = src[l][e]` for the first columns, over zeros. -/
def loadColumns (data : Bytes) (start step columns : Nat) : Blocks :=
  blocksOf fun b => if b % 16 < columns then data (start + b % 16 * step + b / 16) else 0#8

/-- The output pointers, one for each chunk, step from a last row to the row above it. -/
def shaveRows (bytes chunks rem stride out0 : Nat) (out : Bytes) (t : Blocks) : Bytes :=
  (forLoop rem (fun j (s : Bytes × Blocks) =>
    (forLoop chunks (fun e out =>
      storeBytes bytes out (out0 + e * (8 * stride) - j * stride) (movemask_epi8 (s.2 e))) s.1,
      fun e => slli_epi64 (s.2 e) 1)) (out, t)).1

/-- One square: `chunks` bytes of `columns` rows from byte `h` of the rows from `16 * w` on. -/
def moveSquare (inn : MatrixView) (stride bytes columns chunks skip h w : Nat) (out : Bytes) : Bytes :=
  shaveRows bytes chunks (8 - skip) stride (7 * stride + h * (8 * stride) + w * 2 - stride * skip) out
    fun e => slli_epi64 (loadColumns inn.data (h + w * (16 * inn.stride)) inn.stride columns e) skip

def sse_transpose (inn out : MatrixView) : Except Error Bytes :=
  let bitWidth := inn.bounds0
  let subBlockWidth := bitWidth / 16
  let subBlockHight := out.bounds0 / 64
  let leftOverHeight := out.bounds0 % 64
  let leftOverWidth := inn.bounds0 % 16
  if out.stride < (bitWidth + 7) / 8 then .error .rtError
  else if inn.stride * 8 < out.bounds0 then .error .rtError
  else
    let hhEnd := (leftOverHeight + 7) / 8
    let lastSkip := (8 - leftOverHeight % 8) % 8
    let skip := fun hh => if hh = hhEnd - 1 then lastSkip else 0
    let data := forLoop subBlockHight (fun h m =>
      forLoop subBlockWidth (fun w => moveSquare inn out.stride 2 16 8 0 (8 * h) w) m) out.data
    let data := forLoop hhEnd (fun hh m =>
      forLoop subBlockWidth (fun w => moveSquare inn out.stride 2 16 1 (skip hh) (8 * subBlockHight + hh) w) m) data
    if leftOverWidth = 0 then .ok data
    else
      let bytes := if leftOverWidth ≤ 8 then 1 else 2
      let data := forLoop subBlockHight (fun h =>
        moveSquare inn out.stride bytes leftOverWidth 8 0 (8 * h) subBlockWidth) data
      .ok (forLoop hhEnd (fun hh =>
        moveSquare inn out.stride bytes leftOverWidth 1 (skip hh) (8 * subBlockHight + hh) subBlockWidth) data)

section Square
variable {inn : MatrixView} {stride bytes : Nat}

theorem storedBytes {w R r q : Nat} (fits : w * 2 + bytes ≤ stride) (column : q < stride) (out : Bytes) (v : BitVec 16) :
    storeBytes bytes out (R * stride + w * 2) v (r * stride + q) =
      if r = R ∧ w * 2 ≤ q ∧ q < w * 2 + bytes then v.extractLsb' (8 * (q - w * 2)) 8 else out (r * stride + q) := by
  unfold storeBytes
  by_cases here : R * stride + w * 2 ≤ r * stride + q ∧ r * stride + q < R * stride + w * 2 + bytes
  · have same : r * stride + q = R * stride + (r * stride + q - R * stride) := by omega
    obtain ⟨rfl, -⟩ := offsetInjective column (show r * stride + q - R * stride < stride by omega) same
    have offset : r * stride + q - (r * stride + w * 2) = q - w * 2 := by omega
    rw [if_pos here, if_pos (by omega), offset]
  · rw [if_neg here, if_neg]
    rintro ⟨rfl, own⟩
    omega

theorem loadedBit (data : Bytes) (start step columns : Nat) {e l k : Nat} (lane : l < 16) (bit : k < 8) :
    (loadColumns data start step columns e).getLsbD (8 * l + k) =
      (decide (l < columns) && (data (start + l * step + e)).getLsbD k) := by
  have inside : 8 * l + k < 128 := by omega
  have byte : (16 * e + (8 * l + k) / 8) % 16 = l := by omega
  have chunk : (16 * e + (8 * l + k) / 8) / 16 = e := by omega
  have offset : (8 * l + k) % 8 = k := by omega
  unfold loadColumns blocksOf
  rw [BitVec.getLsbD_ofFnLE, dif_pos inside]
  dsimp only
  rw [byte, chunk, offset]
  by_cases column : l < columns
  · rw [if_pos column, decide_eq_true column, Bool.true_and]
  · rw [if_neg column, decide_eq_false column, Bool.false_and, BitVec.getLsbD_zero]

/-- The pointer of chunk `e` after `j` steps. -/
theorem pointerRow {skip j lane : Nat} (row : lane + skip + j = 7) (h e w : Nat) :
    7 * stride + h * (8 * stride) + w * 2 - stride * skip + e * (8 * stride) - j * stride =
      (8 * (h + e) + lane) * stride + w * 2 := by
  have whole : 7 * stride + h * (8 * stride) + w * 2 + e * (8 * stride) =
      (8 * (h + e) + lane) * stride + w * 2 + stride * skip + j * stride := by
    rw [← row]
    ring
  have above : stride * skip ≤ 7 * stride := by
    rw [Nat.mul_comm]
    exact Nat.mul_le_mul_right stride (by omega)
  omega

theorem chunksStored {skip j lane : Nat} (row : lane + skip + j = 7) {h w : Nat} (fits : w * 2 + bytes ≤ stride)
    (out : Bytes) (t : Blocks) (chunks : Nat) {r q : Nat} (column : q < stride) :
    forLoop chunks (fun e out => storeBytes bytes out
        (7 * stride + h * (8 * stride) + w * 2 - stride * skip + e * (8 * stride) - j * stride)
        (movemask_epi8 (t e))) out (r * stride + q) =
      if r % 8 = lane ∧ h ≤ r / 8 ∧ r / 8 < h + chunks ∧ w * 2 ≤ q ∧ q < w * 2 + bytes then
        (movemask_epi8 (t (r / 8 - h))).extractLsb' (8 * (q - w * 2)) 8
      else out (r * stride + q) := by
  simp only [pointerRow row]
  induction chunks with
  | zero => rw [forLoopZero, if_neg (by omega)]
  | succ e ih =>
    rw [forLoopSucc, storedBytes fits column, ih]
    by_cases own : r = 8 * (h + e) + lane ∧ w * 2 ≤ q ∧ q < w * 2 + bytes
    · have chunk : r / 8 - h = e := by omega
      rw [if_pos own, if_pos (by omega), chunk]
    · rw [if_neg own]
      congr 1
      exact propext (by omega)

/-- Bit `k` of byte `q` in row `r` of the transposed matrix. -/
def turnedBit (inn : MatrixView) (r q k : Nat) : Bool :=
  decide (8 * q + k < inn.bounds0) && (inn.data ((8 * q + k) * inn.stride + r / 8)).getLsbD (r % 8)

theorem rowsShaved {chunks skip h w : Nat} (fits : w * 2 + bytes ≤ stride) (out : Bytes) (t : Blocks) {r q : Nat}
    (column : q < stride) : ∀ rem, rem + skip ≤ 8 → shaveRows bytes chunks rem stride
        (7 * stride + h * (8 * stride) + w * 2 - stride * skip) out t (r * stride + q) =
      if (h ≤ r / 8 ∧ r / 8 < h + chunks ∧ 8 ≤ r % 8 + skip + rem ∧ r % 8 < 8 - skip) ∧ w * 2 ≤ q ∧ q < w * 2 + bytes then
        (movemask_epi8 (slli_epi64 (t (r / 8 - h)) (7 - skip - r % 8))).extractLsb' (8 * (q - w * 2)) 8
      else out (r * stride + q) := by
  have passes : ∀ rem, rem + skip ≤ 8 → ∀ s, s = forLoop rem (fun j (s : Bytes × Blocks) =>
      (forLoop chunks (fun e out => storeBytes bytes out
          (7 * stride + h * (8 * stride) + w * 2 - stride * skip + e * (8 * stride) - j * stride)
          (movemask_epi8 (s.2 e))) s.1, fun e => slli_epi64 (s.2 e) 1)) (out, t) →
      (∀ e, s.2 e = slli_epi64 (t e) rem) ∧ s.1 (r * stride + q) =
        if (h ≤ r / 8 ∧ r / 8 < h + chunks ∧ 8 ≤ r % 8 + skip + rem ∧ r % 8 < 8 - skip) ∧
            w * 2 ≤ q ∧ q < w * 2 + bytes then
          (movemask_epi8 (slli_epi64 (t (r / 8 - h)) (7 - skip - r % 8))).extractLsb' (8 * (q - w * 2)) 8
        else out (r * stride + q) := by
    intro rem
    induction rem with
    | zero =>
      rintro - s rfl
      refine ⟨fun e => (slliZero _).symm, ?_⟩
      rw [forLoopZero, if_neg (by omega)]
    | succ j ih =>
      rintro bound s rfl
      obtain ⟨shifted, stored⟩ := ih (by omega) _ rfl
      rw [forLoopSucc]
      refine ⟨fun e => ?_, ?_⟩
      · dsimp only
        rw [shifted, slliSlli]
      · dsimp only
        rw [chunksStored (show 7 - skip - j + skip + j = 7 by omega) fits _ _ chunks column, stored, shifted]
        by_cases own : r % 8 = 7 - skip - j ∧ h ≤ r / 8 ∧ r / 8 < h + chunks ∧ w * 2 ≤ q ∧ q < w * 2 + bytes
        · have shift : 7 - skip - r % 8 = j := by omega
          rw [if_pos own, if_pos (by omega), shift]
        · rw [if_neg own]
          congr 1
          exact propext (by omega)
  exact fun rem bound => (passes rem bound _ rfl).2

theorem squareMoved {columns chunks skip h w : Nat} (few : skip < 8) (narrow : bytes ≤ 2) (fits : w * 2 + bytes ≤ stride)
    (whole : ∀ c < 8 * bytes, c < columns ↔ 16 * w + c < inn.bounds0) (out : Bytes) {r q k : Nat} (column : q < stride)
    (bit : k < 8) : (moveSquare inn stride bytes columns chunks skip h w out (r * stride + q)).getLsbD k =
      if (h ≤ r / 8 ∧ r / 8 < h + chunks ∧ r % 8 < 8 - skip) ∧ w * 2 ≤ q ∧ q < w * 2 + bytes then turnedBit inn r q k
      else (out (r * stride + q)).getLsbD k := by
  unfold moveSquare
  rw [rowsShaved fits _ _ column _ (by omega)]
  by_cases own : (h ≤ r / 8 ∧ r / 8 < h + chunks ∧ r % 8 < 8 - skip) ∧ w * 2 ≤ q ∧ q < w * 2 + bytes
  · have total : skip + (7 - skip - r % 8) = 7 - r % 8 := by omega
    have lane : 8 * (q - w * 2) + k < 16 := by omega
    have back : 7 - (7 - r % 8) = r % 8 := by omega
    have index : 16 * w + (8 * (q - w * 2) + k) = 8 * q + k := by omega
    have address : h + w * (16 * inn.stride) + (8 * (q - w * 2) + k) * inn.stride + (r / 8 - h) =
        (8 * q + k) * inn.stride + r / 8 := by
      have rows : w * (16 * inn.stride) + (8 * (q - w * 2) + k) * inn.stride = (8 * q + k) * inn.stride := by
        rw [← index]
        ring
      omega
    have inside : 8 * (q - w * 2) + k < columns ↔ 8 * q + k < inn.bounds0 := by
      rw [← index]
      exact whole _ (by omega)
    rw [if_pos (by omega), if_pos own, BitVec.getLsbD_extractLsb', decide_eq_true bit, Bool.true_and, slliSlli, total,
      movemaskBit _ (by omega) lane, back, loadedBit _ _ _ _ lane (by omega), address]
    unfold turnedBit
    rw [decide_eq_decide.mpr inside]
  · rw [if_neg (by omega), if_neg own]

end Square
section Strips
variable {inn : MatrixView} {stride : Nat} {m out : Bytes} {done done' : Nat → Nat → Prop}

/-- The bytes done so far hold their part of the transposed matrix, the others what was there. -/
def Turned (inn : MatrixView) (stride : Nat) (m out : Bytes) (done : Nat → Nat → Prop) : Prop :=
  ∀ r q k, q < stride → k < 8 →
    (done r q → (out (r * stride + q)).getLsbD k = turnedBit inn r q k) ∧
    (¬ done r q → (out (r * stride + q)).getLsbD k = (m (r * stride + q)).getLsbD k)

theorem Turned.congr (turned : Turned inn stride m out done) (same : ∀ r q, done' r q ↔ done r q) :
    Turned inn stride m out done' := by
  intro r q k column bit
  rw [same]
  exact turned r q k column bit

/-- A step that does `chunks` bytes from byte `h` of the rows on, without the last `skip` rows,
in the columns from `lo` to `hi`. -/
def Covers (inn : MatrixView) (stride lo hi : Nat) (move : Nat → Nat → Nat → Bytes → Bytes) : Prop :=
  ∀ chunks skip h m out done, skip < 8 → Turned inn stride m out done →
    Turned inn stride m (move chunks skip h out) fun r q =>
      done r q ∨ (h ≤ r / 8 ∧ r / 8 < h + chunks ∧ r % 8 < 8 - skip) ∧ lo ≤ q ∧ q < hi

theorem squareCovers (bytes columns w : Nat) (narrow : bytes ≤ 2) (fits : w * 2 + bytes ≤ stride)
    (whole : ∀ c < 8 * bytes, c < columns ↔ 16 * w + c < inn.bounds0) :
    Covers inn stride (w * 2) (w * 2 + bytes)
      fun chunks skip h => moveSquare inn stride bytes columns chunks skip h w := by
  intro chunks skip h m out done few turned r q k column bit
  rw [squareMoved few narrow fits whole out column bit]
  constructor
  · rintro (before | own)
    · split
      · rfl
      · exact (turned r q k column bit).1 before
    · rw [if_pos own]
  · intro outside
    rw [if_neg fun own => outside (.inr own)]
    exact (turned r q k column bit).2 fun before => outside (.inl before)

theorem squaresCover (fits : (inn.bounds0 + 7) / 8 ≤ stride) : Covers inn stride 0 (inn.bounds0 / 16 * 2)
    fun chunks skip h => forLoop (inn.bounds0 / 16) fun w => moveSquare inn stride 2 16 chunks skip h w := by
  intro chunks skip h m out done few turned
  have passes : ∀ n ≤ inn.bounds0 / 16, Turned inn stride m
      (forLoop n (fun w => moveSquare inn stride 2 16 chunks skip h w) out) fun r q =>
        done r q ∨ (h ≤ r / 8 ∧ r / 8 < h + chunks ∧ r % 8 < 8 - skip) ∧ 0 ≤ q ∧ q < n * 2 := by
    intro n
    induction n with
    | zero => exact fun _ => turned.congr fun r q => or_iff_left (by omega)
    | succ n ih =>
      intro bound
      have moved := squareCovers 2 16 n (Nat.le_refl 2) (show n * 2 + 2 ≤ stride by omega)
        (fun c lane => by omega) chunks skip h m _ _ few (ih (by omega))
      refine moved.congr fun r q => ?_
      rw [or_assoc]
      exact or_congr Iff.rfl (by omega)
  exact passes _ (Nat.le_refl _)

theorem stripsCover {lo hi : Nat} {move : Nat → Nat → Nat → Bytes → Bytes} (covers : Covers inn stride lo hi move)
    (rows : Nat) (turned : Turned inn stride m out done) :
    Turned inn stride m
      (forLoop ((rows % 64 + 7) / 8) (fun hh => move 1
          (if hh = (rows % 64 + 7) / 8 - 1 then (8 - rows % 64 % 8) % 8 else 0) (8 * (rows / 64) + hh))
        (forLoop (rows / 64) (fun h => move 8 0 (8 * h)) out))
      fun r q => done r q ∨ r < rows ∧ lo ≤ q ∧ q < hi := by
  have squares : ∀ n ≤ rows / 64, Turned inn stride m (forLoop n (fun h => move 8 0 (8 * h)) out) fun r q =>
      done r q ∨ r < 64 * n ∧ lo ≤ q ∧ q < hi := by
    intro n
    induction n with
    | zero => exact fun _ => turned.congr fun r q => or_iff_left (by omega)
    | succ n ih =>
      intro bound
      refine (covers 8 0 (8 * n) m _ _ (by decide) (ih (by omega))).congr fun r q => ?_
      rw [or_assoc]
      exact or_congr Iff.rfl (by omega)
  have bytes : ∀ n ≤ (rows % 64 + 7) / 8, Turned inn stride m
      (forLoop n (fun hh => move 1
          (if hh = (rows % 64 + 7) / 8 - 1 then (8 - rows % 64 % 8) % 8 else 0) (8 * (rows / 64) + hh))
        (forLoop (rows / 64) (fun h => move 8 0 (8 * h)) out))
      fun r q => done r q ∨ (r < rows ∧ r < 64 * (rows / 64) + 8 * n) ∧ lo ≤ q ∧ q < hi := by
    intro n
    induction n with
    | zero => exact fun _ => (squares _ (Nat.le_refl _)).congr fun r q => or_congr Iff.rfl (by omega)
    | succ n ih =>
      intro bound
      refine (covers 1 _ (8 * (rows / 64) + n) m _ _ (by split <;> omega) (ih (by omega))).congr fun r q => ?_
      rw [or_assoc]
      refine or_congr Iff.rfl ?_
      split <;> omega
  exact (bytes _ (Nat.le_refl _)).congr fun r q => or_congr Iff.rfl (by omega)

end Strips

theorem anySizeTransposed (inn out : MatrixView) :
    (out.stride < (inn.bounds0 + 7) / 8 ∨ inn.stride * 8 < out.bounds0 → sse_transpose inn out = .error .rtError) ∧
    (¬ (out.stride < (inn.bounds0 + 7) / 8 ∨ inn.stride * 8 < out.bounds0) →
      ∃ data, sse_transpose inn out = .ok data ∧ ∀ r q k, q < out.stride → k < 8 →
        (data (r * out.stride + q)).getLsbD k =
          if r < out.bounds0 ∧ q < (inn.bounds0 + 7) / 8 then
            decide (8 * q + k < inn.bounds0) && (inn.data ((8 * q + k) * inn.stride + r / 8)).getLsbD (r % 8)
          else (out.data (r * out.stride + q)).getLsbD k) := by
  constructor
  · intro refused
    unfold sse_transpose
    dsimp only
    split
    · rfl
    · split
      · rfl
      · omega
  · intro fits
    obtain ⟨wide, tall⟩ := not_or.mp fits
    have start : Turned inn out.stride out.data out.data fun _ _ => False :=
      fun r q k column bit => ⟨False.elim, fun _ => rfl⟩
    have full := stripsCover (squaresCover (Nat.le_of_not_lt wide)) out.bounds0 start
    unfold sse_transpose
    dsimp only
    rw [if_neg wide, if_neg tall]
    by_cases leftOver : inn.bounds0 % 16 = 0
    · rw [if_pos leftOver]
      refine ⟨_, rfl, fun r q k column bit => ?_⟩
      obtain ⟨inside, outside⟩ := full r q k column bit
      split
      · exact inside (by omega)
      · refine outside ?_
        rintro (before | own)
        · exact before
        · omega
    · rw [if_neg leftOver]
      obtain ⟨bytes, bytesIs⟩ : ∃ bytes, bytes = if inn.bounds0 % 16 ≤ 8 then 1 else 2 := ⟨_, rfl⟩
      have last : inn.bounds0 / 16 * 2 + bytes = (inn.bounds0 + 7) / 8 ∧ bytes ≤ 2 := by
        rw [bytesIs]
        split <;> omega
      have side := stripsCover (squareCovers bytes (inn.bounds0 % 16) (inn.bounds0 / 16) last.2
        (show inn.bounds0 / 16 * 2 + bytes ≤ out.stride by omega) fun c lane => by omega) out.bounds0 full
      rw [← bytesIs]
      refine ⟨_, rfl, fun r q k column bit => ?_⟩
      obtain ⟨inside, outside⟩ := side r q k column bit
      split
      · exact inside (by omega)
      · refine outside ?_
        rintro ((before | own) | own)
        · exact before
        · omega
        · omega

theorem threeRowsTransposed :
    (20 < (3 + 7) / 8 ∨ 1 * 8 < 5 → sse_transpose ⟨3, 1, fun _ => 6#8⟩ ⟨5, 20, fun _ => 9#8⟩ = .error .rtError) ∧
    (¬ (20 < (3 + 7) / 8 ∨ 1 * 8 < 5) →
      ∃ data, sse_transpose ⟨3, 1, fun _ => 6#8⟩ ⟨5, 20, fun _ => 9#8⟩ = .ok data ∧ ∀ r q k, q < 20 → k < 8 →
        (data (r * 20 + q)).getLsbD k =
          if r < 5 ∧ q < (3 + 7) / 8 then decide (8 * q + k < 3) && (6#8).getLsbD (r % 8) else (9#8).getLsbD k) :=
  anySizeTransposed ⟨3, 1, fun _ => 6#8⟩ ⟨5, 20, fun _ => 9#8⟩

end PaxosPsi.Transpose
