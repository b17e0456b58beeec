import Mathlib.Data.Nat.Basic
import Mathlib.Data.UInt

/-!
# 32-bit words in byte arrays

A byte array is a function from offsets to bytes; on a little-endian machine the
word at index `i` is made of the four bytes from offset `4 * i` on, and is read
and written as a signed number.

* `int32` — the value a 32-bit signed integer holds after overflow.
* `getInt`, `setInt` — reading and writing one word.
* `getInt_setInt`, `getInt_setInt_of_ne` — **the two access laws.**
* `getWord`, `setWord` — an unsigned word at any address.
-/

namespace Words

/-- The number a signed 32-bit integer holds when `x` is stored in it. -/
def int32 (x : ℤ) : ℤ := (BitVec.ofInt 32 x).toInt

theorem int32_eq (x : ℤ) : int32 x = (x + 2 ^ 31) % 2 ^ 32 - 2 ^ 31 := by
  unfold int32
  rw [BitVec.toInt_ofInt, Int.bmod_def]
  split <;> omega

theorem int32_of_bounds {x : ℤ} (h₁ : -2 ^ 31 ≤ x) (h₂ : x < 2 ^ 31) : int32 x = x := by
  rw [int32_eq]; omega

theorem int32_bounds (x : ℤ) : -2 ^ 31 ≤ int32 x ∧ int32 x < 2 ^ 31 := by
  rw [int32_eq]; omega

/-- The unsigned value of four bytes, the lowest first. -/
def unsigned (b₀ b₁ b₂ b₃ : UInt8) : ℕ :=
  b₀.toNat + 2 ^ 8 * b₁.toNat + 2 ^ 16 * b₂.toNat + 2 ^ 24 * b₃.toNat

/-- Byte `k` of the two's complement of `v`. -/
def byteOf (v : ℤ) (k : ℕ) : UInt8 := UInt8.ofNat ((v % 2 ^ 32).toNat / 2 ^ (8 * k))

/-- The word at index `i`. -/
def getInt (b : ℕ → UInt8) (i : ℕ) : ℤ :=
  int32 (unsigned (b (4 * i)) (b (4 * i + 1)) (b (4 * i + 2)) (b (4 * i + 3)))

/-- The array with `v` as its word at index `i`. -/
def setInt (b : ℕ → UInt8) (i : ℕ) (v : ℤ) : ℕ → UInt8 :=
  fun o => if 4 * i ≤ o ∧ o < 4 * i + 4 then byteOf v (o - 4 * i) else b o

theorem toNat_byteOf (v : ℤ) (k : ℕ) :
    (byteOf v k).toNat = (v % 2 ^ 32).toNat / 2 ^ (8 * k) % 2 ^ 8 := by
  rw [byteOf, UInt8.toNat_ofNat']

/-- The four bytes of a number make it up again. -/
theorem int32_unsigned_byteOf (v : ℤ) :
    int32 (unsigned (byteOf v 0) (byteOf v 1) (byteOf v 2) (byteOf v 3)) = int32 v := by
  simp only [unsigned, toNat_byteOf, int32_eq]
  omega

theorem setInt_byte (b : ℕ → UInt8) (i : ℕ) (v : ℤ) (k : ℕ) (hk : k < 4) :
    setInt b i v (4 * i + k) = byteOf v k := by
  rw [setInt, if_pos (by omega), Nat.add_sub_cancel_left]

theorem setInt_of_outside (b : ℕ → UInt8) {i o : ℕ} (v : ℤ) (h : o < 4 * i ∨ 4 * i + 4 ≤ o) :
    setInt b i v o = b o := by
  rw [setInt, if_neg (by omega)]

/-- A word reads back what a signed integer keeps of the number written. -/
@[simp] theorem getInt_setInt (b : ℕ → UInt8) (i : ℕ) (v : ℤ) :
    getInt (setInt b i v) i = int32 v := by
  have h0 : setInt b i v (4 * i) = byteOf v 0 := setInt_byte b i v 0 (by omega)
  rw [getInt, h0, setInt_byte b i v 1 (by omega), setInt_byte b i v 2 (by omega),
    setInt_byte b i v 3 (by omega), int32_unsigned_byteOf]

/-- Writing a word leaves the others. -/
theorem getInt_setInt_of_ne (b : ℕ → UInt8) {i j : ℕ} (v : ℤ) (h : j ≠ i) :
    getInt (setInt b i v) j = getInt b j := by
  simp only [getInt]
  rw [setInt_of_outside b v (by omega), setInt_of_outside b v (by omega),
    setInt_of_outside b v (by omega), setInt_of_outside b v (by omega)]

theorem getInt_setInt_eq (b : ℕ → UInt8) (i j : ℕ) {v : ℤ} (h₁ : -2 ^ 31 ≤ v) (h₂ : v < 2 ^ 31) :
    getInt (setInt b i v) j = if j = i then v else getInt b j := by
  split
  · next h => rw [h, getInt_setInt, int32_of_bounds h₁ h₂]
  · next h => exact getInt_setInt_of_ne b v h

/-- Every word of a cleared array is zero. -/
@[simp] theorem getInt_zero (i : ℕ) : getInt (fun _ => 0) i = 0 := by
  simp [getInt, unsigned, int32]

theorem getInt_bounds (b : ℕ → UInt8) (i : ℕ) : -2 ^ 31 ≤ getInt b i ∧ getInt b i < 2 ^ 31 :=
  int32_bounds _

/-- The array with the first `n` words from index `i` on taken from `src`. -/
def setInts (b : ℕ → UInt8) (i : ℕ) (src : ℕ → ℤ) : ℕ → ℕ → UInt8
  | 0 => b
  | n + 1 => setInt (setInts b i src n) (i + n) (src n)

theorem getInt_setInts_of_outside (b : ℕ → UInt8) {i j : ℕ} (src : ℕ → ℤ) (n : ℕ)
    (h : j < i ∨ i + n ≤ j) : getInt (setInts b i src n) j = getInt b j := by
  induction n with
  | zero => rfl
  | succ n ih => rw [setInts, getInt_setInt_of_ne _ _ (by omega), ih (by omega)]

theorem getInt_setInts_of_lt (b : ℕ → UInt8) (i : ℕ) (src : ℕ → ℤ) {j : ℕ} (h : j < i) (n : ℕ) :
    getInt (setInts b i src n) j = getInt b j :=
  getInt_setInts_of_outside b src n (.inl h)

theorem getInt_setInts (b : ℕ → UInt8) (i : ℕ) (src : ℕ → ℤ) {k : ℕ} :
    ∀ n : ℕ, k < n → getInt (setInts b i src n) (i + k) = int32 (src k)
  | 0, h => by omega
  | n + 1, h => by
    rw [setInts]
    rcases Nat.lt_succ_iff_lt_or_eq.mp h with hk | rfl
    · rw [getInt_setInt_of_ne _ _ (by omega), getInt_setInts b i src n hk]
    · rw [getInt_setInt]

/-- Writing words leaves the bytes before and behind them. -/
theorem setInts_of_outside (b : ℕ → UInt8) {i o : ℕ} (src : ℕ → ℤ) (n : ℕ)
    (h : o < 4 * i ∨ 4 * (i + n) ≤ o) : setInts b i src n o = b o := by
  induction n with
  | zero => rfl
  | succ n ih => rw [setInts, setInt_of_outside _ _ (by omega), ih (by omega)]

/-! ### Unsigned words at any address -/

/-- The word at the address `a`. -/
def getWord (b : ℕ → UInt8) (a : ℕ) : ℕ := unsigned (b a) (b (a + 1)) (b (a + 2)) (b (a + 3))

/-- The array with `v` as the word at the address `a`. -/
def setWord (b : ℕ → UInt8) (a v : ℕ) : ℕ → UInt8 :=
  fun o => if a ≤ o ∧ o < a + 4 then byteOf v (o - a) else b o

theorem getWord_congr {b b' : ℕ → UInt8} {a a' : ℕ} (h : ∀ k < 4, b (a + k) = b' (a' + k)) :
    getWord b a = getWord b' a' := by
  have h0 : b a = b' a' := h 0 (by omega)
  rw [getWord, getWord, h0, h 1 (by omega), h 2 (by omega), h 3 (by omega)]

theorem setWord_of_outside (b : ℕ → UInt8) {a o : ℕ} (v : ℕ) (h : o < a ∨ a + 4 ≤ o) :
    setWord b a v o = b o := by
  rw [setWord, if_neg (by omega)]

theorem setWord_byte (b : ℕ → UInt8) (a v : ℕ) {k : ℕ} (hk : k < 4) :
    setWord b a v (a + k) = byteOf v k := by
  rw [setWord, if_pos (by omega), Nat.add_sub_cancel_left]

theorem getWord_setWord (b : ℕ → UInt8) (a : ℕ) {v : ℕ} (hv : v < 2 ^ 32) :
    getWord (setWord b a v) a = v := by
  have h0 : setWord b a v a = byteOf v 0 := setWord_byte b a v (show 0 < 4 by omega)
  rw [getWord, h0, setWord_byte b a v (by omega), setWord_byte b a v (by omega),
    setWord_byte b a v (by omega)]
  simp only [unsigned, toNat_byteOf]
  omega

theorem getWord_setWord_of_outside (b : ℕ → UInt8) {a a' : ℕ} (v : ℕ)
    (h : a' + 4 ≤ a ∨ a + 4 ≤ a') : getWord (setWord b a v) a' = getWord b a' :=
  getWord_congr fun k hk => setWord_of_outside b v (by omega)

/-- The lowest four bits of a word cleared. -/
theorem and_mask {x : ℕ} (h : x < 2 ^ 32) : x &&& 0xFFFFFFF0 = x / 16 * 16 := by
  refine Nat.eq_of_testBit_eq fun i => ?_
  have hmask : (0xFFFFFFF0 : ℕ) = (2 ^ 28 - 1) * 2 ^ 4 := by decide
  rw [hmask, show x / 16 * 16 = x / 2 ^ 4 * 2 ^ 4 from rfl, Nat.testBit_and,
    Nat.testBit_mul_two_pow, Nat.testBit_mul_two_pow, Nat.testBit_two_pow_sub_one,
    Nat.testBit_div_two_pow]
  by_cases hi : 4 ≤ i
  · rw [Nat.sub_add_cancel hi]
    by_cases hlt : i - 4 < 28
    · simp [hi, hlt]
    · have hbit : x.testBit i = false :=
        Nat.testBit_lt_two_pow (Nat.lt_of_lt_of_le h (Nat.pow_le_pow_right (by omega) (by omega)))
      simp [hbit]
  · simp [hi]

/-! ### First indices

The index 0 of a table is the same term in all modules, since the size is not 0 for a reason that
has a name. -/

instance neZeroOne : NeZero 1 := ⟨Nat.one_ne_zero⟩

instance neZeroTwo : NeZero 2 := ⟨Nat.succ_ne_zero 1⟩

instance neZeroThree : NeZero 3 := ⟨Nat.succ_ne_zero 2⟩

instance neZeroFifteen : NeZero 15 := ⟨Nat.succ_ne_zero 14⟩

instance neZeroHundred : NeZero 100 := ⟨Nat.succ_ne_zero 99⟩

instance neZeroPage : NeZero 1024 := ⟨Nat.succ_ne_zero 1023⟩

end Words
