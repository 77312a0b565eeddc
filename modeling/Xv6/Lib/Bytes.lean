import Mathlib

/-! Byte-addressed buffers and the little-endian integers stored in them.

    A buffer is a function from byte offset to byte; offsets past its real length are simply never
    looked at. The readers `getU16`/`getU32` and the writer `setU32` are lenses: a read
    after a write at the same offset returns the value, a read of a disjoint range is unchanged.
    `setBytes` is a `memmove` of a list of bytes into the buffer. -/

namespace Bytes
open Function List

/-- A buffer: the byte at every offset. -/
abbrev Buf := Nat → UInt8

/-- Little-endian 16-bit read at offset `o`. -/
def getU16 (d : Buf) (o : Nat) : UInt16 :=
  UInt16.ofNat ((d o).toNat + 256 * (d (o + 1)).toNat)

/-- Little-endian 32-bit read at offset `o`. -/
def getU32 (d : Buf) (o : Nat) : UInt32 :=
  UInt32.ofNat ((d o).toNat + 256 * (d (o + 1)).toNat + 65536 * (d (o + 2)).toNat
    + 16777216 * (d (o + 3)).toNat)

/-- The 64-bit number at offset `o`. -/
def getU64 (d : Buf) (o : Nat) : Nat := (getU32 d o).toNat + 2 ^ 32 * (getU32 d (o + 4)).toNat

/-- The `k`-th little-endian byte of `n`. -/
def byteOf (n k : Nat) : UInt8 := UInt8.ofNat (n / 256 ^ k)

/-- Little-endian 32-bit write at offset `o`. -/
def setU32 (d : Buf) (o : Nat) (v : UInt32) : Buf :=
  fun k => if o ≤ k ∧ k < o + 4 then byteOf v.toNat (k - o) else d k

/-- Little-endian 64-bit write at offset `o`. -/
def setU64 (d : Buf) (o v : Nat) : Buf := fun k => if o ≤ k ∧ k < o + 8 then byteOf v (k - o) else d k

/-- The mask of bit `bi` within its byte. -/
def mask (bi : Nat) : UInt8 := UInt8.ofNat (1 <<< (bi % 8))

/-- Whether bit `bi` is set. -/
def bitSet (d : Buf) (bi : Nat) : Bool := d (bi / 8) &&& mask bi != 0

/-- Copy the bytes `bs` into the buffer from offset `o` on. -/
def setBytes (d : Buf) (o : Nat) (bs : List UInt8) : Buf :=
  fun k => if o ≤ k ∧ k < o + bs.length then bs.getD (k - o) 0 else d k

/-- The `n` bytes from offset `o` on. -/
def getBytes (d : Buf) (o n : Nat) : List UInt8 := (range n).map fun k => d (o + k)

/-- `d[bi/8] |= m`. -/
def raiseBit (d : Buf) (bi : Nat) : Buf := update d (bi / 8) (d (bi / 8) ||| mask bi)

/-- `d[bi/8] &= ~m`. -/
def lowerBit (d : Buf) (bi : Nat) : Buf := update d (bi / 8) (d (bi / 8) &&& ~~~mask bi)

theorem toNat_ofNat_u32 {n : Nat} (h : n < 2 ^ 32) : (UInt32.ofNat n).toNat = n :=
  UInt32.toNat_ofNat_of_lt' h

variable {d : Buf} {o : Nat}

theorem setU32_other {k : Nat} {v : UInt32} (h : k < o ∨ o + 4 ≤ k) :
    setU32 d o v k = d k := by
  rw [setU32, if_neg (by omega)]

theorem getU32_congr {e : Buf} (h : ∀ k, o ≤ k → k < o + 4 → d k = e k) :
    getU32 d o = getU32 e o := by
  rw [getU32, getU32, h o (by omega) (by omega), h (o + 1) (by omega) (by omega),
    h (o + 2) (by omega) (by omega), h (o + 3) (by omega) (by omega)]

theorem getU16_congr {e : Buf} (h : ∀ k, o ≤ k → k < o + 2 → d k = e k) :
    getU16 d o = getU16 e o := by
  rw [getU16, getU16, h o (by omega) (by omega), h (o + 1) (by omega) (by omega)]

/-- Four little-endian bytes of a word read back as the word. -/
theorem getU32_of_bytes {v : UInt32}
    (h : ∀ k, k < 4 → d (o + k) = byteOf v.toNat k) : getU32 d o = v := by
  have hv := v.toNat_lt
  apply UInt32.toNat_inj.mp
  have h0 := h 0 (by omega)
  rw [Nat.add_zero] at h0
  rw [getU32, h0, h 1 (by omega), h 2 (by omega), h 3 (by omega)]
  simp only [byteOf, UInt32.toNat_ofNat', UInt8.toNat_ofNat']
  omega

theorem getU16_of_bytes {v : UInt16}
    (h : ∀ k, k < 2 → d (o + k) = byteOf v.toNat k) : getU16 d o = v := by
  have hv := v.toNat_lt
  apply UInt16.toNat_inj.mp
  have h0 := h 0 (by omega)
  rw [Nat.add_zero] at h0
  rw [getU16, h0, h 1 (by omega)]
  simp only [byteOf, UInt16.toNat_ofNat', UInt8.toNat_ofNat']
  omega

@[simp] theorem getU32_setU32 (d : Buf) (o : Nat) (v : UInt32) : getU32 (setU32 d o v) o = v := by
  have hv := v.toNat_lt
  apply UInt32.toNat_inj.mp
  simp only [getU32, setU32, byteOf, UInt32.toNat_ofNat']
  simp
  omega

theorem getU32_setU32_other {p : Nat} {v : UInt32} (h : p + 4 ≤ o ∨ o + 4 ≤ p) :
    getU32 (setU32 d o v) p = getU32 d p :=
  getU32_congr fun _ h1 h2 => setU32_other (by omega)

theorem getU64_congr {e : Buf} (h : ∀ k, o ≤ k → k < o + 8 → d k = e k) : getU64 d o = getU64 e o := by
  rw [getU64, getU64, getU32_congr fun k h1 h2 => h k h1 (by omega),
    getU32_congr (o := o + 4) fun k h1 h2 => h k (by omega) (by omega)]

theorem getU64_lt (d : Buf) (o : Nat) : getU64 d o < 2 ^ 64 := by
  have h1 := (getU32 d o).toNat_lt
  have h2 := (getU32 d (o + 4)).toNat_lt
  rw [getU64]
  omega

/-- Four bytes of a 64-bit number are a 32-bit one. -/
theorem byteOf_half (v j k : Nat) (hk : k < 4) : byteOf (v / 256 ^ j) k = byteOf (UInt32.ofNat (v / 256 ^ j)).toNat k := by
  apply UInt8.toNat_inj.mp
  simp only [byteOf, UInt32.toNat_ofNat', UInt8.toNat_ofNat']
  generalize v / 256 ^ j = w
  obtain rfl | rfl | rfl | rfl : k = 0 ∨ k = 1 ∨ k = 2 ∨ k = 3 := by omega
  all_goals omega

@[simp] theorem getU64_setU64 {v : Nat} (d : Buf) (o : Nat) (hv : v < 2 ^ 64) : getU64 (setU64 d o v) o = v := by
  have hlow : getU32 (setU64 d o v) o = UInt32.ofNat v := getU32_of_bytes fun k hk => by
    have := byteOf_half v 0 k hk
    rw [pow_zero, Nat.div_one] at this
    rw [setU64, if_pos (by omega), Nat.add_sub_cancel_left, this]
  have hhigh : getU32 (setU64 d o v) (o + 4) = UInt32.ofNat (v / 256 ^ 4) := getU32_of_bytes fun k hk => by
    rw [← byteOf_half v 4 k hk, setU64, if_pos (by omega), Nat.add_assoc, Nat.add_sub_cancel_left, byteOf, byteOf,
      Nat.div_div_eq_div_mul, ← Nat.pow_add]
  rw [getU64, hlow, hhigh, UInt32.toNat_ofNat', UInt32.toNat_ofNat']
  omega

theorem getU64_setU64_other {p v : Nat} (h : p + 8 ≤ o ∨ o + 8 ≤ p) :
    getU64 (setU64 d o v) p = getU64 d p :=
  getU64_congr fun k h1 h2 => by rw [setU64, if_neg (by omega)]

/-! ### Copying bytes -/

@[simp] theorem length_getBytes (d : Buf) (o n : Nat) : (getBytes d o n).length = n := by simp [getBytes]

theorem getBytes_congr {e : Buf} {p n : Nat} (h : ∀ j, j < n → d (o + j) = e (p + j)) :
    getBytes d o n = getBytes e p n :=
  map_congr_left fun j hj => h j (mem_range.mp hj)

@[simp] theorem getBytes_zero (d : Buf) (o : Nat) : getBytes d o 0 = [] := rfl

theorem getBytes_add (d : Buf) (o a b : Nat) : getBytes d o (a + b) = getBytes d o a ++ getBytes d (o + a) b := by
  simp [getBytes, range_add, Nat.add_assoc]

theorem getBytes_succ (d : Buf) (o n : Nat) : getBytes d o (n + 1) = d o :: getBytes d (o + 1) n := by
  rw [Nat.add_comm n 1, getBytes_add]
  rfl

@[simp] theorem setBytes_nil (d : Buf) (o : Nat) : setBytes d o [] = d := by
  funext k
  rw [setBytes, if_neg (by rw [length_nil]; omega)]

theorem setBytes_append (d : Buf) (o : Nat) (bs bs' : List UInt8) :
    setBytes d o (bs ++ bs') = setBytes (setBytes d o bs) (o + bs.length) bs' := by
  funext k
  simp only [setBytes, length_append, getD_eq_getElem?_getD]
  by_cases h1 : o + bs.length ≤ k
  · by_cases h2 : k < o + bs.length + bs'.length
    · rw [if_pos (by omega), if_pos (by omega), getElem?_append_right (by omega)]
      congr 2
      omega
    · rw [if_neg (by omega), if_neg (by omega), if_neg (by omega)]
  · by_cases h2 : o ≤ k
    · rw [if_pos (by omega), if_neg (by omega), if_pos (by omega), getElem?_append_left (by omega)]
    · rw [if_neg (by omega), if_neg (by omega), if_neg (by omega)]

theorem setBytes_singleton (d : Buf) (o : Nat) (b : UInt8) : setBytes d o [b] = update d o b := by
  funext k
  rw [setBytes, update_apply]
  by_cases hk : k = o
  · rw [if_pos (by rw [length_singleton]; omega), if_pos hk, hk, Nat.sub_self]; rfl
  · rw [if_neg (by rw [length_singleton]; omega), if_neg hk]

theorem setBytes_cons (d : Buf) (o : Nat) (b : UInt8) (bs : List UInt8) :
    setBytes d o (b :: bs) = setBytes (update d o b) (o + 1) bs := by
  rw [← singleton_append, setBytes_append, setBytes_singleton]
  rfl

/-! ### Bit maps -/

theorem toNat_mask (bi : Nat) : (mask bi).toNat = 2 ^ (bi % 8) := by
  have h : 2 ^ (bi % 8) < 2 ^ 8 := Nat.pow_lt_pow_right (by omega) (by omega)
  rw [mask, UInt8.toNat_ofNat', Nat.one_shiftLeft, Nat.mod_eq_of_lt h]

/-- A masked byte is nonzero exactly when the bit is. -/
theorem bitSet_eq (d : Buf) (bi : Nat) : bitSet d bi = (d (bi / 8)).toNat.testBit (bi % 8) := by
  have hnat : (d (bi / 8) &&& mask bi).toNat = ((d (bi / 8)).toNat.testBit (bi % 8)).toNat * 2 ^ (bi % 8) := by
    rw [UInt8.toNat_and, toNat_mask, Nat.and_two_pow]
  have hzero : (d (bi / 8) &&& mask bi = 0) ↔ (d (bi / 8) &&& mask bi).toNat = 0 :=
    UInt8.toNat_inj.symm
  cases hb : (d (bi / 8)).toNat.testBit (bi % 8) <;> simp [bitSet, hzero, hnat, hb]

theorem bitSet_raiseBit (d : Buf) (a b : Nat) :
    bitSet (raiseBit d b) a = if a = b then true else bitSet d a := by
  rw [bitSet_eq, bitSet_eq, raiseBit]
  by_cases hbyte : a / 8 = b / 8
  · have hbit : (b % 8 = a % 8) = (a = b) := by apply propext; omega
    rw [hbyte, update_self, UInt8.toNat_or, Nat.testBit_or, toNat_mask, Nat.testBit_two_pow]
    simp only [hbit]
    by_cases hab : a = b <;> simp [hab]
  · rw [update_of_ne hbyte, if_neg fun h => hbyte (by rw [h])]

theorem bitSet_lowerBit (d : Buf) (a b : Nat) :
    bitSet (lowerBit d b) a = if a = b then false else bitSet d a := by
  rw [bitSet_eq, bitSet_eq, lowerBit]
  by_cases hbyte : a / 8 = b / 8
  · have hbit : (b % 8 = a % 8) = (a = b) := by apply propext; omega
    have hlt : (mask b).toNat < 2 ^ 8 := (mask b).toNat_lt
    have hnot : (~~~mask b).toNat = 2 ^ 8 - ((mask b).toNat + 1) := by rw [UInt8.toNat_not, Nat.sub_sub, Nat.add_comm]; rfl
    rw [hbyte, update_self, UInt8.toNat_and, Nat.testBit_and, hnot,
      Nat.testBit_two_pow_sub_succ hlt, toNat_mask, Nat.testBit_two_pow]
    simp only [hbit]
    by_cases hab : a = b
    · simp [hab]
    · simp [hab, Nat.mod_lt a (by omega : 0 < 8)]
  · rw [update_of_ne hbyte, if_neg fun h => hbyte (by rw [h])]

end Bytes
