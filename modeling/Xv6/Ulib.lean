import Xv6.Lib.Bytes

/-! `user/ulib.c`: the functions on strings.

    A `char` array is a buffer and its size; an access at the size or beyond has no result. A string is the list of its
    bytes before the NUL: `IsStr d o s` says that `s` is the string at `d + o`. -/

namespace Xv6.Ulib
open Bytes Function List

/-! ### The code -/

/-- `d[i] = b` in an array of `size` bytes. -/
def store (size : Nat) (d : Buf) (i : Nat) (b : UInt8) : Option Buf :=
  if i < size then some (update d i b) else none

/-- Bytes stored one after the other: `read` into an array, or a `memmove` from another one. -/
def storeAll (size : Nat) (d : Buf) (i : Nat) : List UInt8 → Option Buf
  | [] => some d
  | b :: bs => do
    let d ← store size d i b
    storeAll size d (i + 1) bs

/-- `strcpy` of the string `t`, its NUL included. -/
def strcpy (size : Nat) (d : Buf) (i : Nat) (t : List UInt8) : Option Buf := storeAll size d i (t ++ [0])

/-- The bytes of a string, as `strlen`, `strcmp` and `printf` read them; `k` bytes are left in the array. -/
def stringFrom (d : Buf) : Nat → Nat → Option (List UInt8)
  | 0, _ => none
  | k + 1, i => if d i = 0 then some [] else (stringFrom d k (i + 1)).map (d i :: ·)

def string (size : Nat) (d : Buf) (i : Nat) : Option (List UInt8) := stringFrom d (size - i) i

/-- The loop of `strchr`; `k` bytes are left in the array. -/
def strchrFrom (d : Buf) (c : UInt8) : Nat → Nat → Option (Option Nat)
  | 0, _ => none
  | k + 1, s => if d s = 0 then some none else if d s = c then some (some s) else strchrFrom d c k (s + 1)

/-- `strchr`, which returns the place of the first `c`. -/
def strchr (size : Nat) (d : Buf) (s : Nat) (c : UInt8) : Option (Option Nat) := strchrFrom d c (size - s) s

/-- `while(n-- > 0) *dst++ = *src++;` -/
def moveUp (size : Nat) (d : Buf) (dst src : Nat) : Nat → Option Buf
  | 0 => some d
  | n + 1 => do
    let d ← store size d dst (d src)
    moveUp size d (dst + 1) (src + 1) n

/-- `dst += n; src += n; while(n-- > 0) *--dst = *--src;` -/
def moveDown (size : Nat) (d : Buf) (dst src : Nat) : Nat → Option Buf
  | 0 => some d
  | n + 1 => do
    let d ← store size d (dst + n) (d (src + n))
    moveDown size d dst src n

/-- `memmove` inside one array. -/
def memmove (size : Nat) (d : Buf) (dst src n : Nat) : Option Buf :=
  if src > dst then moveUp size d dst src n else moveDown size d dst src n

/-! ### Strings in memory -/

/-- The string at `i`. -/
def IsStr (d : Buf) : Nat → List UInt8 → Prop
  | i, [] => d i = 0
  | i, b :: s => d i = b ∧ b ≠ 0 ∧ IsStr d (i + 1) s

section Strings
variable {size i : Nat} {d e : Buf} {s t : List UInt8} {c : UInt8}

theorem isStr_append : IsStr d i (s ++ t) ↔ getBytes d i s.length = s ∧ 0 ∉ s ∧ IsStr d (i + s.length) t := by
  induction s generalizing i with
  | nil => simp
  | cons b s ih =>
    have hlen : i + 1 + s.length = i + (b :: s).length := by rw [length_cons]; omega
    rw [cons_append, IsStr, ih, hlen, length_cons, getBytes_succ, cons.injEq, mem_cons, not_or]
    constructor
    · rintro ⟨hb, hb0, hs, h0, ht⟩
      exact ⟨⟨hb, hs⟩, ⟨hb0.symm, h0⟩, ht⟩
    · rintro ⟨⟨hb, hs⟩, ⟨hb0, h0⟩, ht⟩
      exact ⟨hb, fun h => hb0 h.symm, hs, h0, ht⟩

theorem isStr_iff : IsStr d i s ↔ getBytes d i s.length = s ∧ 0 ∉ s ∧ d (i + s.length) = 0 := by
  rw [← append_nil s, isStr_append, append_nil, IsStr]

theorem IsStr.congr (h : IsStr d i s) (hd : ∀ k, i ≤ k → k ≤ i + s.length → e k = d k) : IsStr e i s := by
  obtain ⟨hs, h0, hz⟩ := isStr_iff.mp h
  refine isStr_iff.mpr ⟨?_, h0, ?_⟩
  · rw [← hs, length_getBytes]
    exact getBytes_congr fun j hj => hd _ (by omega) (by omega)
  · rw [hd _ (by omega) (by omega), hz]

theorem IsStr.string (h : IsStr d i s) (hi : i + s.length < size) : Ulib.string size d i = some s := by
  unfold Ulib.string
  obtain ⟨k, hk⟩ : ∃ k, size - i = s.length + 1 + k := ⟨size - i - (s.length + 1), by omega⟩
  rw [hk]
  clear hk hi
  induction s generalizing i with
  | nil => rw [length_nil, zero_add, add_comm, stringFrom, if_pos (show d i = 0 from h)]
  | cons b s ih =>
    obtain ⟨rfl, hb, hs⟩ := h
    rw [length_cons, show s.length + 1 + 1 + k = s.length + 1 + k + 1 by omega, stringFrom, if_neg hb, ih hs]
    rfl

/-- `strchr` goes past what is not `c`. -/
theorem IsStr.strchrFrom (h : IsStr d i (s ++ t)) (hc : c ∉ s) (k : Nat) :
    Ulib.strchrFrom d c (k + s.length) i = Ulib.strchrFrom d c k (i + s.length) := by
  induction s generalizing i with
  | nil => rfl
  | cons b s ih =>
    obtain ⟨rfl, hb, hs⟩ := h
    obtain ⟨hne, hc⟩ := not_or.mp (fun hm => hc (mem_cons.mpr hm))
    rw [length_cons, ← add_assoc, Ulib.strchrFrom, if_neg hb, if_neg (Ne.symm hne), ih hs hc, add_right_comm, add_assoc]

/-- `strchr` finds the first `c`. -/
theorem IsStr.strchr (h : IsStr d i (s ++ c :: t)) (hc : c ∉ s) (hi : i + s.length < size) :
    Ulib.strchr size d i c = some (some (i + s.length)) := by
  obtain ⟨hd, hc0, -⟩ := (isStr_append.mp h).2.2
  rw [Ulib.strchr, show size - i = size - i - s.length - 1 + 1 + s.length by omega, h.strchrFrom hc, Ulib.strchrFrom,
    if_neg (hd ▸ hc0), if_pos hd]

theorem IsStr.strchr_none (h : IsStr d i s) (hc : c ∉ s) (hi : i + s.length < size) :
    Ulib.strchr size d i c = some none := by
  have hz : d (i + s.length) = 0 := (isStr_iff.mp h).2.2
  rw [← append_nil s] at h
  rw [Ulib.strchr, show size - i = size - i - s.length - 1 + 1 + s.length by omega, h.strchrFrom hc, Ulib.strchrFrom, if_pos hz]

end Strings

/-! ### Stores -/

section Stores
variable {size i dst src n : Nat} {d : Buf} {b : UInt8} {bs s : List UInt8}

theorem store_eq (h : i < size) : store size d i b = some (update d i b) := if_pos h

theorem storeAll_eq (h : i + bs.length ≤ size) : storeAll size d i bs = some (setBytes d i bs) := by
  induction bs generalizing d i with
  | nil => rw [storeAll, setBytes_nil]
  | cons b bs ih =>
    rw [length_cons] at h
    rw [storeAll, store_eq (by omega), setBytes_cons]
    exact ih (by omega)

theorem getBytes_setBytes : getBytes (setBytes d i bs) i bs.length = bs := by
  refine ext_getElem (length_getBytes _ _ _) fun j hj hj' => ?_
  rw [length_getBytes] at hj
  simp only [getBytes, getElem_map, getElem_range, setBytes]
  rw [if_pos (by omega), Nat.add_sub_cancel_left, getD_eq_getElem _ _ hj']

theorem strcpy_eq (h : i + s.length < size) : strcpy size d i s = some (setBytes d i (s ++ [0])) :=
  storeAll_eq (by rw [length_append, length_singleton]; omega)

/-- Bytes up to a NUL are a string, whatever is stored behind it. -/
theorem isStr_setBytes (h0 : 0 ∉ s) : IsStr (setBytes d i (s ++ 0 :: bs)) i s := by
  refine isStr_iff.mpr ⟨?_, h0, ?_⟩
  · have hall : getBytes (setBytes d i (s ++ 0 :: bs)) i (s ++ 0 :: bs).length = s ++ 0 :: bs := getBytes_setBytes
    rw [length_append, getBytes_add] at hall
    exact (append_inj hall (length_getBytes _ _ _)).1
  · rw [setBytes_append, setBytes, if_pos (by rw [length_cons]; omega), Nat.sub_self]
    rfl

theorem isStr_strcpy (h0 : 0 ∉ s) : IsStr (setBytes d i (s ++ [0])) i s := isStr_setBytes h0

/-- Moved up or down, each byte is read before it is overwritten. -/
theorem moveUp_eq (h : dst ≤ src ∨ src + n ≤ dst) (hn : dst + n ≤ size) :
    moveUp size d dst src n = some (setBytes d dst (getBytes d src n)) := by
  induction n generalizing d dst src with
  | zero => rw [moveUp, getBytes_zero, setBytes_nil]
  | succ n ih =>
    have hsrc : getBytes (update d dst (d src)) (src + 1) n = getBytes d (src + 1) n :=
      getBytes_congr fun j hj => update_of_ne (by omega) _ _
    rw [moveUp, store_eq (by omega), getBytes_succ, setBytes_cons, ← hsrc]
    exact ih (by omega) (by omega)

theorem moveDown_eq (h : src ≤ dst) (hn : dst + n ≤ size) :
    moveDown size d dst src n = some (setBytes d dst (getBytes d src n)) := by
  induction n generalizing d with
  | zero => rw [moveDown, getBytes_zero, setBytes_nil]
  | succ n ih =>
    have hsrc : getBytes (update d (dst + n) (d (src + n))) src n = getBytes d src n :=
      getBytes_congr fun j hj => update_of_ne (by omega) _ _
    have hlast : getBytes d src (n + 1) = getBytes d src n ++ [d (src + n)] := getBytes_add d src n 1
    rw [moveDown, store_eq (by omega), Option.bind_eq_bind, Option.bind_some, ih (by omega), hsrc, hlast,
      setBytes_append, setBytes_singleton, length_getBytes]
    -- The last byte goes first: the two stores are disjoint.
    refine congrArg some (funext fun k => ?_)
    simp only [setBytes, update_apply, length_getBytes]
    by_cases hk : k = dst + n
    · rw [if_neg (by omega), if_pos hk, if_pos hk]
    · rw [if_neg hk, if_neg hk]

theorem memmove_eq (hn : dst + n ≤ size) : memmove size d dst src n = some (setBytes d dst (getBytes d src n)) := by
  unfold memmove
  split
  case isTrue h => exact moveUp_eq (.inl h.le) hn
  case isFalse h => exact moveDown_eq (by omega) hn

end Stores

/-! ### `memmove` of the kernel -/

/-- `memmove` of `kernel/string.c` in the whole memory. A pointer behind the last byte wraps. -/
def Kernel.memmove (m : Buf) (dst src n : Nat) : Option Buf :=
  if n = 0 then some m
  else if src < dst ∧ (src + n) % 2 ^ 64 > dst then moveDown (2 ^ 64) m dst src n
  else moveUp (2 ^ 64) m dst src n

section Overlap
variable {m : Buf} {dst src n : Nat}

/-- The destination holds what the source held, and nothing else has changed. -/
def Moved (m m' : Buf) (dst src n : Nat) : Prop :=
  (∀ k < n, m' (dst + k) = m (src + k)) ∧ ∀ a, a < dst ∨ dst + n ≤ a → m' a = m a

theorem moved_setBytes (m : Buf) (dst src n : Nat) : Moved m (setBytes m dst (getBytes m src n)) dst src n := by
  refine ⟨fun k hk => ?_, fun a ha => ?_⟩
  · rw [setBytes, length_getBytes, if_pos (by omega), Nat.add_sub_cancel_left, getD_eq_getElem _ _ (by simpa)]
    simp [getBytes]
  · rw [setBytes, length_getBytes, if_neg (by omega)]

theorem Kernel.memmove_eq (hdst : dst + n ≤ 2 ^ 64) :
    Kernel.memmove m dst src n = some (setBytes m dst (getBytes m src n)) := by
  unfold Kernel.memmove
  split
  case isTrue h => rw [h, getBytes_zero, setBytes_nil]
  case isFalse h =>
    split
    case isTrue h' => exact moveDown_eq h'.1.le hdst
    case isFalse h' =>
      refine moveUp_eq ?_ hdst
      by_contra hover
      -- the source ends before the destination does, so its end does not wrap
      exact h' ⟨by omega, by rw [Nat.mod_eq_of_lt (by omega)]; omega⟩

/-- BOTH `memmove`S MOVE BYTES however source and destination overlap. -/
theorem memmove_overlap (m : Buf) (dst src n : Nat) (hdst : dst + n ≤ 2 ^ 64) (_hsrc : src + n ≤ 2 ^ 64) :
    (∃ m', Kernel.memmove m dst src n = some m' ∧ Moved m m' dst src n) ∧
      ∃ m', memmove (2 ^ 64) m dst src n = some m' ∧ Moved m m' dst src n :=
  ⟨⟨_, Kernel.memmove_eq hdst, moved_setBytes m dst src n⟩, ⟨_, memmove_eq hdst, moved_setBytes m dst src n⟩⟩

/-- Eight bytes moved up by one, to the end of the address space. -/
theorem memmove_overlap_end : ∃ m', Kernel.memmove (fun a => UInt8.ofNat a) (2 ^ 64 - 8) (2 ^ 64 - 9) 8 = some m' ∧
    ∀ k < 8, m' (2 ^ 64 - 8 + k) = UInt8.ofNat (2 ^ 64 - 9 + k) := by
  obtain ⟨m', hm', hmoved, -⟩ := (memmove_overlap (fun a => UInt8.ofNat a) (2 ^ 64 - 8) (2 ^ 64 - 9) 8 (by decide) (by decide)).1
  exact ⟨m', hm', hmoved⟩

end Overlap

/-! ### Numerals -/

section Numerals
variable {n k b : Nat} {i : Int32}

end Numerals

/-! ### Lines -/

def newline : UInt8 := 10

/-- Lines with their newlines, one after the other. -/
def flat (lines : List (List UInt8)) : List UInt8 := (lines.map (· ++ [newline])).flatten

@[simp] theorem flat_nil : flat [] = [] := rfl

@[simp] theorem flat_cons (l : List UInt8) (ls : List (List UInt8)) : flat (l :: ls) = l ++ newline :: flat ls := by
  simp [flat]

theorem length_le_flat (ls : List (List UInt8)) : ls.length ≤ (flat ls).length := by
  induction ls with
  | nil => simp
  | cons l ls ih => simp; omega

end Xv6.Ulib
