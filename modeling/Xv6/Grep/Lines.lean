import Xv6.Ulib
import Xv6.Grep.Match

/-! `user/grep.c`, the loop of `grep`: lines out of chunks.

    `read` returns as much of the input as it likes, at least one byte. The buffer then holds the part of a line that was
    left over, and the chunk behind it:

        buf    [ carry | chunk .......... ] NUL
                 p ->  each line that ends here is matched, the rest is moved to the front

    Whatever the chunks, the lines that go through the buffer are those of the input. -/

namespace Xv6.Grep
open Bytes Ulib Function List

/-! ### The code -/

/-- `sizeof(buf)`. -/
def BUFSIZE : Nat := 1024

/-- `while((q = strchr(p, '\n')) != 0)`; returns the buffer, `p` and what was written. -/
def scan (pattern : List UInt8) : Nat → Buf → Nat → Option (Buf × Nat × List (List UInt8))
  | 0, _, _ => none
  | fuel + 1, buf, p => do
    match ← strchr BUFSIZE buf p newline with
    | none => some (buf, p, [])
    | some q =>
      let buf ← store BUFSIZE buf q 0
      if matchRe pattern (← string BUFSIZE buf p) then
        let buf ← store BUFSIZE buf q newline
        let (buf', p', out) ← scan pattern fuel buf (q + 1)
        some (buf', p', getBytes buf p (q + 1 - p) :: out)
      else scan pattern fuel buf (q + 1)

/-- How much the `k`-th `read` returns of `left` bytes when `n` are asked for: at least one, if it can. -/
def readCount (chunk : Nat → Nat) (k n left : Nat) : Nat := min (min n left) (max 1 (chunk k))

/-- The loop of `grep`, before its `k`-th `read`; returns what was written. -/
def grepFrom (chunk : Nat → Nat) (pattern : List UInt8) :
    Nat → Nat → Buf → Nat → List UInt8 → Option (List (List UInt8))
  | 0, _, _, _, _ => none
  | fuel + 1, k, buf, m, input => do
    let n := readCount chunk k (BUFSIZE - m - 1) input.length
    if n > 0 then
      let buf ← storeAll BUFSIZE buf m (input.take n)
      let m := m + n
      let buf ← store BUFSIZE buf m 0
      let (buf, p, out) ← scan pattern (BUFSIZE + 1) buf 0
      let (buf, m) ←
        if m > 0 then
          let m := m - p
          (memmove BUFSIZE buf 0 p m).map fun buf => (buf, m)
        else some (buf, m)
      let rest ← grepFrom chunk pattern fuel (k + 1) buf m (input.drop n)
      some (out ++ rest)
    else some []

/-- `grep`: each round takes a byte of the input, so that it ends within so many. -/
def grep (chunk : Nat → Nat) (pattern : List UInt8) (buf : Buf) (input : List UInt8) : Option (List (List UInt8)) :=
  grepFrom chunk pattern (input.length + 1) 0 buf 0 input

/-! ### Lines -/

/-- What is to be written. -/
def accepted (pattern : List UInt8) (lines : List (List UInt8)) : List (List UInt8) :=
  (lines.filter (matchRe pattern)).map (· ++ [newline])

/-- A line that fits, without its newline. -/
structure Line (l : List UInt8) : Prop where
  nul : 0 ∉ l
  newline : newline ∉ l
  short : l.length + 1 ≤ 1023

theorem accepted_append (pattern : List UInt8) (ls ls' : List (List UInt8)) :
    accepted pattern (ls ++ ls') = accepted pattern ls ++ accepted pattern ls' := by simp [accepted]

/-- Of lines cut at any place, some are whole, and of the next one there is a part without a newline. -/
theorem flat_cut {ls : List (List UInt8)} (hls : ∀ l ∈ ls, Line l) {text rest : List UInt8} (h : flat ls = text ++ rest) :
    ∃ done todo carry, ls = done ++ todo ∧ text = flat done ++ carry ∧ carry ++ rest = flat todo ∧ newline ∉ carry ∧
      carry.length ≤ 1022 := by
  induction ls generalizing text with
  | nil =>
    obtain ⟨rfl, rfl⟩ := append_eq_nil_iff.mp h.symm
    exact ⟨[], [], [], rfl, rfl, rfl, by simp, by simp⟩
  | cons l ls ih =>
    obtain ⟨hl, hls⟩ := forall_mem_cons.mp hls
    rw [flat_cons, append_eq_append_iff] at h
    obtain ⟨more, rfl, h⟩ | ⟨more, rfl, h⟩ := h
    case inl =>
      cases more with
      | nil =>
        refine ⟨[], l :: ls, l, rfl, (append_nil l).trans (nil_append l).symm, ?_, hl.newline, ?_⟩
        · rw [flat_cons, h]
          rfl
        · exact Nat.le_of_succ_le_succ hl.short
      | cons c more =>
        obtain ⟨rfl, htail⟩ := cons.inj h
        obtain ⟨done, todo, carry, rfl, rfl, hrest, hc, hlen⟩ := ih hls htail
        exact ⟨l :: done, todo, carry, rfl, by simp, hrest, hc, hlen⟩
    case inr =>
      have hsub : text ⊆ text ++ more := subset_append_left text more
      refine ⟨[], (text ++ more) :: ls, text, rfl, rfl, ?_, fun hm => hl.newline (hsub hm), ?_⟩
      · rw [flat_cons, h, append_assoc]
      · have := hl.short
        rw [length_append] at this
        omega

theorem nul_not_mem_flat {ls : List (List UInt8)} (hls : ∀ l ∈ ls, Line l) : 0 ∉ flat ls := by
  induction ls with
  | nil => simp
  | cons l ls ih =>
    obtain ⟨hl, hls⟩ := forall_mem_cons.mp hls
    have hnl : (0 : UInt8) ≠ newline := by decide
    simp [hl.nul, hnl, ih hls]

/-! ### The lines of one buffer -/

section Scan
variable {pattern : List UInt8} {buf : Buf} {p fuel : Nat} {l text : List UInt8}

/-- With the newline overwritten, the line is a string. -/
theorem isStr_cut (h : IsStr buf p (l ++ newline :: text)) : IsStr (update buf (p + l.length) 0) p l := by
  obtain ⟨hl, h0, -⟩ := isStr_append.mp h
  refine isStr_iff.mpr ⟨?_, h0, update_self ..⟩
  refine (getBytes_congr fun j hj => ?_).trans hl
  exact update_of_ne (by omega) _ _

/-- What stands behind a line does not change. -/
theorem isStr_behind (h : IsStr buf p (l ++ newline :: text)) {buf' : Buf}
    (hsame : ∀ k, p + l.length < k → buf' k = buf k) : IsStr buf' (p + l.length + 1) text := by
  obtain ⟨-, -, -, -, ht⟩ := isStr_append.mp h
  exact ht.congr fun k hk _ => hsame k (by omega)

/-- What is written of an accepted line: the line and its newline. -/
theorem getBytes_line (h : IsStr buf p (l ++ newline :: text)) :
    getBytes (update (update buf (p + l.length) 0) (p + l.length) newline) p (p + l.length + 1 - p) =
      l ++ [newline] := by
  obtain ⟨hl, -, -⟩ := isStr_append.mp h
  rw [update_idem, show p + l.length + 1 - p = l.length + 1 by omega, getBytes_add]
  congr 1
  · refine (getBytes_congr fun j hj => ?_).trans hl
    exact update_of_ne (by omega) _ _
  · rw [getBytes_succ, update_self, getBytes_zero]

/-- Every line that ends in the buffer is matched once; `p` stops at the rest. -/
theorem scan_lines {done : List (List UInt8)} {carry : List UInt8} (hdone : ∀ l ∈ done, Line l) (hcarry : newline ∉ carry)
    (h : IsStr buf p (flat done ++ carry)) (hp : p + (flat done ++ carry).length < BUFSIZE) (hfuel : done.length < fuel) :
    ∃ buf', scan pattern fuel buf p = some (buf', p + (flat done).length, accepted pattern done) ∧
      getBytes buf' (p + (flat done).length) carry.length = carry := by
  induction done generalizing buf p fuel with
  | nil =>
    obtain ⟨fuel, rfl⟩ := Nat.exists_eq_add_of_lt hfuel
    rw [flat_nil, nil_append] at h hp
    refine ⟨buf, ?_, (isStr_iff.mp h).1⟩
    rw [scan, h.strchr_none hcarry hp]
    rfl
  | cons l done ih =>
    obtain ⟨hl, hdone⟩ := forall_mem_cons.mp hdone
    obtain ⟨fuel, rfl⟩ := Nat.exists_eq_add_of_lt hfuel
    rw [flat_cons, append_assoc, cons_append] at h hp
    simp only [length_append, length_cons] at hp
    have hq : p + l.length < BUFSIZE := by omega
    have hnext : ∀ buf' : Buf, (∀ k, p + l.length < k → buf' k = buf k) →
        ∃ buf'', scan pattern ((l :: done).length + fuel) buf' (p + l.length + 1) =
            some (buf'', p + (flat (l :: done)).length, accepted pattern done) ∧
          getBytes buf'' (p + (flat (l :: done)).length) carry.length = carry := by
      intro buf' hsame
      have hlen : p + (flat (l :: done)).length = p + l.length + 1 + (flat done).length := by simp; omega
      rw [hlen]
      refine ih hdone (isStr_behind h hsame) ?_ ?_
      · rw [length_append]
        omega
      · rw [length_cons]
        omega
    rw [scan, h.strchr hl.newline hq]
    simp only [Option.bind_eq_bind, Option.bind_some, store_eq hq, (isStr_cut h).string hq]
    by_cases hm : matchRe pattern l = true
    · obtain ⟨buf'', hscan, hget⟩ := hnext (update (update buf (p + l.length) 0) (p + l.length) newline)
        fun k hk => by rw [update_of_ne (by omega), update_of_ne (by omega)]
      refine ⟨buf'', ?_, hget⟩
      rw [if_pos hm, hscan, Option.bind_some, getBytes_line h]
      simp [accepted, hm]
    · obtain ⟨buf'', hscan, hget⟩ := hnext (update buf (p + l.length) 0) fun k hk =>
        update_of_ne (by omega) _ _
      refine ⟨buf'', ?_, hget⟩
      rw [if_neg hm, hscan]
      simp [accepted, hm]

end Scan

/-! ### All the lines of the input -/

/-- The chunk behind the carried part of a line, with a NUL behind it. -/
theorem isStr_chunk {buf : Buf} {carry chunk : List UInt8} (hcarry : getBytes buf 0 carry.length = carry)
    (h0 : 0 ∉ carry ++ chunk) :
    IsStr (update (setBytes buf carry.length chunk) (carry.length + chunk.length) 0) 0 (carry ++ chunk) := by
  refine isStr_iff.mpr ⟨?_, h0, by rw [length_append, zero_add, update_self]⟩
  rw [length_append, getBytes_add, zero_add]
  congr 1
  · refine (getBytes_congr fun j hj => ?_).trans hcarry
    rw [update_of_ne (by omega), setBytes, if_neg (by omega)]
  · refine (getBytes_congr fun j hj => ?_).trans (getBytes_setBytes (d := buf) (i := carry.length))
    rw [update_of_ne (by omega)]

theorem grepFrom_lines {chunk : Nat → Nat} {pattern : List UInt8} {fuel k : Nat} {buf : Buf} {carry input : List UInt8}
    {todo : List (List UInt8)} (htodo : ∀ l ∈ todo, Line l) (htext : flat todo = carry ++ input) (hnl : newline ∉ carry)
    (hshort : carry.length ≤ 1022) (hcarry : getBytes buf 0 carry.length = carry) (hfuel : input.length < fuel) :
    grepFrom chunk pattern fuel k buf carry.length input = some (accepted pattern todo) := by
  induction fuel generalizing k buf carry input todo with
  | zero => omega
  | succ fuel ih =>
    have hn : readCount chunk k (BUFSIZE - carry.length - 1) input.length ≤ input.length := by unfold readCount; omega
    have hroom : carry.length + readCount chunk k (BUFSIZE - carry.length - 1) input.length < BUFSIZE := by
      unfold readCount BUFSIZE
      omega
    rw [grepFrom]
    by_cases hin : input = []
    · -- At the end of the input nothing is left over, since the last line has its newline.
      subst hin
      have hempty : todo = [] := by
        cases todo with
        | nil => rfl
        | cons l ls =>
          rw [append_nil, flat_cons] at htext
          exact absurd (by rw [← htext]; simp) hnl
      subst hempty
      simp [readCount, accepted]
    · have hpos : 0 < readCount chunk k (BUFSIZE - carry.length - 1) input.length := by
        have := length_pos_of_ne_nil hin
        unfold readCount BUFSIZE
        omega
      generalize readCount chunk k (BUFSIZE - carry.length - 1) input.length = n at *
      have hsplit : flat todo = (carry ++ input.take n) ++ input.drop n := by
        rw [htext, append_assoc, take_append_drop]
      obtain ⟨done, todo', carry', rfl, hcut, hrest, hnl', hshort'⟩ := flat_cut htodo hsplit
      have hlen : (input.take n).length = n := by rw [length_take]; omega
      have h0 : 0 ∉ carry ++ input.take n := fun hm =>
        nul_not_mem_flat htodo (by rw [hsplit]; exact mem_append_left _ hm)
      have hstr := isStr_chunk hcarry h0
      rw [hlen, hcut] at hstr
      have htotal : carry.length + n = (flat done).length + carry'.length := by
        rw [← length_append, ← hcut, length_append, hlen]
      have hdone := length_le_flat done
      obtain ⟨buf', hscan, hget⟩ := @scan_lines pattern _ 0 (BUFSIZE + 1) done carry'
        (fun l hl => htodo l (mem_append_left _ hl)) hnl' hstr (by rw [length_append]; omega) (by omega)
      rw [zero_add] at hscan hget
      have hm : carry.length + n - (flat done).length = carry'.length := by omega
      simp only [if_pos hpos, storeAll_eq (show carry.length + (input.take n).length ≤ BUFSIZE by omega),
        Option.bind_eq_bind, Option.bind_some, store_eq hroom, hscan, if_pos (show carry.length + n > 0 by omega), hm,
        memmove_eq (show 0 + carry'.length ≤ BUFSIZE by omega), Option.map_some]
      rw [ih (fun l hl => htodo l (mem_append_right _ hl)) hrest.symm hnl' hshort' (by rw [hget]; exact getBytes_setBytes)
        (by rw [length_drop]; omega), accepted_append]
      rfl

/-- WHAT `grep` WRITES DOES NOT DEPEND ON THE CHUNKS: of an input of lines that fit, each line that matches is written with
    its newline, once and in order, however `read` cuts the input; no store misses the buffer. -/
theorem grep_lines (chunk : Nat → Nat) (pattern : List UInt8) (buf : Buf) (lines : List (List UInt8))
    (hlines : ∀ l ∈ lines, Line l) :
    grep chunk pattern buf (flat lines) =
      some ((lines.filter (matchRe pattern)).map (· ++ [newline])) :=
  @grepFrom_lines chunk pattern _ 0 buf [] _ lines hlines rfl not_mem_nil (Nat.zero_le _) rfl (Nat.lt_succ_self _)

theorem grep_lines_two : (∀ l ∈ [[97, 98], [99]], Line l) ∧
    grep (fun k => k) [98] (fun _ => 0) [97, 98, 10, 99, 10] = some [[97, 98, 10]] := by
  have hlines : ∀ l ∈ [[97, 98], [99]], Line l := by
    simp only [forall_mem_cons]
    exact ⟨⟨by decide, by decide, by decide⟩, ⟨by decide, by decide, by decide⟩, by simp⟩
  exact ⟨hlines, grep_lines (fun k => k) [98] (fun _ => 0) [[97, 98], [99]] hlines⟩

end Xv6.Grep
