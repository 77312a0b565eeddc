import Xv6.Shell.Parse

/-! The tokens of a line, and what `gettoken` and `peek` have to do with them.

    `tokens` cuts a line into words and symbols. For a cursor `ps` in the line `s`, the tokens still to come
    are those of the rest of the line (`toks s ps`): `peek` looks at the first of them, and `gettoken` takes
    it off. -/

namespace Xv6.Shell
open List Text

/-- The tokens of the shell's language, for words of type `W`. -/
inductive Tok (W : Type) where
  | word (w : W)
  | bar | lpar | rpar | semi | amp | lt | gt | gtgt
  deriving DecidableEq

/-- What `gettoken` returns for a token. -/
def Tok.code {W : Type} : Tok W → UInt8
  | .word _ => letterA
  | .bar => Shell.bar
  | .lpar => Shell.lpar
  | .rpar => Shell.rpar
  | .semi => Shell.semi
  | .amp => Shell.amp
  | .lt => Shell.lt
  | .gt => Shell.gt
  | .gtgt => plus

/-- The symbol that a token starts with. -/
def Tok.symbol {W : Type} : Tok W → Option UInt8
  | .word _ => none
  | .gtgt => some Shell.gt
  | tok => some tok.code

/-- The token that a character other than `>` makes by itself. -/
def single {W : Type} (c : UInt8) : Option (Tok W) :=
  if c = Shell.bar then some .bar
  else if c = Shell.lpar then some .lpar
  else if c = Shell.rpar then some .rpar
  else if c = Shell.semi then some .semi
  else if c = Shell.amp then some .amp
  else if c = Shell.lt then some .lt
  else none

/-- The tokens of a line: blanks separate, and the longest token is taken. -/
def tokens : List UInt8 → List (Tok (List UInt8))
  | [] => []
  | c :: s =>
    if isSpace c then tokens s
    else if c = Shell.gt then
      if s.head? = some Shell.gt then .gtgt :: tokens s.tail else .gt :: tokens s
    else
      match single c with
      | some tok => tok :: tokens s
      | none => .word (c :: s.takeWhile isWord) :: tokens (s.dropWhile isWord)
termination_by s => s.length
decreasing_by
  all_goals simp only [length_cons]
  · omega
  · have := s.length_tail; omega
  · omega
  · omega
  · have := (dropWhile_suffix (l := s) isWord).length_le; omega

/-! ### Cursors -/

section Cursor
variable {s : List UInt8} {ps : Nat}

theorem buf_eq (s : List UInt8) (ps : Nat) : (of s).buf ps = (s.drop ps).headD 0 := by
  simp [of, getD_eq_getElem?_getD, headD_eq_head?_getD]

theorem scan_eq (s : List UInt8) (p : UInt8 → Bool) : ∀ (n ps : Nat), ps + n = s.length →
    (of s).scan p ps n = ps + ((s.drop ps).takeWhile p).length
  | 0, ps, h => by
    have hnil : s.drop ps = [] := drop_eq_nil_of_le (by omega)
    rw [scan, hnil]; rfl
  | n + 1, ps, h => by
    obtain ⟨c, hc⟩ : ∃ c, s.drop ps = c :: s.drop (ps + 1) :=
      ⟨_, drop_eq_getElem_cons (by omega)⟩
    have hbuf : (of s).buf ps = c := by rw [buf_eq, hc]; rfl
    rw [scan, hbuf, hc, takeWhile_cons]
    split
    · rw [scan_eq s p n (ps + 1) (by omega), length_cons]; omega
    · rfl

theorem skip_eq (h : ps ≤ s.length) (p : UInt8 → Bool) :
    (of s).skip p ps = ps + ((s.drop ps).takeWhile p).length := by
  change (of s).scan p ps (s.length - ps) = _
  exact scan_eq s p _ ps (by omega)

theorem drop_length_takeWhile (p : UInt8 → Bool) (l : List UInt8) : l.drop (l.takeWhile p).length = l.dropWhile p := by
  have h : (l.takeWhile p ++ l.dropWhile p).drop (l.takeWhile p).length = l.dropWhile p := drop_left
  rwa [takeWhile_append_dropWhile] at h

theorem drop_skip (h : ps ≤ s.length) (p : UInt8 → Bool) :
    s.drop ((of s).skip p ps) = (s.drop ps).dropWhile p := by
  rw [skip_eq h, ← drop_drop, drop_length_takeWhile]

theorem skip_le (h : ps ≤ s.length) (p : UInt8 → Bool) : (of s).skip p ps ≤ s.length := by
  have := ( takeWhile_prefix (l := s.drop ps) p).length_le
  rw [length_drop] at this
  rw [skip_eq h]
  omega

end Cursor

/-! ### One token -/

/-- The token that starts with `c`, and what comes after it. -/
def cut (c : UInt8) (s : List UInt8) : Tok (List UInt8) × List UInt8 :=
  if c = Shell.gt then
    if s.head? = some Shell.gt then (.gtgt, s.tail) else (.gt, s)
  else
    match single c with
    | some tok => (tok, s)
    | none => (.word (c :: s.takeWhile isWord), s.dropWhile isWord)

theorem tokens_cons {c : UInt8} (h : isSpace c = false) (s : List UInt8) :
    tokens (c :: s) = (cut c s).1 :: tokens (cut c s).2 := by
  rw [tokens, if_neg (by simp [h]), cut]
  split
  · split <;> rfl
  · cases single (W := List UInt8) c with
    | some tok => rfl
    | none => rfl

theorem tokens_dropWhile : ∀ s : List UInt8, tokens (s.dropWhile isSpace) = tokens s
  | [] => rfl
  | c :: s => by
    rw [dropWhile_cons]
    split
    · rw [tokens_dropWhile s, tokens, if_pos ‹_›]
    · rfl

attribute [local simp] Tok.code Tok.symbol

/-- A character other than `>` is a token, or belongs to a word. -/
theorem single_cases (c : UInt8) : (∃ tok : Tok (List UInt8), single c = some tok ∧ tok.code = c ∧ tok.symbol = some c ∧
      (c = bar ∨ c = lpar ∨ c = rpar ∨ c = semi ∨ c = amp ∨ c = lt)) ∨
    single (W := List UInt8) c = none ∧ ¬(c = bar ∨ c = lpar ∨ c = rpar ∨ c = semi ∨ c = amp ∨ c = lt) := by
  unfold single
  split_ifs
  case neg => exact .inr ⟨rfl, by simp [*]⟩
  all_goals exact .inl ⟨_, rfl, by simp [*], by simp [*], by simp [*]⟩

/-- The tokens behind the cursor `ps`. -/
def toks (s : List UInt8) (ps : Nat) : List (Tok (List UInt8)) := tokens (s.drop ps)

/-- The characters of a word. -/
def Text.str (t : Text) (w : Span) : List UInt8 := (range (w.eq - w.q)).map fun i => t.buf (w.q + i)

/-- A word in the text: it consists of word characters, and ends where they end. -/
structure Text.Word (t : Text) (w : Span) : Prop where
  ordered : w.q ≤ w.eq
  le : w.eq ≤ t.es
  inside : ∀ i, w.q ≤ i → i < w.eq → isWord (t.buf i) = true
  after : w.eq = t.es ∨ isWord (t.buf w.eq) = false

section One
variable {s : List UInt8} {ps : Nat}

theorem toks_skip (h : ps ≤ s.length) : toks s ((of s).skip isSpace ps) = toks s ps := by
  rw [toks, drop_skip h, tokens_dropWhile, toks]

/-- The cursor stands at the end of the line or before a token. -/
theorem rest_cases (h0 : 0 ∉ s) (h : ps ≤ s.length) :
    s.drop ((of s).skip isSpace ps) = [] ∧ toks s ps = [] ∨
    ∃ c r, s.drop ((of s).skip isSpace ps) = c :: r ∧ isSpace c = false ∧ c ≠ 0 ∧
      toks s ps = (cut c r).1 :: tokens (cut c r).2 := by
  rw [← toks_skip h, toks]
  cases hr : s.drop ((of s).skip isSpace ps) with
  | nil => exact .inl ⟨rfl, by rw [tokens]⟩
  | cons c r =>
    have hspace : isSpace c = false := by
      have hhead := head?_dropWhile_not isSpace (s.drop ps)
      rw [← drop_skip h, hr] at hhead
      simpa using hhead
    have hmem : c ∈ s := mem_of_mem_drop (hr ▸ mem_cons_self ..)
    exact .inr ⟨c, r, rfl, hspace, fun hc => h0 (hc ▸ hmem), tokens_cons hspace r⟩

theorem cut_symbol (c : UInt8) (r : List UInt8) : (cut c r).1.symbol = if c ∈ symbols then some c else none := by
  unfold cut
  split
  next hgt =>
    subst hgt
    rw [if_pos (show Shell.gt ∈ symbols by decide)]
    split <;> rfl
  next hgt =>
    rcases single_cases c with ⟨tok, htok, -, hsym, hc⟩ | ⟨hnone, hc⟩
    · rw [htok, if_pos (by simp only [symbols, mem_cons]; tauto)]
      exact hsym
    · rw [hnone, if_neg (by simp only [symbols, mem_cons, not_mem_nil]; tauto)]
      rfl

/-- `peek` looks at the first token, and moves to it. -/
theorem peek_eq (h0 : 0 ∉ s) (h : ps ≤ s.length) (set : List UInt8) (hset : ∀ c ∈ set, c ∈ symbols) :
    ∃ ps', peek (of s) ps set = (((toks s ps).head?.bind Tok.symbol).any set.contains, ps') ∧ ps' ≤ s.length ∧
      toks s ps' = toks s ps := by
  refine ⟨_, Prod.ext ?_ rfl, skip_le h _, toks_skip h⟩
  unfold peek
  dsimp only
  rw [buf_eq]
  rcases rest_cases h0 h with ⟨hr, htoks⟩ | ⟨c, r, hr, hspace, hc, htoks⟩
  · rw [hr, htoks]; rfl
  · rw [hr, htoks]
    simp only [headD_cons, head?_cons, Option.bind_some, cut_symbol]
    split
    · simp [hc]
    next hsym =>
      have : c ∉ set := fun hmem => hsym (hset c hmem)
      simp [this]

/-- The token at a position, as the line has it. -/
theorem token_eq {p : Nat} {c : UInt8} {r : List UInt8} (hr : s.drop p = c :: r) (hc : c ≠ 0) (hspace : isSpace c = false) :
    ((of s).token p).1 = (cut c r).1.code ∧ s.drop ((of s).token p).2 = (cut c r).2 ∧
      ((of s).token p).2 ≤ s.length ∧ ∀ w, (cut c r).1 = .word w →
        ((of s).token p).2 = p + w.length ∧ w = (s.drop p).takeWhile isWord := by
  have hlt : p < s.length := by
    by_contra hge
    rw [drop_eq_nil_of_le (by omega)] at hr
    cases hr
  have hbuf : (of s).buf p = c := by rw [buf_eq, hr]; rfl
  have hnext : s.drop (p + 1) = r := by rw [← drop_drop, hr]; rfl
  have hbuf' : (of s).buf (p + 1) = r.headD 0 := by rw [buf_eq, hnext]
  unfold token cut
  rw [hbuf, hbuf', if_neg hc]
  by_cases hgt : c = Shell.gt
  · subst hgt
    rw [if_neg (by decide), if_pos rfl, if_pos rfl]
    cases r with
    | nil =>
      refine ⟨rfl, hnext, hlt, ?_⟩
      rintro w ⟨⟩
    | cons d r =>
      by_cases hd : d = Shell.gt
      · subst hd
        have hnext' : s.drop (p + 2) = r := by rw [← drop_drop, hr]; rfl
        have hlt' : p + 2 ≤ s.length := by
          have := congrArg length hnext
          rw [length_drop, length_cons] at this
          omega
        refine ⟨rfl, hnext', hlt', ?_⟩
        rintro w ⟨⟩
      · have hhead : ¬(d :: r).head? = some Shell.gt := fun h => hd (Option.some.inj h)
        have hhead' : ¬(d :: r).headD 0 = Shell.gt := hd
        rw [if_neg hhead, if_neg hhead']
        refine ⟨rfl, hnext, hlt, ?_⟩
        rintro w ⟨⟩
  · rcases single_cases c with ⟨tok, htok, hcode, -, hc'⟩ | ⟨hnone, hc'⟩
    · rw [if_pos hc', if_neg hgt, htok]
      refine ⟨hcode.symm, hnext, hlt, ?_⟩
      rintro w rfl
      simp at hcode
      subst hcode
      exact absurd hc' (by decide)
    · have hword : isWord c = true := by
        have hsym : c ∉ symbols := by simp only [symbols, mem_cons, not_mem_nil]; tauto
        have hsp : c ∉ whitespace := by simpa [isSpace] using hspace
        simp [isWord, hsym, hsp]
      have htake : (s.drop p).takeWhile isWord = c :: r.takeWhile isWord := by
        rw [hr, takeWhile_cons, if_pos hword]
      rw [if_neg hc', if_neg hgt, if_neg hgt, hnone]
      refine ⟨rfl, ?_, skip_le hlt.le _, ?_⟩
      · dsimp only
        rw [drop_skip hlt.le, hr, dropWhile_cons, if_pos hword]
      · rintro w ⟨⟩
        dsimp only
        exact ⟨by rw [skip_eq hlt.le, htake], htake.symm⟩

theorem str_eq (s : List UInt8) {p e : Nat} (he : e ≤ s.length) : (of s).str ⟨p, e⟩ = (s.drop p).take (e - p) := by
  refine ext_getElem ?_ fun i h1 h2 => ?_
  · simp only [str, length_map, length_range, length_take, length_drop]
    omega
  · have hlt : p + i < s.length := by
      simp only [str, length_map, length_range] at h1
      omega
    simp [str, of, hlt]

/-- A maximal run of word characters is a word. -/
theorem word_of_takeWhile {p : Nat} {w : List UInt8} (hp : p ≤ s.length) (hw : w = (s.drop p).takeWhile isWord) :
    (of s).Word ⟨p, p + w.length⟩ ∧ (of s).str ⟨p, p + w.length⟩ = w := by
  have hpre : w <+: s.drop p := hw ▸ takeWhile_prefix _
  have hle : p + w.length ≤ s.length := by
    have := hpre.length_le
    rw [length_drop] at this
    omega
  have hstr : (of s).str ⟨p, p + w.length⟩ = w := by
    rw [str_eq s hle, Nat.add_sub_cancel_left]
    exact (prefix_iff_eq_take.mp hpre).symm
  refine ⟨⟨Nat.le_add_right .., hle, fun i h1 h2 => ?_, ?_⟩, hstr⟩
  · have hmem : (of s).buf i ∈ w := by
      rw [← hstr]
      refine mem_map.mpr ⟨i - p, mem_range.mpr (by dsimp only at h1 h2 ⊢; omega), ?_⟩
      dsimp only at h1 ⊢
      rw [Nat.add_sub_cancel' h1]
    rw [hw] at hmem
    exact mem_takeWhile_imp hmem
  · rcases hle.lt_or_eq with hlt | heq
    · right
      have hhead := head?_dropWhile_not isWord (s.drop p)
      have hrest : (s.drop p).dropWhile isWord = s.drop (p + w.length) := by
        rw [← drop_length_takeWhile, ← hw, drop_drop]
      rw [hrest] at hhead
      dsimp only
      rw [buf_eq]
      obtain ⟨c, r, hcons⟩ : ∃ c r, s.drop (p + w.length) = c :: r := ⟨_, _, drop_eq_getElem_cons hlt⟩
      rw [hcons] at hhead ⊢
      exact hhead
    · exact .inl heq

/-- At the end of the line `gettoken` returns 0 and stays there. -/
theorem gettoken_nil (h0 : 0 ∉ s) (h : ps ≤ s.length) (htoks : toks s ps = []) :
    ∃ w ps', gettoken (of s) ps = (0, w, ps') ∧ ps' ≤ s.length ∧ toks s ps' = [] := by
  rcases rest_cases h0 h with ⟨hr, -⟩ | ⟨c, r, -, -, -, hcons⟩
  · have hbuf : (of s).buf ((of s).skip isSpace ps) = 0 := by rw [buf_eq, hr]; rfl
    have htok : (of s).token ((of s).skip isSpace ps) = (0, (of s).skip isSpace ps) := by
      rw [token, if_pos hbuf]
    refine ⟨_, _, by unfold gettoken; dsimp only; rw [htok], skip_le (skip_le h _) _, ?_⟩
    rw [toks_skip (skip_le h _), toks_skip h, htoks]
  · rw [hcons] at htoks
    cases htoks

/-- `gettoken` takes the first token off. -/
theorem gettoken_cons (h0 : 0 ∉ s) (h : ps ≤ s.length) {tok : Tok (List UInt8)} {ts : List (Tok (List UInt8))}
    (htoks : toks s ps = tok :: ts) :
    ∃ w ps', gettoken (of s) ps = (tok.code, w, ps') ∧ ps' ≤ s.length ∧ toks s ps' = ts ∧
      ∀ str, tok = .word str → (of s).Word w ∧ (of s).str w = str := by
  rcases rest_cases h0 h with ⟨-, hnil⟩ | ⟨c, r, hr, hspace, hc, hcons⟩
  · rw [hnil] at htoks
    cases htoks
  · rw [hcons] at htoks
    obtain ⟨rfl, rfl⟩ := cons.inj htoks
    obtain ⟨hcode, hrest, hle, hword⟩ := token_eq hr hc hspace
    refine ⟨_, _, Prod.ext hcode rfl, skip_le hle _, ?_, fun str hstr => ?_⟩
    · rw [toks_skip hle, toks, hrest]
    · obtain ⟨hend, htake⟩ := hword str hstr
      rw [hend]
      exact word_of_takeWhile (skip_le h _) htake

end One

theorem length_tokens_le (s : List UInt8) : (tokens s).length ≤ s.length := by
  fun_induction tokens s with
  | case1 => exact le_refl _
  | case2 c s _ ih => exact ih.trans (Nat.le_succ _)
  | case3 s _ _ ih =>
    have := s.length_tail
    simp only [length_cons]
    omega
  | case4 s _ _ ih => simpa using ih
  | case5 c s _ _ tok _ ih => simpa using ih
  | case6 c s _ _ _ ih =>
    have := (dropWhile_suffix (l := s) isWord).length_le
    simp only [length_cons]
    omega

end Xv6.Shell
