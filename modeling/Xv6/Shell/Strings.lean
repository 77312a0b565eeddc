import Xv6.Ulib
import Xv6.Shell.Accepts

/-! The strings of a parsed line.

    All the nodes of the tree point into one buffer, and `nulterminate` stores a NUL behind every word, in the order of
    the tree. `Cursor` are the positions that the parser can come to: 0, and whatever `peek` and `gettoken` make of such a
    position. None is behind the NUL of the line, every word of the tree was taken at one of them, and a NUL stored behind
    one word never falls into another:

        a > b ; c | d NUL
          ^   ^ ^   ^ ^      the NUL behind `b` overwrites a symbol, that behind `d` the NUL of the line -/

namespace Xv6.Shell
open List Text

/-! ### Cursors -/

/-- The positions that the parser can come to. -/
inductive Cursor (t : Text) : Nat → Prop where
  | start : Cursor t 0
  | peek {ps : Nat} (toks : List UInt8) (h : Cursor t ps) : Cursor t (Shell.peek t ps toks).2
  | gettoken {ps : Nat} (h : Cursor t ps) : Cursor t (Shell.gettoken t ps).2.2

/-- The place of a word that `gettoken` returned. -/
def Taken (t : Text) (w : Span) : Prop := ∃ ps, Cursor t ps ∧ (gettoken t ps).1 = letterA ∧ (gettoken t ps).2.1 = w

section Cursors
variable {s : List UInt8} {ps : Nat}

theorem Cursor.le (h0 : 0 ∉ s) (h : Cursor (of s) ps) : ps ≤ s.length := by
  induction h with
  | start => exact Nat.zero_le _
  | peek toks _ ih => exact skip_le ih _
  | @gettoken ps _ ih =>
    cases htoks : toks s ps with
    | nil =>
      obtain ⟨w, ps', hget, hle, -⟩ := gettoken_nil h0 ih htoks
      rw [hget]
      exact hle
    | cons tok ts =>
      obtain ⟨w, ps', hget, hle, -⟩ := gettoken_cons h0 ih htoks
      rw [hget]
      exact hle

end Cursors

/-! ### Every word was taken at a cursor -/

/-- What the parser returns, if it returns, satisfies `Q`. -/
def Yields {α : Type} (r : Except Panic α) (Q : α → Prop) : Prop := ∀ a, r = .ok a → Q a

section Yields
variable {α β : Type} {r : Except Panic α} {f : α → Except Panic β} {P : α → Prop} {Q : β → Prop}

theorem Yields.bind (h : Yields r P) (hf : ∀ a, P a → Yields (f a) Q) : Yields (r >>= f) Q := by
  cases r with
  | ok a => exact hf a (h a rfl)
  | error e => exact nofun

theorem yields_ok {a : α} (h : P a) : Yields (.ok a) P := by
  rintro _ ⟨⟩
  exact h

theorem yields_error {e : Panic} : Yields (.error e : Except Panic α) P := nofun

end Yields

/-- A tree of taken words, and a cursor behind it. -/
def Tracked (t : Text) (r : Cmd Span × Nat) : Prop := r.1.All (Taken t) ∧ Cursor t r.2

section Tracked
variable {t : Text}

theorem parseredirs_tracked : ∀ {n : Nat} {cmd : Cmd Span} {ps : Nat}, cmd.All (Taken t) → Cursor t ps →
    Yields (parseredirs t n cmd ps) (Tracked t)
  | 0, _, _, _, _ => yields_error
  | n + 1, cmd, ps, hcmd, hps => by
    rw [parseredirs]
    dsimp only
    split
    next =>
      split
      next => exact yields_error
      next hfile =>
        have htok := (hps.peek [lt, gt]).gettoken
        exact parseredirs_tracked (all_redircmd _ hcmd ⟨_, htok, not_not.mp hfile, rfl⟩) htok.gettoken
    next => exact yields_ok ⟨hcmd, hps.peek [lt, gt]⟩

theorem parseargs_tracked : ∀ {n argc : Nat} {ret : Cmd Span} {ps : Nat}, ret.All (Taken t) → Cursor t ps →
    Yields (parseargs t n argc ret ps) (Tracked t)
  | 0, _, _, _, _, _ => yields_error
  | n + 1, argc, ret, ps, hret, hps => by
    have hstop := hps.peek [bar, rpar, amp, semi]
    rw [parseargs]
    dsimp only
    split
    next => exact yields_ok ⟨hret, hstop⟩
    split
    next => exact yields_ok ⟨hret, hstop.gettoken⟩
    split
    next => exact yields_error
    next hword =>
      split
      next => exact yields_error
      next =>
        have hpush := all_pushArg ⟨_, hstop, not_not.mp hword, rfl⟩ hret
        exact (parseredirs_tracked hpush hstop.gettoken).bind fun r hr => parseargs_tracked hr.1 hr.2

theorem parseback_tracked : ∀ {n : Nat} {cmd : Cmd Span} {ps : Nat}, cmd.All (Taken t) → Cursor t ps →
    Yields (parseback t n cmd ps) (Tracked t)
  | 0, _, _, _, _ => yields_error
  | n + 1, cmd, ps, hcmd, hps => by
    rw [parseback]
    split
    next => exact parseback_tracked hcmd (hps.peek [amp]).gettoken
    next => exact yields_ok ⟨hcmd, hps.peek [amp]⟩

/-- One more call of each function, when the calls that it makes are tracked. -/
theorem parseline_tracked {n ps : Nat} (hpipe : ∀ ps, Cursor t ps → Yields (parsepipe t n ps) (Tracked t))
    (hline : ∀ ps, Cursor t ps → Yields (parseline t n ps) (Tracked t)) (hps : Cursor t ps) :
    Yields (parseline t (n + 1) ps) (Tracked t) := by
  rw [parseline]
  refine (hpipe ps hps).bind fun first hfirst => ?_
  refine (parseback_tracked hfirst.1 hfirst.2).bind fun cmd hcmd => ?_
  have hmore := hcmd.2.peek [semi]
  dsimp only
  split
  next => exact (hline _ hmore.gettoken).bind fun rest hrest => yields_ok ⟨⟨hcmd.1, hrest.1⟩, hrest.2⟩
  next => exact yields_ok ⟨hcmd.1, hmore⟩

theorem parsepipe_tracked {n ps : Nat} (hexec : ∀ ps, Cursor t ps → Yields (parseexec t n ps) (Tracked t))
    (hpipe : ∀ ps, Cursor t ps → Yields (parsepipe t n ps) (Tracked t)) (hps : Cursor t ps) :
    Yields (parsepipe t (n + 1) ps) (Tracked t) := by
  rw [parsepipe]
  refine (hexec ps hps).bind fun cmd hcmd => ?_
  have hmore := hcmd.2.peek [bar]
  dsimp only
  split
  next => exact (hpipe _ hmore.gettoken).bind fun rest hrest => yields_ok ⟨⟨hcmd.1, hrest.1⟩, hrest.2⟩
  next => exact yields_ok ⟨hcmd.1, hmore⟩

theorem parseblock_tracked {n ps : Nat} (hline : ∀ ps, Cursor t ps → Yields (parseline t n ps) (Tracked t))
    (hps : Cursor t ps) : Yields (parseblock t (n + 1) ps) (Tracked t) := by
  rw [parseblock]
  dsimp only
  split
  next =>
    refine (hline _ (hps.peek [lpar]).gettoken).bind fun cmd hcmd => ?_
    split
    next => exact parseredirs_tracked hcmd.1 (hcmd.2.peek [rpar]).gettoken
    next => exact yields_error
  next => exact yields_error

theorem parseexec_tracked {n ps : Nat} (hblock : ∀ ps, Cursor t ps → Yields (parseblock t n ps) (Tracked t))
    (hps : Cursor t ps) : Yields (parseexec t (n + 1) ps) (Tracked t) := by
  have hpeek := hps.peek [lpar]
  rw [parseexec]
  split
  next => exact hblock _ hpeek
  next => exact (parseredirs_tracked (by rintro _ ⟨⟩) hpeek).bind fun r hr => parseargs_tracked hr.1 hr.2

/-- By induction on the calls, all four functions at once. -/
theorem parse_tracked (n : Nat) : (∀ ps, Cursor t ps → Yields (parseline t n ps) (Tracked t)) ∧
    (∀ ps, Cursor t ps → Yields (parsepipe t n ps) (Tracked t)) ∧
    (∀ ps, Cursor t ps → Yields (parseblock t n ps) (Tracked t)) ∧
    (∀ ps, Cursor t ps → Yields (parseexec t n ps) (Tracked t)) := by
  induction n with
  | zero =>
    simp only [parseline, parsepipe, parseblock, parseexec]
    exact ⟨fun _ _ => yields_error, fun _ _ => yields_error, fun _ _ => yields_error, fun _ _ => yields_error⟩
  | succ n ih =>
    obtain ⟨hline, hpipe, hblock, hexec⟩ := ih
    exact ⟨fun _ => parseline_tracked hpipe hline, fun _ => parsepipe_tracked hexec hpipe,
      fun _ => parseblock_tracked hline, fun _ => parseexec_tracked hblock⟩

end Tracked

/-! ### Argument vectors -/

section Vectors
variable {W V : Type}

/-- The arguments of the `exec` nodes. -/
def Cmd.execs : Cmd W → List (List W)
  | .exec argv => [argv]
  | .redir c _ _ _ => c.execs
  | .pipe l r => l.execs ++ r.execs
  | .list l r => l.execs ++ r.execs
  | .back c => c.execs

/-- The array `argv` of an `exec` node, zeroed by `execcmd` before the words are stored; `none` is the null pointer. -/
def slots (argv : List W) (i : Fin MAXARGS) : Option W := argv[i.val]?

theorem execs_map (f : W → V) (c : Cmd W) : (c.map f).execs = c.execs.map (map f) := by
  induction c with
  | exec argv => rfl
  | redir c file mode fd ih => exact ih
  | pipe l r ihl ihr | list l r ihl ihr => rw [Cmd.map, Cmd.execs, ihl, ihr, Cmd.execs, map_append]
  | back c ih => exact ih

theorem execs_wrap (rs : List (Tok W × W)) (c : Cmd W) : (wrap c rs).execs = c.execs := by
  induction rs generalizing c with
  | nil => rfl
  | cons r rs ih =>
    obtain ⟨tok, w⟩ := r
    rw [wrap_cons, ih]
    cases tok with
    | lt => rfl
    | gt => rfl
    | gtgt => rfl
    | _ => rfl

theorem execs_back (n : Nat) (c : Cmd W) : (Cmd.back^[n] c).execs = c.execs := by
  induction n generalizing c with
  | zero => rfl
  | succ n ih => rw [Function.iterate_succ_apply, ih, Cmd.execs]

/-- A command that the grammar derives leaves room for the null pointer. -/
theorem Derives.execs_lt {k : Nonterm} {ts : List (Tok W)} {c : Cmd W} (h : Derives k ts c) :
    ∀ argv ∈ c.execs, argv.length < MAXARGS := by
  induction h with
  | line n _ ih => rwa [execs_back]
  | list n _ _ ih ih' => rw [Cmd.execs, execs_back, forall_mem_append]; exact ⟨ih, ih'⟩
  | exec _ ih => exact ih
  | pipe _ _ ih ih' => rw [Cmd.execs, forall_mem_append]; exact ⟨ih, ih'⟩
  | block _ _ ih => rwa [execs_wrap]
  | simple _ _ hargs =>
    rw [execs_wrap, Cmd.execs, forall_mem_singleton]
    exact lt_of_le_of_lt hargs (by decide)

end Vectors

/-! ### The strings -/

/-- Where `nulterminate` stores, in its order. -/
def stores (c : Cmd Span) : List Nat := c.words.map Span.eq

theorem nulterminate_eq_stores (c : Cmd Span) (buf : Nat → UInt8) :
    nulterminate c buf = (stores c).foldl (fun buf i => Function.update buf i 0) buf := by
  unfold stores
  induction c generalizing buf with
  | exec argv => rw [nulterminate, Cmd.words, foldl_map]
  | redir c file mode fd ih =>
    rw [nulterminate, Cmd.words, map_append, foldl_append, ← ih]
    rfl
  | pipe l r ihl ihr | list l r ihl ihr =>
    rw [nulterminate, Cmd.words, map_append, foldl_append, ← ihl, ← ihr]
  | back c ih => exact ih buf

/-- A word of the tree is a string in the buffer when all the NULs are stored. -/
theorem isStr_word {s : List UInt8} (h0 : 0 ∉ s) {c : Cmd Span} (hc : c.All (of s).Word) {w : Span} (hw : w ∈ c.words) :
    Ulib.IsStr (nulterminate c (of s).buf) w.q ((of s).str w) := by
  obtain ⟨hq, hle, -, -⟩ := Cmd.all_iff.mp hc w hw
  have hlen : ((of s).str w).length = w.eq - w.q := by rw [str, length_map, length_range]
  refine Ulib.isStr_iff.mpr ⟨?_, nul_not_mem_str h0 hle, ?_⟩
  · rw [hlen]
    exact nulterminate_str hc hw
  · rw [hlen, Nat.add_sub_cancel' hq]
    exact nulterminate_behind hw _

/-- PARSED WORDS SURVIVE THE NULS: when `parsecmd` returns, its tree is that of the tokens of the line, and every word of
    the tree was returned by `gettoken` and is, after `nulterminate`, a string with the characters that it has in the line.
    Every argument vector ends in a null pointer inside its array, and no cursor and no store goes behind the NUL of the
    line. -/
theorem parsecmd_strings (s : List UInt8) (h0 : 0 ∉ s) (c : Cmd (List UInt8)) (hc : parsecmd s = .ok c) :
    ∃ cmd ps, parseline (of s) (4 * s.length + 4) 0 = .ok (cmd, ps) ∧
      c = cmd.map (fun w => cstring (nulterminate cmd (of s).buf) s.length w.q) ∧
      Derives .line (tokens s) (cmd.map (of s).str) ∧
      (∀ w ∈ cmd.words, Taken (of s) w ∧
        Ulib.IsStr (nulterminate cmd (of s).buf) w.q ((s.drop w.q).take (w.eq - w.q))) ∧
      (∀ argv ∈ cmd.execs, ∃ argc : Fin MAXARGS, argc.val = argv.length ∧ slots argv argc = none) ∧
      (∀ buf, nulterminate cmd buf = (stores cmd).foldl (fun buf i => Function.update buf i 0) buf) ∧
      (∀ i ∈ stores cmd, i ≤ s.length) ∧ Cursor (of s) ps ∧ ∀ p, Cursor (of s) p → p ≤ s.length := by
  have hsound : Returns (parseline (of s) (4 * s.length + 4) 0) _ :=
    sound h0 _ .line 0 (Nat.zero_le _) (parsecmd_fuel s)
  have hderives : Derives .line (tokens s) c := by
    have h := parsecmd_sound h0
    rwa [hc] at h
  cases hline : parseline (of s) (4 * s.length + 4) 0 with
  | error e =>
    have herror : parsecmd s = .error e := by simp only [parsecmd, hline]; rfl
    rw [herror] at hc
    cases hc
  | ok a =>
    obtain ⟨cmd, ps⟩ := a
    rw [hline] at hsound
    obtain ⟨hall, ts, hover, -⟩ := hsound
    have htracked := (parse_tracked _).1 0 .start _ hline
    have hstr : c = cmd.map (of s).str := by
      rw [parsecmd_eq h0 hline hall hover.le] at hc
      split at hc
      next => cases hc; rfl
      next => cases hc
    have hstring : cmd.map (of s).str = cmd.map fun w => cstring (nulterminate cmd (of s).buf) s.length w.q :=
      Cmd.map_congr fun w hw => (cstring_eq h0 hall hw).symm
    refine ⟨cmd, ps, rfl, hstr.trans hstring, hstr ▸ hderives, fun w hw => ⟨?_, ?_⟩, fun argv hargv => ?_,
      nulterminate_eq_stores cmd, fun i hi => ?_, htracked.2, fun p hp => hp.le h0⟩
    · exact Cmd.all_iff.mp htracked.1 w hw
    · obtain ⟨q, eq⟩ := w
      rw [← str_eq s (Cmd.all_iff.mp hall _ hw).le]
      exact isStr_word h0 hall hw
    · have hlen : argv.length < MAXARGS := by
        have hmap := hderives.execs_lt (argv.map (of s).str)
          (by rw [hstr, execs_map]; exact mem_map_of_mem hargv)
        rwa [length_map] at hmap
      exact ⟨⟨argv.length, hlen⟩, rfl, getElem?_eq_none (Nat.le_refl _)⟩
    · obtain ⟨w, hw, rfl⟩ := mem_map.mp hi
      exact (Cmd.all_iff.mp hall w hw).le

/-- The line `a>b`. -/
theorem parsecmd_strings_redir :
    0 ∉ [97, 62, (98 : UInt8)] ∧ parsecmd [97, 62, 98] = .ok (.redir (.exec [[97]]) [98] 0x601 1) ∧
      ∃ cmd ps, parseline (of [97, 62, 98]) 16 0 = .ok (cmd, ps) ∧ ∀ i ∈ stores cmd, i ≤ 3 := by
  have h0 : 0 ∉ [97, 62, (98 : UInt8)] := by decide
  have htokens : tokens [97, 62, 98] = [.word [97], .gt, .word [98]] := by
    simp [tokens, isSpace, isWord, whitespace, symbols, single, Shell.gt, bar, lpar, rpar, semi, amp, lt]
  have hderives : Derives .line (tokens [97, 62, 98]) (.redir (.exec [[97]]) [98] 0x601 1) := by
    rw [htokens]
    exact .line 0 (.exec (.simple .nil (.cons (.cons rfl .nil) .nil) (by decide)))
  have hok := parsecmd_complete h0 hderives
  obtain ⟨cmd, ps, hline, -, -, -, -, -, hstores, -⟩ := parsecmd_strings [97, 62, 98] h0 _ hok
  exact ⟨h0, hok, cmd, ps, hline, hstores⟩

end Xv6.Shell
