import Xv6.Shell.Tokens

/-! The language of the shell, and the loops of its parser.

        line := pipe '&'* [';' line]
        pipe := exec ['|' pipe]
        exec := '(' line ')' redir* | redir* (word redir*)*
        redir := ('<' | '>' | '>>') word

    `Derives` is this grammar with the tree that a derivation stands for. The loops (`redir*`, `(word redir*)*`,
    `'&'*`) take tokens that it derives. -/

namespace Xv6.Shell
open List Text
open Fs (O_WRONLY O_CREATE O_TRUNC)

/-! ### The grammar -/

section Grammar
variable {W : Type}

def Tok.isRedir : Tok W → Bool
  | .lt | .gt | .gtgt => true
  | _ => false

/-- The tokens that end the arguments of a command. -/
def Tok.stops : Tok W → Bool
  | .bar | .rpar | .amp | .semi => true
  | _ => false

/-- The symbols that no other token starts with. -/
def Tok.alone : Tok W → Bool
  | .bar | .lpar | .rpar | .amp | .semi => true
  | _ => false

/-- The command `c` with a redirection around it. -/
def Tok.redir (c : Cmd W) (file : W) : Tok W → Cmd W
  | .lt => .redir c file 0 0
  | .gt => .redir c file (O_WRONLY ||| O_CREATE ||| O_TRUNC) 1
  | .gtgt => .redir c file (O_WRONLY ||| O_CREATE) 1
  | _ => c

/-- The command `c` with redirections around it, the first one innermost. -/
def wrap (c : Cmd W) (rs : List (Tok W × W)) : Cmd W := rs.foldl (fun c r => r.1.redir c r.2) c

/-- `redir*`. -/
inductive Redirs : List (Tok W) → List (Tok W × W) → Prop where
  | nil : Redirs [] []
  | cons {tok : Tok W} {w : W} {ts : List (Tok W)} {rs : List (Tok W × W)} (htok : tok.isRedir = true)
      (h : Redirs ts rs) : Redirs (tok :: .word w :: ts) ((tok, w) :: rs)

/-- `(word redir*)*`: the words and the redirections. -/
inductive Args : List (Tok W) → List W → List (Tok W × W) → Prop where
  | nil : Args [] [] []
  | cons {w : W} {ts ts' : List (Tok W)} {rs rs' : List (Tok W × W)} {ws : List W} (h : Redirs ts rs)
      (h' : Args ts' ws rs') : Args (.word w :: (ts ++ ts')) (w :: ws) (rs ++ rs')

inductive Nonterm where
  | line | pipe | exec

inductive Derives : Nonterm → List (Tok W) → Cmd W → Prop where
  | line {ts : List (Tok W)} {c : Cmd W} (n : Nat) (h : Derives .pipe ts c) :
      Derives .line (ts ++ replicate n .amp) (Cmd.back^[n] c)
  | list {ts ts' : List (Tok W)} {c c' : Cmd W} (n : Nat) (h : Derives .pipe ts c) (h' : Derives .line ts' c') :
      Derives .line (ts ++ (replicate n .amp ++ .semi :: ts')) (.list (Cmd.back^[n] c) c')
  | exec {ts : List (Tok W)} {c : Cmd W} (h : Derives .exec ts c) : Derives .pipe ts c
  | pipe {ts ts' : List (Tok W)} {c c' : Cmd W} (h : Derives .exec ts c) (h' : Derives .pipe ts' c') :
      Derives .pipe (ts ++ .bar :: ts') (.pipe c c')
  | block {ts ts' : List (Tok W)} {c : Cmd W} {rs : List (Tok W × W)} (h : Derives .line ts c) (h' : Redirs ts' rs) :
      Derives .exec (.lpar :: (ts ++ .rpar :: ts')) (wrap c rs)
  | simple {ts ts' : List (Tok W)} {ws : List W} {rs rs' : List (Tok W × W)} (h : Redirs ts rs) (h' : Args ts' ws rs')
      (hargs : ws.length ≤ MAXARGS - 1) : Derives .exec (ts ++ ts') (wrap (.exec ws) (rs ++ rs'))

end Grammar

/-! ### Trees -/

section Trees
variable {W V : Type}

/-- Every word of the tree satisfies `P`. -/
def Cmd.All (P : W → Prop) : Cmd W → Prop
  | .exec argv => ∀ w ∈ argv, P w
  | .redir c file _ _ => c.All P ∧ P file
  | .pipe l r => l.All P ∧ r.All P
  | .list l r => l.All P ∧ r.All P
  | .back c => c.All P

theorem wrap_cons (c : Cmd W) (tok : Tok W) (w : W) (rs : List (Tok W × W)) :
    wrap c ((tok, w) :: rs) = wrap (tok.redir c w) rs := rfl

theorem wrap_append (c : Cmd W) (rs rs' : List (Tok W × W)) : wrap c (rs ++ rs') = wrap (wrap c rs) rs' :=
  foldl_append ..

theorem pushArg_redir (c : Cmd W) (tok : Tok W) (w a : W) : (tok.redir c w).pushArg a = tok.redir (c.pushArg a) w := by
  cases tok with
  | lt => rfl
  | gt => rfl
  | gtgt => rfl
  | _ => rfl

/-- Adding an argument goes past the redirections. -/
theorem pushArg_wrap (a : W) : ∀ (rs : List (Tok W × W)) (c : Cmd W), (wrap c rs).pushArg a = wrap (c.pushArg a) rs
  | [], _ => rfl
  | (tok, w) :: rs, c => by rw [wrap_cons, pushArg_wrap a rs, pushArg_redir, wrap_cons]

theorem map_pushArg (f : W → V) (a : W) : ∀ c : Cmd W, (c.pushArg a).map f = (c.map f).pushArg (f a)
  | .exec argv => by simp [Cmd.pushArg, Cmd.map]
  | .redir c file mode fd => by simp [Cmd.pushArg, Cmd.map, map_pushArg f a c]
  | .pipe _ _ => rfl
  | .list _ _ => rfl
  | .back _ => rfl

theorem all_pushArg {P : W → Prop} {a : W} (ha : P a) : ∀ {c : Cmd W}, c.All P → (c.pushArg a).All P
  | .exec argv, h => by
    intro w hw
    rcases mem_append.mp hw with hw | hw
    · exact h w hw
    · obtain rfl := mem_singleton.mp hw; exact ha
  | .redir _ _ _ _, h => ⟨all_pushArg ha h.1, h.2⟩
  | .pipe _ _, h => h
  | .list _ _, h => h
  | .back _, h => h

/-- The code of a redirection makes the command that the grammar has for it. -/
theorem map_redircmd {tok : Tok V} (htok : tok.isRedir = true) (f : W → V) (c : Cmd W) (w : W) :
    (redircmd tok.code c w).map f = tok.redir (c.map f) (f w) := by
  cases tok with
  | lt => rfl
  | gt => rfl
  | gtgt => rfl
  | _ => cases htok

theorem all_redircmd {P : W → Prop} {c : Cmd W} {w : W} (tok : UInt8) (hc : c.All P) (hw : P w) : (redircmd tok c w).All P := by
  unfold redircmd
  split
  · exact ⟨hc, hw⟩
  split
  · exact ⟨hc, hw⟩
  split
  · exact ⟨hc, hw⟩
  · exact hc

end Trees

/-! ### The loops -/

section Loops
variable {s : List UInt8} {ps : Nat}

/-- The parser has gone from `ps` to `ps'` over the tokens `ts`. -/
structure Over (s : List UInt8) (ps ps' : Nat) (ts : List (Tok (List UInt8))) : Prop where
  le : ps' ≤ s.length
  took : toks s ps = ts ++ toks s ps'

theorem Over.length_le {ps' : Nat} {ts : List (Tok (List UInt8))} (h : Over s ps ps' ts) :
    (toks s ps').length ≤ (toks s ps).length := by
  rw [h.took, length_append]
  exact Nat.le_add_left ..

/-- `peek` for a redirection. -/
theorem peek_redir (h0 : 0 ∉ s) (h : ps ≤ s.length) :
    ∃ ps', peek (of s) ps [lt, gt] = ((toks s ps).head?.any Tok.isRedir, ps') ∧ ps' ≤ s.length ∧
      toks s ps' = toks s ps := by
  obtain ⟨ps', hpeek, hle, htoks⟩ := peek_eq h0 h [lt, gt] (by simp [symbols])
  refine ⟨ps', ?_, hle, htoks⟩
  rw [hpeek]
  cases toks s ps with
  | nil => rfl
  | cons tok ts => cases tok <;> rfl

/-- `peek` for a token that no other token starts like, and the `gettoken` that takes it off. -/
theorem peek_tok (h0 : 0 ∉ s) (h : ps ≤ s.length) (tok : Tok (List UInt8)) (c : UInt8) (hc : tok.code = c)
    (htok : tok.alone = true) :
    ∃ ps', peek (of s) ps [c] = (decide ((toks s ps).head? = some tok), ps') ∧ ps' ≤ s.length ∧
      toks s ps' = toks s ps ∧ ∀ ts, toks s ps = tok :: ts →
        (gettoken (of s) ps').2.2 ≤ s.length ∧ toks s (gettoken (of s) ps').2.2 = ts := by
  subst hc
  have hsym : ∀ c ∈ [tok.code], c ∈ symbols := by
    cases tok with
    | word _ | lt | gt | gtgt => cases htok
    | _ => simp [Tok.code, symbols]
  obtain ⟨ps', hpeek, hle, htoks⟩ := peek_eq h0 h _ hsym
  refine ⟨ps', ?_, hle, htoks, fun ts hts => ?_⟩
  · rw [hpeek]
    congr 1
    cases toks s ps with
    | nil => rfl
    | cons x ts =>
      cases tok with
      | word _ | lt | gt | gtgt => cases htok
      | _ => cases x <;> rfl
  · obtain ⟨_, ps₂, hget, hle₂, htoks₂, -⟩ := gettoken_cons h0 hle (htoks.trans hts)
    rw [hget]
    exact ⟨hle₂, htoks₂⟩

/-- The parser returns something that satisfies `Q`, or gives up on the line. -/
def Returns {α : Type} (r : Except Panic α) (Q : α → Prop) : Prop :=
  match r with
  | .ok a => Q a
  | .error e => e ≠ .fuel

theorem Returns.bind {α β : Type} {r : Except Panic α} {f : α → Except Panic β} {P : α → Prop} {Q : β → Prop}
    (h : Returns r P) (hf : ∀ a, P a → Returns (f a) Q) : Returns (r >>= f) Q := by
  cases r with
  | ok a => exact hf a h
  | error e => exact h

theorem Returns.imp {α : Type} {r : Except Panic α} {P Q : α → Prop} (h : Returns r P) (hPQ : ∀ a, P a → Q a) : Returns r Q := by
  cases r with
  | ok a => exact hPQ a h
  | error e => exact h

/-- Behind `ps'` there is no redirection. -/
def Unredirected (s : List UInt8) (ps' : Nat) : Prop := (toks s ps').head?.any Tok.isRedir = false

/-- The parser takes the tokens from `ps` on for `redir*`. -/
theorem parseredirs_sound (h0 : 0 ∉ s) : ∀ {n : Nat} {cmd : Cmd Span} {ps : Nat}, ps ≤ s.length →
    (toks s ps).length < n → cmd.All (of s).Word →
    Returns (parseredirs (of s) n cmd ps) fun r => r.1.All (of s).Word ∧ Unredirected s r.2 ∧
      ∃ ts rs, Over s ps r.2 ts ∧ Redirs ts rs ∧ r.1.map (of s).str = wrap (cmd.map (of s).str) rs
  | n + 1, cmd, ps, hps, hn, hcmd => by
    obtain ⟨ps₁, hpeek, hle₁, htoks₁⟩ := peek_redir h0 hps
    rw [parseredirs]
    simp only [hpeek]
    split
    next hredir =>
      obtain ⟨tok, ts, hts, htok⟩ : ∃ tok ts, toks s ps = tok :: ts ∧ tok.isRedir = true := by
        cases hts : toks s ps with
        | nil => rw [hts] at hredir; cases hredir
        | cons tok ts => rw [hts] at hredir; exact ⟨tok, ts, rfl, hredir⟩
      obtain ⟨_, ps₂, hget₂, hle₂, htoks₂, -⟩ := gettoken_cons h0 hle₁ (htoks₁.trans hts)
      simp only [hget₂]
      cases ts with
      | nil =>
        obtain ⟨_, _, hget₃, -⟩ := gettoken_nil h0 hle₂ htoks₂
        rw [hget₃, if_pos (show (0 : UInt8) ≠ letterA by decide)]
        exact nofun
      | cons file ts =>
        obtain ⟨f, ps₃, hget₃, hle₃, htoks₃, hword⟩ := gettoken_cons h0 hle₂ htoks₂
        rw [hget₃]
        cases file with
        | word w =>
          obtain ⟨hfile, hstr⟩ := hword w rfl
          rw [if_neg (by simp [Tok.code])]
          have hlen : (toks s ps₃).length < n := by
            rw [hts] at hn
            simp only [length_cons] at hn
            rw [htoks₃]; omega
          have hrec := parseredirs_sound h0 hle₃ hlen (all_redircmd tok.code hcmd hfile)
          refine hrec.imp fun r => ?_
          rintro ⟨hall, hno, ts', rs, hover, hred, hmap⟩
          refine ⟨hall, hno, tok :: .word w :: ts', (tok, w) :: rs, ⟨hover.le, ?_⟩, .cons htok hred, ?_⟩
          · rw [hts, ← htoks₃, hover.took]; rfl
          · rw [hmap, map_redircmd htok, hstr, wrap_cons]
        | _ => rw [if_pos (by simp only [Tok.code]; decide)]; exact nofun
    next hno =>
      refine ⟨hcmd, ?_, [], [], ⟨hle₁, by rw [htoks₁]; rfl⟩, .nil, rfl⟩
      rw [Unredirected, htoks₁]
      exact Bool.eq_false_iff.mpr hno

/-- `peek` for what ends the arguments. -/
theorem peek_stop (h0 : 0 ∉ s) (h : ps ≤ s.length) :
    ∃ ps', peek (of s) ps [bar, rpar, amp, semi] = ((toks s ps).head?.any Tok.stops, ps') ∧ ps' ≤ s.length ∧
      toks s ps' = toks s ps := by
  obtain ⟨ps', hpeek, hle, htoks⟩ := peek_eq h0 h [bar, rpar, amp, semi] (by simp [symbols])
  refine ⟨ps', ?_, hle, htoks⟩
  rw [hpeek]
  cases toks s ps with
  | nil => rfl
  | cons tok ts => cases tok <;> rfl

/-- The parser takes the tokens from `ps` on for `(word redir*)*`. -/
theorem parseargs_sound (h0 : 0 ∉ s) : ∀ {n argc : Nat} {ret : Cmd Span} {ps : Nat} {ws : List (List UInt8)}
    {rs : List (Tok (List UInt8) × List UInt8)}, ps ≤ s.length → (toks s ps).length < n → ret.All (of s).Word →
    ret.map (of s).str = wrap (.exec ws) rs → ws.length = argc → argc < MAXARGS → Unredirected s ps →
    Returns (parseargs (of s) n argc ret ps) fun r => r.1.All (of s).Word ∧
      ∃ ts ws' rs', Over s ps r.2 ts ∧ Args ts ws' rs' ∧ (ws ++ ws').length ≤ MAXARGS - 1 ∧
        r.1.map (of s).str = wrap (.exec (ws ++ ws')) (rs ++ rs')
  | n + 1, argc, ret, ps, ws, rs, hps, hn, hret, hmap, hargc, hmax, hno => by
    obtain ⟨ps₁, hpeek, hle₁, htoks₁⟩ := peek_stop h0 hps
    have hend : ∀ ps', ps' ≤ s.length → toks s ps' = toks s ps → Returns (.ok (ret, ps')) fun r : Cmd Span × Nat =>
        r.1.All (of s).Word ∧ ∃ ts ws' rs', Over s ps r.2 ts ∧ Args ts ws' rs' ∧
          (ws ++ ws').length ≤ MAXARGS - 1 ∧ r.1.map (of s).str = wrap (.exec (ws ++ ws')) (rs ++ rs') := by
      intro ps' hle htoks
      refine ⟨hret, [], [], [], ⟨hle, htoks.symm⟩, .nil, ?_, ?_⟩
      · rw [append_nil]; omega
      · rw [append_nil, append_nil]; exact hmap
    rw [parseargs]
    simp only [hpeek]
    split
    next => exact hend ps₁ hle₁ htoks₁
    next hstop =>
      cases hts : toks s ps with
      | nil =>
        obtain ⟨_, ps₂, hget, hle₂, htoks₂⟩ := gettoken_nil h0 hle₁ (htoks₁.trans hts)
        simp only [hget]
        exact hend ps₂ hle₂ (htoks₂.trans hts.symm)
      | cons tok ts =>
        obtain ⟨a, ps₂, hget, hle₂, htoks₂, hword⟩ := gettoken_cons h0 hle₁ (htoks₁.trans hts)
        simp only [hget]
        rw [hts] at hn
        rw [Unredirected, hts] at hno
        rw [hts] at hstop
        cases tok with
        | word w =>
          obtain ⟨ha, hstr⟩ := hword w rfl
          rw [if_neg (by simp only [Tok.code]; decide), if_neg (by simp only [Tok.code]; decide)]
          split
          next => exact nofun
          next hroom =>
            have hlen : (toks s ps₂).length < n := by
              rw [htoks₂]
              simp only [length_cons] at hn
              omega
            refine (parseredirs_sound h0 hle₂ hlen (all_pushArg ha hret)).bind fun r => ?_
            rintro ⟨hall, hno', ts₁, rs₁, hover, hred, hmap₁⟩
            have hlen' : (toks s r.2).length < n := Nat.lt_of_le_of_lt hover.length_le hlen
            have hmap' : r.1.map (of s).str = wrap (.exec (ws ++ [w])) (rs ++ rs₁) := by
              rw [hmap₁, map_pushArg, hmap, hstr, pushArg_wrap, wrap_append]; rfl
            refine (parseargs_sound h0 hover.le hlen' hall hmap' (by rw [length_append, hargc]; rfl)
              (by omega) hno').imp fun r' => ?_
            rintro ⟨hall', ts₂, ws₂, rs₂, hover', hargs, hlen₂, hmap₂⟩
            refine ⟨hall', .word w :: (ts₁ ++ ts₂), w :: ws₂, rs₁ ++ rs₂, ⟨hover'.le, ?_⟩, .cons hred hargs, ?_, ?_⟩
            · rw [hts, ← htoks₂, hover.took, hover'.took, cons_append, append_assoc]
            · simpa using hlen₂
            · rw [hmap₂]; simp
        | lpar =>
          rw [if_neg (by simp only [Tok.code]; decide), if_pos (by simp only [Tok.code]; decide)]
          exact nofun
        | lt => cases hno
        | gt => cases hno
        | gtgt => cases hno
        | _ => exact absurd rfl hstop

/-- The parser takes the tokens from `ps` on for `'&'*`. -/
theorem parseback_sound (h0 : 0 ∉ s) : ∀ {n : Nat} (cmd : Cmd Span) {ps : Nat}, ps ≤ s.length →
    (toks s ps).length < n → cmd.All (of s).Word →
    Returns (parseback (of s) n cmd ps) fun r => r.1.All (of s).Word ∧
      ∃ k, Over s ps r.2 (replicate k .amp) ∧ r.1.map (of s).str = Cmd.back^[k] (cmd.map (of s).str)
  | n + 1, cmd, ps, hps, hn, hcmd => by
    obtain ⟨ps₁, hpeek, hle₁, htoks₁, hnext⟩ := peek_tok h0 hps .amp amp rfl rfl
    rw [parseback]
    simp only [hpeek]
    split
    next hamp =>
      obtain ⟨ts, hts⟩ := head?_eq_some_iff.mp (of_decide_eq_true hamp)
      obtain ⟨hle₂, htoks₂⟩ := hnext ts hts
      have hlen : (toks s (gettoken (of s) ps₁).2.2).length < n := by
        rw [hts] at hn
        simp only [length_cons] at hn
        rw [htoks₂]; omega
      refine (parseback_sound h0 (.back cmd) hle₂ hlen hcmd).imp fun r => ?_
      rintro ⟨hall, k, hover, hmap⟩
      refine ⟨hall, k + 1, ⟨hover.le, ?_⟩, hmap⟩
      rw [hts, ← htoks₂, hover.took]; rfl
    next => exact ⟨hcmd, 0, ⟨hle₁, by rw [htoks₁]; rfl⟩, rfl⟩

end Loops

end Xv6.Shell
