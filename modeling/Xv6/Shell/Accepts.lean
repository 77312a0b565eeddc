import Xv6.Shell.Grammar

/-! `parsecmd` accepts the language of the shell, and nothing else.

    Soundness goes by induction on the calls of the parser, completeness by induction on the derivation: what has
    been derived is parsed, whatever follows it, as long as that cannot be taken for a part of it
    (`Nonterm.follow`). The strings that the tree points to are those of the derivation, because `nulterminate`
    never stores a NUL inside a word. -/

namespace Xv6.Shell
open List Text Nonterm

/-- The function of the parser for a nonterminal. -/
def Nonterm.parse (t : Text) : Nonterm → Nat → Nat → Except Panic (Cmd Span × Nat)
  | .line => parseline t
  | .pipe => parsepipe t
  | .exec => parseexec t

/-- How deep the calls go before a token is taken. -/
def Nonterm.rank : Nonterm → Nat
  | .line => 4
  | .pipe => 3
  | .exec => 2

theorem exists_pred {k : Nonterm} {m n : Nat} (h : m + k.rank ≤ n) : ∃ n', n = n' + 1 :=
  Nat.exists_eq_add_one.mpr (by cases k <;> simp only [rank] at h <;> omega)

/-! ### Soundness -/

section Sound
variable {s : List UInt8} {n ps : Nat}

/-- With `n` calls at hand the parser takes tokens that the grammar derives. -/
def Sound (s : List UInt8) (n : Nat) : Prop :=
  ∀ k ps, ps ≤ s.length → 4 * (toks s ps).length + k.rank ≤ n →
    Returns (k.parse (of s) n ps) fun r => r.1.All (of s).Word ∧
      ∃ ts, Over s ps r.2 ts ∧ Derives k ts (r.1.map (of s).str)

theorem parseline_sound (h0 : 0 ∉ s) (ih : Sound s n) (hps : ps ≤ s.length) (hn : 4 * (toks s ps).length + 4 ≤ n + 1) :
    Returns (parseline (of s) (n + 1) ps) fun r => r.1.All (of s).Word ∧
      ∃ ts, Over s ps r.2 ts ∧ Derives .line ts (r.1.map (of s).str) := by
  rw [parseline]
  refine (ih .pipe ps hps (by simp only [rank]; omega)).bind fun first => ?_
  rintro ⟨hall, ts, hover, hder⟩
  have hlen := hover.length_le
  refine (parseback_sound h0 first.1 hover.le (by omega) hall).bind fun cmd => ?_
  rintro ⟨hall', k, hover', hmap⟩
  have hlen' := hover'.length_le
  obtain ⟨ps₁, hpeek, hle₁, htoks₁, hnext⟩ := peek_tok h0 hover'.le .semi semi rfl rfl
  simp only [hpeek]
  split
  next hsemi =>
    obtain ⟨ts', hts⟩ := head?_eq_some_iff.mp (of_decide_eq_true hsemi)
    obtain ⟨hle₂, htoks₂⟩ := hnext ts' hts
    rw [hts, length_cons] at hlen'
    refine (ih .line _ hle₂ (by rw [htoks₂]; simp only [rank]; omega)).bind fun rest => ?_
    rintro ⟨hall₂, ts₂, hover₂, hder₂⟩
    refine ⟨⟨hall', hall₂⟩, ts ++ (replicate k .amp ++ .semi :: ts₂), ⟨hover₂.le, ?_⟩, ?_⟩
    · rw [hover.took, hover'.took, hts, ← htoks₂, hover₂.took]; simp
    · rw [Cmd.map, hmap]
      exact .list k hder hder₂
  next =>
    refine ⟨hall', ts ++ replicate k .amp, ⟨hle₁, ?_⟩, ?_⟩
    · rw [hover.took, hover'.took, htoks₁, append_assoc]
    · rw [hmap]
      exact .line k hder

theorem parsepipe_sound (h0 : 0 ∉ s) (ih : Sound s n) (hps : ps ≤ s.length) (hn : 4 * (toks s ps).length + 3 ≤ n + 1) :
    Returns (parsepipe (of s) (n + 1) ps) fun r => r.1.All (of s).Word ∧
      ∃ ts, Over s ps r.2 ts ∧ Derives .pipe ts (r.1.map (of s).str) := by
  rw [parsepipe]
  refine (ih .exec ps hps (by simp only [rank]; omega)).bind fun cmd => ?_
  rintro ⟨hall, ts, hover, hder⟩
  have hlen := hover.length_le
  obtain ⟨ps₁, hpeek, hle₁, htoks₁, hnext⟩ := peek_tok h0 hover.le .bar bar rfl rfl
  simp only [hpeek]
  split
  next hbar =>
    obtain ⟨ts', hts⟩ := head?_eq_some_iff.mp (of_decide_eq_true hbar)
    obtain ⟨hle₂, htoks₂⟩ := hnext ts' hts
    rw [hts, length_cons] at hlen
    refine (ih .pipe _ hle₂ (by rw [htoks₂]; simp only [rank]; omega)).bind fun rest => ?_
    rintro ⟨hall₂, ts₂, hover₂, hder₂⟩
    refine ⟨⟨hall, hall₂⟩, ts ++ .bar :: ts₂, ⟨hover₂.le, ?_⟩, .pipe hder hder₂⟩
    rw [hover.took, hts, ← htoks₂, hover₂.took]; simp
  next =>
    refine ⟨hall, ts, ⟨hle₁, ?_⟩, .exec hder⟩
    rw [hover.took, htoks₁]

theorem parseblock_sound (h0 : 0 ∉ s) (ih : Sound s n) (hps : ps ≤ s.length) (hn : 4 * (toks s ps).length ≤ n) :
    Returns (parseblock (of s) (n + 1) ps) fun r => r.1.All (of s).Word ∧
      ∃ ts, Over s ps r.2 ts ∧ Derives .exec ts (r.1.map (of s).str) := by
  obtain ⟨ps₁, hpeek, -, -, hnext⟩ := peek_tok h0 hps .lpar lpar rfl rfl
  rw [parseblock]
  simp only [hpeek]
  split
  next hlpar =>
    obtain ⟨ts, hts⟩ := head?_eq_some_iff.mp (of_decide_eq_true hlpar)
    obtain ⟨hle₂, htoks₂⟩ := hnext ts hts
    rw [hts, length_cons] at hn
    refine (ih .line _ hle₂ (by rw [htoks₂]; simp only [rank]; omega)).bind fun cmd => ?_
    rintro ⟨hall, ts₁, hover, hder⟩
    have hlen := hover.length_le
    obtain ⟨ps₃, hpeek₃, -, -, hnext₃⟩ := peek_tok h0 hover.le .rpar rpar rfl rfl
    simp only [hpeek₃]
    split
    next hrpar =>
      obtain ⟨ts', hts'⟩ := head?_eq_some_iff.mp (of_decide_eq_true hrpar)
      obtain ⟨hle₄, htoks₄⟩ := hnext₃ ts' hts'
      rw [hts', length_cons, htoks₂] at hlen
      refine (parseredirs_sound h0 hle₄ (by rw [htoks₄]; omega) hall).imp fun r => ?_
      rintro ⟨hall', -, ts₂, rs, hover', hred, hmap⟩
      refine ⟨hall', .lpar :: (ts₁ ++ .rpar :: ts₂), ⟨hover'.le, ?_⟩, ?_⟩
      · rw [hts, ← htoks₂, hover.took, hts', ← htoks₄, hover'.took]; simp
      · rw [hmap]
        exact .block hder hred
    next => rintro ⟨⟩
  next => rintro ⟨⟩

theorem parseexec_sound (h0 : 0 ∉ s) (ih : ∀ m < n, Sound s m) (hps : ps ≤ s.length)
    (hn : 4 * (toks s ps).length + 2 ≤ n + 1) :
    Returns (parseexec (of s) (n + 1) ps) fun r => r.1.All (of s).Word ∧
      ∃ ts, Over s ps r.2 ts ∧ Derives .exec ts (r.1.map (of s).str) := by
  obtain ⟨ps₁, hpeek, hle₁, htoks₁, -⟩ := peek_tok h0 hps .lpar lpar rfl rfl
  rw [parseexec]
  simp only [hpeek]
  split
  next =>
    obtain ⟨m, rfl⟩ : ∃ m, n = m + 1 := ⟨n - 1, by omega⟩
    refine (parseblock_sound h0 (ih m (Nat.lt_succ_self m)) hle₁ (by rw [htoks₁]; omega)).imp fun r => ?_
    rintro ⟨hall, ts, hover, hder⟩
    exact ⟨hall, ts, ⟨hover.le, by rw [← htoks₁, hover.took]⟩, hder⟩
  next =>
    refine (parseredirs_sound h0 hle₁ (by rw [htoks₁]; omega) (by rintro _ ⟨⟩)).bind fun r => ?_
    rintro ⟨hall, hno, ts, rs, hover, hred, hmap⟩
    have hlen := hover.length_le
    rw [htoks₁] at hlen
    have hmap : r.1.map (of s).str = wrap (.exec []) rs := hmap
    refine (parseargs_sound h0 hover.le (by omega) hall hmap rfl (by decide) hno).imp fun r' => ?_
    rintro ⟨hall', ts', ws, rs', hover', hargs, hmax, hmap'⟩
    refine ⟨hall', ts ++ ts', ⟨hover'.le, ?_⟩, ?_⟩
    · rw [← htoks₁, hover.took, hover'.took, append_assoc]
    · rw [hmap']
      exact .simple hred hargs hmax

theorem sound (h0 : 0 ∉ s) (n : Nat) : Sound s n := by
  induction n using Nat.strong_induction_on with
  | _ n ih =>
    intro k ps hps hn
    obtain ⟨m, rfl⟩ := exists_pred hn
    cases k with
    | line => exact parseline_sound h0 (ih m (Nat.lt_succ_self m)) hps hn
    | pipe => exact parsepipe_sound h0 (ih m (Nat.lt_succ_self m)) hps hn
    | exec => exact parseexec_sound h0 (fun m' hm' => ih m' (by omega)) hps hn

end Sound

/-! ### Completeness -/

section Complete
variable {s : List UInt8} {n ps : Nat} {ts rest : List (Tok (List UInt8))}
  {rs : List (Tok (List UInt8) × List UInt8)} {ws : List (List UInt8)} {c : Cmd (List UInt8)}

/-- The parser has made the tree `c`, and `rest` is still to come. -/
def Parsed (s : List UInt8) (r : Except Panic (Cmd Span × Nat)) (rest : List (Tok (List UInt8)))
    (c : Cmd (List UInt8)) : Prop :=
  ∃ a, r = .ok a ∧ a.2 ≤ s.length ∧ toks s a.2 = rest ∧ a.1.map (of s).str = c

theorem Parsed.bind {r : Except Panic (Cmd Span × Nat)} {f : Cmd Span × Nat → Except Panic (Cmd Span × Nat)}
    {rest' : List (Tok (List UInt8))} {c' : Cmd (List UInt8)} (h : Parsed s r rest c)
    (hf : ∀ a : Cmd Span × Nat, a.2 ≤ s.length → toks s a.2 = rest → a.1.map (of s).str = c →
      Parsed s (f a) rest' c') : Parsed s (r >>= f) rest' c' := by
  obtain ⟨a, rfl, hle, htoks, hmap⟩ := h
  exact hf a hle htoks hmap

/-- What may follow the tokens of a nonterminal. -/
def Nonterm.follow : Nonterm → Tok (List UInt8) → Bool
  | .line, .rpar => true
  | .pipe, .rpar | .pipe, .amp | .pipe, .semi => true
  | .exec, tok => tok.stops
  | _, _ => false

theorem parseredirs_complete (h0 : 0 ∉ s) (hrest : rest.head?.any Tok.isRedir = false) (h : Redirs ts rs) :
    ∀ {n ps : Nat} (cmd : Cmd Span), ps ≤ s.length → toks s ps = ts ++ rest → (toks s ps).length < n →
      Parsed s (parseredirs (of s) n cmd ps) rest (wrap (cmd.map (of s).str) rs) := by
  induction h with
  | nil =>
    intro n ps cmd hps hts hn
    obtain ⟨m, rfl⟩ := Nat.exists_eq_add_one.mpr (Nat.zero_lt_of_lt hn)
    obtain ⟨ps₁, hpeek, hle₁, htoks₁⟩ := peek_redir h0 hps
    rw [nil_append] at hts
    rw [hts, hrest] at hpeek
    rw [parseredirs]
    simp only [hpeek]
    exact ⟨_, rfl, hle₁, htoks₁.trans hts, rfl⟩
  | @cons tok w ts rs htok _ ih =>
    intro n ps cmd hps hts hn
    obtain ⟨m, rfl⟩ := Nat.exists_eq_add_one.mpr (Nat.zero_lt_of_lt hn)
    obtain ⟨ps₁, hpeek, hle₁, htoks₁⟩ := peek_redir h0 hps
    obtain ⟨_, ps₂, hget₂, hle₂, htoks₂, -⟩ := gettoken_cons h0 hle₁ (htoks₁.trans hts)
    obtain ⟨f, ps₃, hget₃, hle₃, htoks₃, hword⟩ := gettoken_cons h0 hle₂ htoks₂
    obtain ⟨-, hstr⟩ := hword w rfl
    have hmore : (toks s ps).head?.any Tok.isRedir = true := by rw [hts]; exact htok
    rw [hmore] at hpeek
    rw [parseredirs]
    simp only [hpeek, hget₂, hget₃, if_true]
    rw [if_neg (by simp [Tok.code]), wrap_cons, ← hstr, ← map_redircmd htok]
    have htoks₃ : toks s ps₃ = ts ++ rest := htoks₃
    refine ih _ hle₃ htoks₃ ?_
    rw [htoks₃]
    rw [hts] at hn
    simp only [cons_append, length_cons] at hn
    omega

/-- What comes after the redirections of a command, if its arguments come next. -/
theorem Args.head (h : Args ts ws rs) (hrest : rest.head?.all Tok.stops = true) :
    (ts ++ rest).head?.any Tok.isRedir = false ∧ (ts ++ rest).head? ≠ some .lpar := by
  cases h with
  | cons _ _ => exact ⟨rfl, nofun⟩
  | nil =>
    cases rest with
    | nil => exact ⟨rfl, nofun⟩
    | cons tok _ =>
      cases tok with
      | bar | rpar | amp | semi => exact ⟨rfl, nofun⟩
      | _ => cases hrest

theorem parseargs_complete (h0 : 0 ∉ s) (hrest : rest.head?.all Tok.stops = true) {ws' : List (List UInt8)}
    {rs' : List (Tok (List UInt8) × List UInt8)} (h : Args ts ws' rs') :
    ∀ {n ps : Nat} {ret : Cmd Span} {ws : List (List UInt8)} {rs : List (Tok (List UInt8) × List UInt8)},
      ps ≤ s.length → toks s ps = ts ++ rest → (toks s ps).length < n → (ws ++ ws').length ≤ MAXARGS - 1 →
      ret.map (of s).str = wrap (.exec ws) rs →
      Parsed s (parseargs (of s) n ws.length ret ps) rest (wrap (.exec (ws ++ ws')) (rs ++ rs')) := by
  induction h with
  | nil =>
    intro n ps ret ws rs hps hts hn hmax hmap
    obtain ⟨m, rfl⟩ := Nat.exists_eq_add_one.mpr (Nat.zero_lt_of_lt hn)
    obtain ⟨ps₁, hpeek, hle₁, htoks₁⟩ := peek_stop h0 hps
    rw [nil_append] at hts
    rw [append_nil, append_nil, parseargs]
    simp only [hpeek]
    cases rest with
    | nil =>
      obtain ⟨_, ps₂, hget, hle₂, htoks₂⟩ := gettoken_nil h0 hle₁ (htoks₁.trans hts)
      simp only [hts, hget]
      exact ⟨_, rfl, hle₂, htoks₂, hmap⟩
    | cons tok ts =>
      rw [if_pos (by rw [hts]; exact hrest)]
      exact ⟨_, rfl, hle₁, htoks₁.trans hts, hmap⟩
  | @cons w ts₁ ts₂ rs₁ rs₂ ws₂ hred hargs ih =>
    intro n ps ret ws rs hps hts hn hmax hmap
    obtain ⟨m, rfl⟩ := Nat.exists_eq_add_one.mpr (Nat.zero_lt_of_lt hn)
    obtain ⟨ps₁, hpeek, hle₁, htoks₁⟩ := peek_stop h0 hps
    obtain ⟨a, ps₂, hget, hle₂, htoks₂, hword⟩ := gettoken_cons h0 hle₁ (htoks₁.trans hts)
    obtain ⟨-, hstr⟩ := hword w rfl
    have hstop : (toks s ps).head?.any Tok.stops = false := by rw [hts]; rfl
    rw [hstop] at hpeek
    have hlen : (ts₁ ++ (ts₂ ++ rest)).length < m := by
      rw [hts] at hn
      simp only [cons_append, length_cons, length_append] at hn ⊢
      omega
    have htoks₂ : toks s ps₂ = ts₁ ++ (ts₂ ++ rest) := htoks₂.trans (append_assoc ..)
    rw [length_append, length_cons] at hmax
    rw [parseargs]
    simp only [hpeek, hget, Bool.false_eq_true, if_false]
    rw [if_neg (by simp only [Tok.code]; decide), if_neg (by simp only [Tok.code]; decide),
      if_neg (by simp only [MAXARGS] at *; omega)]
    refine (parseredirs_complete h0 (hargs.head hrest).1 hred (ret.pushArg a) hle₂ htoks₂ (htoks₂ ▸ hlen)).bind ?_
    intro r hle htoks hmap₁
    have hmap₂ : r.1.map (of s).str = wrap (.exec (ws ++ [w])) (rs ++ rs₁) := by
      rw [hmap₁, map_pushArg, hmap, hstr, pushArg_wrap, wrap_append]; rfl
    have := ih (n := m) hle htoks (by rw [htoks]; simp only [length_append] at *; omega)
      (by simp only [length_append, length_singleton]; omega) hmap₂
    simpa using this

theorem parseback_complete (h0 : 0 ∉ s) (hrest : rest.head? ≠ some .amp) : ∀ (k : Nat) {n ps : Nat} (cmd : Cmd Span),
    ps ≤ s.length → toks s ps = replicate k .amp ++ rest → (toks s ps).length < n →
    Parsed s (parseback (of s) n cmd ps) rest (Cmd.back^[k] (cmd.map (of s).str)) := by
  intro k
  induction k with
  | zero =>
    intro n ps cmd hps hts hn
    obtain ⟨m, rfl⟩ := Nat.exists_eq_add_one.mpr (Nat.zero_lt_of_lt hn)
    obtain ⟨ps₁, hpeek, hle₁, htoks₁, -⟩ := peek_tok h0 hps .amp amp rfl rfl
    rw [parseback]
    simp only [hpeek]
    rw [if_neg (by rw [hts]; simpa using hrest)]
    exact ⟨_, rfl, hle₁, htoks₁.trans hts, rfl⟩
  | succ k ih =>
    intro n ps cmd hps hts hn
    obtain ⟨m, rfl⟩ := Nat.exists_eq_add_one.mpr (Nat.zero_lt_of_lt hn)
    obtain ⟨ps₁, hpeek, -, -, hnext⟩ := peek_tok h0 hps .amp amp rfl rfl
    obtain ⟨hle₂, htoks₂⟩ := hnext _ hts
    rw [parseback]
    simp only [hpeek]
    rw [if_pos (by rw [hts]; rfl)]
    refine ih (.back cmd) hle₂ htoks₂ ?_
    rw [hts, replicate_succ] at hn
    rw [htoks₂]
    exact Nat.lt_of_succ_lt_succ hn

theorem follow_line (h : rest.head?.all (follow .line) = true) :
    rest.head?.all (follow .pipe) = true ∧ rest.head? ≠ some .amp ∧ rest.head? ≠ some .semi := by
  cases rest with
  | nil => exact ⟨rfl, nofun, nofun⟩
  | cons tok _ =>
    cases tok with
    | rpar => exact ⟨rfl, nofun, nofun⟩
    | _ => cases h

theorem follow_pipe (h : rest.head?.all (follow .pipe) = true) :
    rest.head?.all Tok.stops = true ∧ rest.head? ≠ some .bar := by
  cases rest with
  | nil => exact ⟨rfl, nofun⟩
  | cons tok _ =>
    cases tok with
    | rpar | amp | semi => exact ⟨rfl, nofun⟩
    | _ => cases h

theorem follow_amps (k : Nat) (h : rest.head?.all (follow .pipe) = true) :
    (replicate k Tok.amp ++ rest).head?.all (follow .pipe) = true := by
  cases k with
  | zero => exact h
  | succ k => rfl

theorem stops_not_redir (h : rest.head?.all Tok.stops = true) : rest.head?.any Tok.isRedir = false :=
  (Args.head .nil h).1

theorem not_lpar {ts' : List (Tok (List UInt8))} {rs' : List (Tok (List UInt8) × List UInt8)} (h : Redirs ts rs)
    (h' : Args ts' ws rs') (hrest : rest.head?.all Tok.stops = true) : (ts ++ (ts' ++ rest)).head? ≠ some .lpar := by
  cases h with
  | nil => exact (h'.head hrest).2
  | @cons tok w ts rs htok _ =>
    rintro ⟨⟩
    cases htok

/-- What the grammar derives is parsed, whatever follows it. -/
theorem complete (h0 : 0 ∉ s) {k : Nonterm} (h : Derives k ts c) : ∀ {n ps : Nat} {rest : List (Tok (List UInt8))},
    ps ≤ s.length → toks s ps = ts ++ rest → rest.head?.all k.follow = true → 4 * (toks s ps).length + k.rank ≤ n →
    Parsed s (k.parse (of s) n ps) rest c := by
  induction h with
  | @line ts c k _ ih =>
    intro n ps rest hps hts hrest hn
    obtain ⟨hpipe, hamp, hsemi⟩ := follow_line hrest
    obtain ⟨n, rfl⟩ := exists_pred hn
    rw [append_assoc] at hts
    have hlen := congrArg length hts
    rw [length_append] at hlen
    simp only [rank] at hn
    rw [parse, parseline]
    refine (ih hps hts (follow_amps k hpipe) (by simp only [rank]; omega)).bind fun first hle htoks hmap => ?_
    refine (parseback_complete h0 hamp k first.1 hle htoks (by rw [htoks]; omega)).bind fun cmd hle' htoks' hmap' => ?_
    obtain ⟨ps₁, hpeek, hle₁, htoks₁, -⟩ := peek_tok h0 hle' .semi semi rfl rfl
    simp only [hpeek]
    rw [if_neg (by rw [htoks']; simpa using hsemi)]
    exact ⟨_, rfl, hle₁, htoks₁.trans htoks', by rw [hmap', hmap]⟩
  | @list ts ts' c c' k _ _ ih ih' =>
    intro n ps rest hps hts hrest hn
    obtain ⟨n, rfl⟩ := exists_pred hn
    rw [append_assoc, append_assoc] at hts
    have hlen := congrArg length hts
    rw [length_append, length_append, cons_append, length_cons] at hlen
    simp only [rank] at hn
    rw [parse, parseline]
    refine (ih hps hts (follow_amps k rfl) (by simp only [rank]; omega)).bind fun first hle htoks hmap => ?_
    have hamp : (Tok.semi :: ts' ++ rest).head? ≠ some .amp := by rintro ⟨⟩
    refine (parseback_complete h0 hamp k first.1 hle htoks
      (by rw [htoks, length_append, cons_append, length_cons]; omega)).bind fun cmd hle' htoks' hmap' => ?_
    obtain ⟨ps₁, hpeek, -, -, hnext⟩ := peek_tok h0 hle' .semi semi rfl rfl
    obtain ⟨hle₂, htoks₂⟩ : _ ∧ toks s _ = ts' ++ rest := hnext _ htoks'
    simp only [hpeek]
    rw [if_pos (by rw [htoks']; rfl)]
    refine (ih' hle₂ htoks₂ hrest (by rw [htoks₂]; simp only [rank]; omega)).bind fun r hle₃ htoks₃ hmap₃ => ?_
    exact ⟨_, rfl, hle₃, htoks₃, by rw [Cmd.map, hmap', hmap, hmap₃]⟩
  | @exec ts c _ ih =>
    intro n ps rest hps hts hrest hn
    obtain ⟨hstops, hbar⟩ := follow_pipe hrest
    obtain ⟨n, rfl⟩ := exists_pred hn
    rw [parse, parsepipe]
    refine (ih hps hts hstops (by simp only [rank] at hn ⊢; omega)).bind fun cmd hle htoks hmap => ?_
    obtain ⟨ps₁, hpeek, hle₁, htoks₁, -⟩ := peek_tok h0 hle .bar bar rfl rfl
    simp only [hpeek]
    rw [if_neg (by rw [htoks]; simpa using hbar)]
    exact ⟨_, rfl, hle₁, htoks₁.trans htoks, hmap⟩
  | @pipe ts ts' c c' _ _ ih ih' =>
    intro n ps rest hps hts hrest hn
    obtain ⟨n, rfl⟩ := exists_pred hn
    rw [append_assoc] at hts
    have hlen := congrArg length hts
    rw [length_append, cons_append, length_cons] at hlen
    simp only [rank] at hn
    rw [parse, parsepipe]
    refine (ih hps hts rfl (by simp only [rank]; omega)).bind fun cmd hle htoks hmap => ?_
    obtain ⟨ps₁, hpeek, -, -, hnext⟩ := peek_tok h0 hle .bar bar rfl rfl
    obtain ⟨hle₂, htoks₂⟩ : _ ∧ toks s _ = ts' ++ rest := hnext _ htoks
    simp only [hpeek]
    rw [if_pos (by rw [htoks]; rfl)]
    refine (ih' hle₂ htoks₂ hrest (by rw [htoks₂]; simp only [rank]; omega)).bind fun r hle₃ htoks₃ hmap₃ => ?_
    exact ⟨_, rfl, hle₃, htoks₃, by rw [Cmd.map, hmap, hmap₃]⟩
  | @block ts ts' c rs _ hred ih =>
    intro n ps rest hps hts hrest hn
    obtain ⟨n, rfl⟩ : ∃ m, n = m + 1 + 1 := ⟨n - 2, by simp only [rank] at hn; omega⟩
    rw [cons_append, append_assoc] at hts
    have hlen := congrArg length hts
    rw [length_cons, length_append, cons_append, length_cons] at hlen
    simp only [rank] at hn
    obtain ⟨ps₁, hpeek₁, hle₁, htoks₁, -⟩ := peek_tok h0 hps .lpar lpar rfl rfl
    obtain ⟨ps₂, hpeek₂, -, -, hnext₂⟩ := peek_tok h0 hle₁ .lpar lpar rfl rfl
    obtain ⟨hle₃, htoks₃⟩ := hnext₂ _ (htoks₁.trans hts)
    rw [parse, parseexec]
    simp only [hpeek₁]
    rw [if_pos (by rw [hts]; rfl), parseblock]
    simp only [hpeek₂]
    rw [if_pos (by rw [htoks₁, hts]; rfl)]
    refine (ih hle₃ htoks₃ rfl (by
      rw [htoks₃, length_append, cons_append, length_cons]
      simp only [rank]; omega)).bind fun cmd hle htoks hmap => ?_
    obtain ⟨ps₄, hpeek₄, -, -, hnext₄⟩ := peek_tok h0 hle .rpar rpar rfl rfl
    obtain ⟨hle₅, htoks₅⟩ : _ ∧ toks s _ = ts' ++ rest := hnext₄ _ htoks
    simp only [hpeek₄]
    rw [if_pos (by rw [htoks]; rfl), ← hmap]
    exact parseredirs_complete h0 (stops_not_redir hrest) hred cmd.1 hle₅ htoks₅ (by rw [htoks₅]; omega)
  | @simple ts ts' ws rs rs' hred hargs hmax =>
    intro n ps rest hps hts hrest hn
    obtain ⟨n, rfl⟩ := exists_pred hn
    rw [append_assoc] at hts
    simp only [rank] at hn
    obtain ⟨ps₁, hpeek, hle₁, htoks₁, -⟩ := peek_tok h0 hps .lpar lpar rfl rfl
    rw [parse, parseexec]
    simp only [hpeek]
    rw [if_neg (by rw [hts]; simpa using not_lpar hred hargs hrest)]
    refine (parseredirs_complete h0 (hargs.head hrest).1 hred (.exec []) hle₁ (htoks₁.trans hts)
      (by rw [htoks₁]; omega)).bind fun r hle htoks hmap => ?_
    have hlen := congrArg length hts
    rw [length_append] at hlen
    have hmap : r.1.map (of s).str = wrap (.exec []) rs := hmap
    exact parseargs_complete h0 hrest hargs hle htoks (by rw [htoks]; omega) (by exact hmax) hmap

end Complete

/-! ### The strings of the tree -/

section Strings
variable {s : List UInt8}

/-- The words of a tree. -/
def Cmd.words {W : Type} : Cmd W → List W
  | .exec argv => argv
  | .redir c file _ _ => c.words ++ [file]
  | .pipe l r => l.words ++ r.words
  | .list l r => l.words ++ r.words
  | .back c => c.words

theorem Cmd.all_iff {W : Type} {P : W → Prop} {c : Cmd W} : c.All P ↔ ∀ w ∈ c.words, P w := by
  induction c with
  | exec argv => rfl
  | redir c file _ _ ih => simp only [Cmd.All, Cmd.words, ih, forall_mem_append, forall_mem_singleton]
  | pipe l r ihl ihr => simp only [Cmd.All, Cmd.words, ihl, ihr, forall_mem_append]
  | list l r ihl ihr => simp only [Cmd.All, Cmd.words, ihl, ihr, forall_mem_append]
  | back c ih => exact ih

theorem Cmd.map_congr {W V : Type} {f g : W → V} {c : Cmd W} (h : ∀ w ∈ c.words, f w = g w) : c.map f = c.map g := by
  induction c with
  | exec argv => exact congrArg Cmd.exec (map_congr_left h)
  | redir c file _ _ ih =>
    rw [Cmd.words, forall_mem_append, forall_mem_singleton] at h
    rw [Cmd.map, Cmd.map, ih h.1, h.2]
  | pipe l r ihl ihr =>
    rw [Cmd.words, forall_mem_append] at h
    rw [Cmd.map, Cmd.map, ihl h.1, ihr h.2]
  | list l r ihl ihr =>
    rw [Cmd.words, forall_mem_append] at h
    rw [Cmd.map, Cmd.map, ihl h.1, ihr h.2]
  | back c ih => rw [Cmd.map, Cmd.map, ih h]

/-- `nulterminate` stores NULs, behind the words of the tree and nowhere else. -/
theorem nulterminate_apply (c : Cmd Span) (buf : Nat → UInt8) (i : Nat) :
    nulterminate c buf i = if i ∈ c.words.map Span.eq then 0 else buf i := by
  induction c generalizing buf with
  | exec argv =>
    rw [nulterminate, Cmd.words]
    induction argv generalizing buf with
    | nil => rfl
    | cons w argv ih =>
      rw [foldl_cons, ih, Function.update_apply, ← ite_or, map_cons]
      simp only [mem_cons, or_comm]
  | redir c file mode fd ih =>
    rw [nulterminate, Function.update_apply, ih, ← ite_or, Cmd.words, map_append, map_singleton]
    simp only [mem_append, mem_singleton, or_comm]
  | pipe l r ihl ihr | list l r ihl ihr =>
    rw [nulterminate, ihr, ihl, ← ite_or, Cmd.words, map_append]
    simp only [mem_append, or_comm]
  | back c ih => exact ih buf

variable {c : Cmd Span} {w : Span}

/-- No word ends within another one, so the characters of a word stay. -/
theorem nulterminate_inside (hc : c.All (of s).Word) (hw : w ∈ c.words) {i : Nat}
    (hq : w.q ≤ i) (heq : i < w.eq) : nulterminate c (of s).buf i = (of s).buf i := by
  have hword := Cmd.all_iff.mp hc
  obtain ⟨-, hle, hinside, -⟩ := hword w hw
  rw [nulterminate_apply, if_neg]
  intro hmem
  obtain ⟨v, hv, rfl⟩ := mem_map.mp hmem
  rcases (hword v hv).after with hend | hend
  · exact lt_irrefl _ (hend ▸ lt_of_lt_of_le heq hle)
  · exact absurd (hinside _ hq heq) (by simp [hend])

theorem nulterminate_behind (hw : w ∈ c.words) (buf : Nat → UInt8) : nulterminate c buf w.eq = 0 := by
  rw [nulterminate_apply, if_pos (mem_map_of_mem hw)]

theorem nulterminate_str (hc : c.All (of s).Word) (hw : w ∈ c.words) :
    ((range (w.eq - w.q)).map fun i => nulterminate c (of s).buf (w.q + i)) = (of s).str w := by
  refine map_congr_left fun i hi => ?_
  have := mem_range.mp hi
  exact nulterminate_inside hc hw (by omega) (by omega)

theorem nul_not_mem_str (h0 : 0 ∉ s) (hle : w.eq ≤ s.length) : 0 ∉ (of s).str w := by
  intro hx
  obtain ⟨i, hi, h⟩ := mem_map.mp hx
  have := mem_range.mp hi
  have hlt : w.q + i < s.length := lt_of_lt_of_le (by omega) hle
  have hmem := getElem_mem hlt
  rw [← getD_eq_getElem s 0 hlt, show s.getD (w.q + i) 0 = 0 from h] at hmem
  exact h0 hmem

/-- The strings of the tree that `parsecmd` returns are its words. -/
theorem cstring_eq (h0 : 0 ∉ s) (hc : c.All (of s).Word) (hw : w ∈ c.words) :
    cstring (nulterminate c (of s).buf) s.length w.q = (of s).str w := by
  obtain ⟨hq, hle, -, -⟩ := Cmd.all_iff.mp hc w hw
  have hnul := nulterminate_behind hw (of s).buf
  have hstr := nulterminate_str hc hw
  have hnonzero : ∀ x ∈ (of s).str w, (x != 0) = true := fun x hx =>
    bne_iff_ne.mpr fun h => nul_not_mem_str h0 hle (h ▸ hx)
  have hle : w.eq ≤ s.length := hle
  -- The word, and behind it the NUL or the end of the text.
  obtain ⟨m, hm⟩ : ∃ m, s.length - w.q = (w.eq - w.q) + m := Nat.exists_eq_add_of_le (Nat.sub_le_sub_right hle _)
  rw [cstring, hm, range_add, map_append, hstr, takeWhile_append_of_pos hnonzero]
  cases m with
  | zero => exact append_nil _
  | succ m =>
    rw [range_succ_eq_map, map_cons, map_cons, add_zero, Nat.add_sub_cancel' hq, hnul]
    exact append_nil _

end Strings

/-! ### `parsecmd` -/

/-- The test for leftovers. -/
theorem skip_eq_length {s : List UInt8} {ps : Nat} (h0 : 0 ∉ s) (h : ps ≤ s.length) :
    (of s).skip isSpace ps = s.length ↔ toks s ps = [] := by
  rcases rest_cases h0 h with ⟨hr, htoks⟩ | ⟨c, r, hr, -, -, htoks⟩
  · exact iff_of_true (le_antisymm (skip_le h _) (drop_eq_nil_iff.mp hr)) htoks
  · refine iff_of_false (fun heq => ?_) (htoks ▸ nofun)
    rw [heq, drop_length] at hr
    cases hr

theorem parsecmd_eq {s : List UInt8} {a : Cmd Span × Nat} (h0 : 0 ∉ s)
    (hline : parseline (of s) (4 * s.length + 4) 0 = .ok a) (hall : a.1.All (of s).Word) (hle : a.2 ≤ s.length) :
    parsecmd s = if toks s a.2 = [] then .ok (a.1.map (of s).str) else .error .leftovers := by
  have hstrings : (a.1.map fun w => cstring (nulterminate a.1 (of s).buf) s.length w.q) = a.1.map (of s).str :=
    Cmd.map_congr fun w hw => cstring_eq h0 hall hw
  rw [← hstrings]
  simp only [← skip_eq_length h0 hle]
  rw [← ite_not]
  simp only [parsecmd, hline]
  rfl

section Parsecmd
variable {s : List UInt8}

theorem parsecmd_fuel (s : List UInt8) : 4 * (toks s 0).length + rank .line ≤ 4 * s.length + 4 :=
  Nat.add_le_add_right (Nat.mul_le_mul_left 4 (length_tokens_le s)) 4

/-- What `parsecmd` returns is derived by the grammar. -/
theorem parsecmd_sound (h0 : 0 ∉ s) : Returns (parsecmd s) (Derives .line (tokens s)) := by
  have hsound : Returns (parseline (of s) (4 * s.length + 4) 0) _ :=
    sound h0 _ .line 0 (Nat.zero_le _) (parsecmd_fuel s)
  cases hline : parseline (of s) (4 * s.length + 4) 0 with
  | error e =>
    rw [hline] at hsound
    have hcmd : parsecmd s = .error e := by simp only [parsecmd, hline]; rfl
    rw [hcmd]
    exact hsound
  | ok a =>
    rw [hline] at hsound
    obtain ⟨hall, ts, hover, hder⟩ := hsound
    rw [parsecmd_eq h0 hline hall hover.le]
    split
    next hnil =>
      have htook : tokens s = ts := by
        have := hover.took
        rwa [hnil, append_nil] at this
      exact htook ▸ hder
    next => exact nofun

/-- What the grammar derives is returned by `parsecmd`. -/
theorem parsecmd_complete {c : Cmd (List UInt8)} (h0 : 0 ∉ s) (hc : Derives .line (tokens s) c) : parsecmd s = .ok c := by
  have hsound : Returns (parseline (of s) (4 * s.length + 4) 0) _ :=
    sound h0 _ .line 0 (Nat.zero_le _) (parsecmd_fuel s)
  obtain ⟨a, hline, hle, hnil, hmap⟩ : Parsed s (parseline (of s) (4 * s.length + 4) 0) [] c :=
    complete h0 hc (Nat.zero_le _) (append_nil _).symm rfl (parsecmd_fuel s)
  rw [hline] at hsound
  rw [parsecmd_eq h0 hline hsound.1 hle, if_pos hnil, hmap]

end Parsecmd

/-- THE PARSER ACCEPTS EXACTLY ITS GRAMMAR: `parsecmd` ends on every line, and it returns a command if and only if
    the tokens of the line are derived by the grammar; the command is then the tree of the derivation. -/
theorem parsecmd_iff_derives (s : List UInt8) (h0 : 0 ∉ s) :
    parsecmd s ≠ .error .fuel ∧ ∀ c, parsecmd s = .ok c ↔ Derives .line (tokens s) c := by
  have hsound := parsecmd_sound h0
  constructor
  · intro herror
    rw [herror] at hsound
    exact hsound rfl
  · intro c
    constructor
    · intro hok
      rwa [hok] at hsound
    · exact parsecmd_complete h0

/-- The line `(a>b)&;c`. -/
theorem parsecmd_iff_derives_example :
    parsecmd [40, 97, 62, 98, 41, 38, 59, 99] ≠ .error .fuel ∧
      ∀ c, parsecmd [40, 97, 62, 98, 41, 38, 59, 99] = .ok c ↔ Derives .line (tokens [40, 97, 62, 98, 41, 38, 59, 99]) c :=
  parsecmd_iff_derives _ (by decide)

end Xv6.Shell
