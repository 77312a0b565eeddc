import Mathlib

/-! `user/grep.c`, the matcher: the regular expressions of Kernighan and Pike.

    A string is the list of its bytes before the NUL, so `re[0] == '\0'` is the empty list. `items` reads a pattern from
    left to right, a character followed by `*` first of all. `Matches` says which text such a pattern stands for; `$`
    looks at what follows.

        text   = before ++ s ++ rest        `Matches (items re) s rest` -/

namespace Xv6.Grep
open List

def caret : UInt8 := 94
def dollar : UInt8 := 36
def dot : UInt8 := 46
def star : UInt8 := 42

/-! ### The code -/

/-- `matchstar`: search for `c*re` at the beginning of the text; `here` is `matchhere` for `re`. -/
def matchstar (here : List UInt8 → Bool) (c : UInt8) : List UInt8 → Bool
  | [] => here []
  | x :: text => here (x :: text) || ((x == c || c == dot) && matchstar here c text)

/-- The last test of `matchhere`: one character of the text, then the rest of the pattern. -/
def matchone (here : List UInt8 → Bool) (c : UInt8) : List UInt8 → Bool
  | [] => false
  | x :: text => (c == dot || c == x) && here text

/-- `matchhere`: search for `re` at the beginning of the text. -/
def matchhere : List UInt8 → List UInt8 → Bool
  | [], _ => true
  | [c], text => if c = dollar then text.isEmpty else matchone (matchhere []) c text
  | c :: d :: re, text => if d = star then matchstar (matchhere re) c text else matchone (matchhere (d :: re)) c text

/-- The loop of `match`, which must look at the empty string as well. -/
def matchFrom (re : List UInt8) : List UInt8 → Bool
  | [] => matchhere re []
  | x :: text => matchhere re (x :: text) || matchFrom re text

/-- `match`, whose name is a keyword here. -/
def matchRe (re text : List UInt8) : Bool :=
  match re with
  | [] => matchFrom [] text
  | c :: re' => if c = caret then matchhere re' text else matchFrom (c :: re') text

/-! ### What a pattern stands for -/

/-- One step of a pattern. -/
inductive Item where
  | star (c : UInt8)
  | eol
  | any
  | lit (c : UInt8)
  deriving Repr, DecidableEq

/-- A character that is neither repeated nor a final `$`. -/
def single (c : UInt8) : Item := if c = dot then .any else .lit c

/-- A pattern read from left to right. -/
def items : List UInt8 → List Item
  | [] => []
  | [c] => [if c = dollar then .eol else single c]
  | c :: d :: re => if d = star then .star c :: items re else single c :: items (d :: re)

/-- The pattern stands for `s` in a text that goes on with `rest`. -/
inductive Matches : List Item → List UInt8 → List UInt8 → Prop
  | nil (rest : List UInt8) : Matches [] [] rest
  | star {is : List Item} {s rest : List UInt8} (c : UInt8) (reps : List UInt8)
      (same : ∀ x ∈ reps, x = c ∨ c = dot) (tail : Matches is s rest) : Matches (.star c :: is) (reps ++ s) rest
  | eol {is : List Item} (tail : Matches is [] []) : Matches (.eol :: is) [] []
  | any {is : List Item} {s rest : List UInt8} (x : UInt8) (tail : Matches is s rest) : Matches (.any :: is) (x :: s) rest
  | lit {is : List Item} {s rest : List UInt8} (c : UInt8) (tail : Matches is s rest) : Matches (.lit c :: is) (c :: s) rest

/-- The text begins with a match of the pattern. -/
def Begins (is : List Item) (text : List UInt8) : Prop :=
  ∃ s rest, text = s ++ rest ∧ Matches is s rest

/-! ### The code finds what the pattern stands for -/

section Begins
variable {is : List Item} {text : List UInt8} {c x : UInt8}

theorem begins_nil : Begins [] text := ⟨[], text, rfl, .nil text⟩

theorem begins_star : Begins (.star c :: is) text ↔
    ∃ reps rest, text = reps ++ rest ∧ (∀ x ∈ reps, x = c ∨ c = dot) ∧ Begins is rest := by
  constructor
  · rintro ⟨_, rest, rfl, ⟨⟩⟩
    rename_i s reps same tail
    exact ⟨reps, s ++ rest, append_assoc reps s rest, same, s, rest, rfl, tail⟩
  · rintro ⟨reps, _, rfl, same, s, rest, rfl, tail⟩
    exact ⟨reps ++ s, rest, (append_assoc reps s rest).symm, .star c reps same tail⟩

theorem begins_eol : Begins [.eol] text ↔ text = [] := by
  constructor
  · rintro ⟨_, _, rfl, ⟨⟩⟩
    rfl
  · rintro rfl
    exact ⟨[], [], rfl, .eol (.nil [])⟩

theorem begins_single : Begins (single c :: is) text ↔ ∃ x rest, text = x :: rest ∧ (c = dot ∨ c = x) ∧ Begins is rest := by
  unfold single
  constructor
  · rintro ⟨_, rest, rfl, hm⟩
    split at hm
    case isTrue hc =>
      cases hm with
      | any x tail => exact ⟨x, _, rfl, .inl hc, _, rest, rfl, tail⟩
    case isFalse hc =>
      cases hm with
      | lit _ tail => exact ⟨c, _, rfl, .inr rfl, _, rest, rfl, tail⟩
  · rintro ⟨x, _, rfl, hc, s, rest, rfl, tail⟩
    refine ⟨x :: s, rest, rfl, ?_⟩
    split
    case isTrue => exact .any x tail
    case isFalse h =>
      obtain rfl := hc.resolve_left h
      exact .lit c tail

end Begins

theorem matchone_iff {here : List UInt8 → Bool} {c : UInt8} {text : List UInt8} :
    matchone here c text = true ↔ ∃ x rest, text = x :: rest ∧ (c = dot ∨ c = x) ∧ here rest = true := by
  cases text with
  | nil => simp [matchone]
  | cons x text => simp [matchone]

/-- `matchstar` tries every number of repetitions. -/
theorem matchstar_iff {here : List UInt8 → Bool} {c : UInt8} {text : List UInt8} :
    matchstar here c text = true ↔
      ∃ reps rest, text = reps ++ rest ∧ (∀ x ∈ reps, x = c ∨ c = dot) ∧ here rest = true := by
  induction text with
  | nil =>
    constructor
    · intro h
      exact ⟨[], [], rfl, by simp, h⟩
    · rintro ⟨reps, rest, h, -, hhere⟩
      obtain ⟨rfl, rfl⟩ := append_eq_nil_iff.mp h.symm
      exact hhere
  | cons x text ih =>
    rw [matchstar, Bool.or_eq_true, Bool.and_eq_true, ih]
    constructor
    · rintro (h | ⟨hx, reps, rest, rfl, same, hhere⟩)
      · exact ⟨[], x :: text, rfl, by simp, h⟩
      · refine ⟨x :: reps, rest, rfl, ?_, hhere⟩
        exact forall_mem_cons.mpr ⟨by simpa using hx, same⟩
    · rintro ⟨reps, rest, h, same, hhere⟩
      cases reps with
      | nil => exact .inl (by rw [h]; exact hhere)
      | cons y reps =>
        obtain ⟨rfl, rfl⟩ := cons.inj h
        obtain ⟨hx, same⟩ := forall_mem_cons.mp same
        exact .inr ⟨by simpa using hx, reps, rest, rfl, same, hhere⟩

/-- The cases of `matchhere` are those of reading the pattern. -/
theorem matchhere_iff {re text : List UInt8} : matchhere re text = true ↔ Begins (items re) text := by
  induction re using items.induct generalizing text with
  | case1 => exact iff_of_true rfl begins_nil
  | case2 c =>
    rw [matchhere, items]
    by_cases hc : c = dollar
    · rw [if_pos hc, if_pos hc, begins_eol, List.isEmpty_iff]
    · rw [if_neg hc, if_neg hc, matchone_iff, begins_single]
      simp only [matchhere, begins_nil]
  | case3 c re ih =>
    rw [matchhere, items, if_pos rfl, if_pos rfl, matchstar_iff, begins_star]
    simp only [ih]
  | case4 c d re hd ih =>
    rw [matchhere, items, if_neg hd, if_neg hd, matchone_iff, begins_single]
    simp only [ih]

/-- `match` looks at every suffix of the text. -/
theorem matchFrom_iff {re text : List UInt8} :
    matchFrom re text = true ↔ ∃ before after, text = before ++ after ∧ Begins (items re) after := by
  induction text with
  | nil =>
    rw [matchFrom, matchhere_iff]
    constructor
    · intro h
      exact ⟨[], [], rfl, h⟩
    · rintro ⟨before, after, h, hb⟩
      obtain ⟨rfl, rfl⟩ := append_eq_nil_iff.mp h.symm
      exact hb
  | cons x text ih =>
    rw [matchFrom, Bool.or_eq_true, matchhere_iff, ih]
    constructor
    · rintro (h | ⟨before, after, rfl, hb⟩)
      · exact ⟨[], x :: text, rfl, h⟩
      · exact ⟨x :: before, after, rfl, hb⟩
    · rintro ⟨before, after, h, hb⟩
      cases before with
      | nil => exact .inl (by rw [h]; exact hb)
      | cons y before =>
        obtain ⟨-, rfl⟩ := cons.inj h
        exact .inr ⟨before, after, rfl, hb⟩

/-- THE MATCHER IMPLEMENTS ITS REGULAR EXPRESSIONS: with a leading `^` the text begins with what the rest of the pattern
    stands for, without one some substring of the text is what the pattern stands for. -/
theorem matchRe_iff (re text : List UInt8) :
    matchRe re text = true ↔
      if re.head? = some caret then ∃ s rest, text = s ++ rest ∧ Matches (items re.tail) s rest
      else ∃ before s rest, text = before ++ s ++ rest ∧ Matches (items re) s rest := by
  have hfrom : (∃ before after, text = before ++ after ∧ Begins (items re) after) ↔
      ∃ before s rest, text = before ++ s ++ rest ∧ Matches (items re) s rest := by
    constructor
    · rintro ⟨before, _, rfl, s, rest, rfl, hm⟩
      exact ⟨before, s, rest, (append_assoc before s rest).symm, hm⟩
    · rintro ⟨before, s, rest, rfl, hm⟩
      exact ⟨before, s ++ rest, append_assoc before s rest, s, rest, rfl, hm⟩
  cases re with
  | nil => exact matchFrom_iff.trans hfrom
  | cons c re =>
    simp only [matchRe, head?_cons, tail_cons, Option.some_inj]
    by_cases hc : c = caret
    · rw [if_pos hc, if_pos hc]
      exact matchhere_iff
    · rw [if_neg hc, if_neg hc]
      exact matchFrom_iff.trans hfrom

end Xv6.Grep
