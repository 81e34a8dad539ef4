import Mathlib

/-!
# grep's matcher (`user/grep.c`)

Kernighan and Pike's matcher: `match` tries `matchhere` at each position of
the text, the end included, or only at the start after a leading `^`;
`matchhere` takes the pattern one item at a time, and `matchstar` tries a
starred character with the fewest repetitions first. A C string is its
bytes before the `NUL`.

What a pattern means is stated apart from the matcher: `items` reads it as a
list of items (one character, `.` for any; zero or more of one; the end
anchor `$` in last place), and `Prefix` says when items match a prefix of a
text. `matchhere_iff`, `matchstar_iff` and `match_iff` say that the matcher
decides exactly that. The recursion of the model is the C recursion, with its
measure: the pattern gets shorter, or it stays and the text gets shorter in
the loop of `matchstar`; so every call returns.
-/

namespace Xv6

namespace Grep

/-- `'^'`. -/
def cCaret : UInt8 := '^'.toNat.toUInt8

/-- `'*'`. -/
def cStar : UInt8 := '*'.toNat.toUInt8

/-- `'$'`. -/
def cDollar : UInt8 := '$'.toNat.toUInt8

/-- `'.'`. -/
def cDot : UInt8 := '.'.toNat.toUInt8

mutual

/-- `matchhere`: search for `re` at the beginning of `text`. -/
def matchhere : List UInt8 → List UInt8 → Bool
  | [], _ => true
  | c :: re, text =>
    if re.head? = some cStar then matchstar c (re.drop 1) text
    else if c = cDollar ∧ re = [] then text.isEmpty
    else
      match text with
      | t :: text => (c = cDot ∨ c = t) && matchhere re text
      | [] => false
termination_by re => (re.length, 0)

/-- `matchstar`: search for `c*re` at the beginning of `text`; the star
takes zero or more instances, the fewest first. -/
def matchstar (c : UInt8) (re : List UInt8) : List UInt8 → Bool
  | [] => matchhere re []
  | t :: text => matchhere re (t :: text) || ((t = c ∨ c = cDot) && matchstar c re text)
termination_by text => (re.length, text.length + 1)

end

@[simp] theorem matchhere_nil (text : List UInt8) : matchhere [] text = true :=
  matchhere.eq_1 text

theorem matchhere_cons (c : UInt8) (re text : List UInt8) :
    matchhere (c :: re) text =
      if re.head? = some cStar then matchstar c (re.drop 1) text
      else if c = cDollar ∧ re = [] then text.isEmpty
      else
        match text with
        | t :: text => (c = cDot ∨ c = t) && matchhere re text
        | [] => false := by
  cases text with
  | nil => rw [matchhere.eq_3]
  | cons t text => rw [matchhere.eq_2]

theorem matchstar_nil (c : UInt8) (re : List UInt8) : matchstar c re [] = matchhere re [] :=
  matchstar.eq_1 c re

theorem matchstar_cons (c : UInt8) (re : List UInt8) (t : UInt8) (text : List UInt8) :
    matchstar c re (t :: text) =
      (matchhere re (t :: text) || ((t = c ∨ c = cDot) && matchstar c re text)) :=
  matchstar.eq_2 c re t text

/-- The loop of `match`: `matchhere` at each position of the text, the
empty rest included. -/
def matchLoop (re : List UInt8) : List UInt8 → Bool
  | [] => matchhere re []
  | t :: text => matchhere re (t :: text) || matchLoop re text

/-- `match`: `re` matches somewhere in `text`, or at its start after a
leading `^`. -/
def matchRe : List UInt8 → List UInt8 → Bool
  | c :: re, text => if c = cCaret then matchhere re text else matchLoop (c :: re) text
  | [], text => matchLoop [] text

/-! ## What a pattern means -/

/-- An item of a pattern: one character (`.` for any), zero or more of one,
or the end of the text. -/
inductive Item where
  | one (c : UInt8)
  | many (c : UInt8)
  | eol
deriving DecidableEq, Repr

/-- A pattern character accepts a text character: `.` any, another itself. -/
def Accepts (c t : UInt8) : Prop := c = cDot ∨ c = t

/-- The items of a pattern, read left to right: a character followed by `*`
is `many`, a `$` in last place is `eol`, and any other character `one`. -/
def items : List UInt8 → List Item
  | [] => []
  | [c] => if c = cDollar then [.eol] else [.one c]
  | c :: c' :: re => if c' = cStar then .many c :: items re else .one c :: items (c' :: re)

/-- The items match a prefix of `text`: `one` takes a character it accepts,
`many` some number of them, and `eol` only the end of the text. -/
def Prefix : List Item → List UInt8 → Prop
  | [], _ => True
  | .one c :: is, text => ∃ t rest, text = t :: rest ∧ Accepts c t ∧ Prefix is rest
  | .many c :: is, text =>
    ∃ n ≤ text.length, (∀ t ∈ text.take n, Accepts c t) ∧ Prefix is (text.drop n)
  | .eol :: is, text => text = [] ∧ Prefix is []

/-- The test of `matchstar`, which reads the characters the other way round. -/
theorem accepts_iff {c t : UInt8} : (t = c ∨ c = cDot) ↔ Accepts c t := by
  unfold Accepts
  constructor
  · rintro (h | h)
    · exact .inr h.symm
    · exact .inl h
  · rintro (h | h)
    · exact .inr h
    · exact .inl h.symm

theorem items_star (c : UInt8) (re : List UInt8) : items (c :: cStar :: re) = .many c :: items re :=
  if_pos rfl

/-- A character neither starred nor a last `$` is one item. -/
theorem items_one {c : UInt8} {re : List UInt8} (hs : re.head? ≠ some cStar)
    (hd : ¬ (c = cDollar ∧ re = [])) : items (c :: re) = .one c :: items re := by
  cases re with
  | nil => simp only [items, if_neg (fun h => hd ⟨h, rfl⟩)]
  | cons c' re =>
    have hc' : c' ≠ cStar := fun h => hs (by rw [h]; rfl)
    simp only [items, if_neg hc']

/-! ## The matcher decides the items -/

/-- `matchstar` tries each number of repetitions, given what `matchhere`
decides for the rest of the pattern. -/
theorem matchstar_iff {c : UInt8} {re : List UInt8} {P : List UInt8 → Prop}
    (hre : ∀ text, matchhere re text = true ↔ P text) :
    ∀ text, matchstar c re text = true ↔
      ∃ n ≤ text.length, (∀ t ∈ text.take n, Accepts c t) ∧ P (text.drop n)
  | [] => by
    rw [matchstar_nil, hre]
    simp
  | t :: text => by
    rw [matchstar_cons, Bool.or_eq_true, hre]
    simp only [Bool.and_eq_true, decide_eq_true_eq, accepts_iff, matchstar_iff hre text]
    constructor
    · rintro (h | ⟨ht, n, hn, hall, hP⟩)
      · -- no repetition
        exact ⟨0, by simp, by simp, h⟩
      · -- `t` is one repetition, `n` more follow
        refine ⟨n + 1, by simpa using hn, ?_, hP⟩
        intro t' ht'
        rw [List.take_succ_cons, List.mem_cons] at ht'
        rcases ht' with rfl | ht'
        · exact ht
        · exact hall t' ht'
    · rintro ⟨n, hn, hall, hP⟩
      cases n with
      | zero => exact .inl hP
      | succ n =>
        have ht := hall t (by simp)
        refine .inr ⟨ht, n, by simpa using hn, fun t' ht' => ?_, hP⟩
        exact hall t' (by rw [List.take_succ_cons]; exact List.mem_cons_of_mem t ht')

/-- `matchhere` decides whether the items of the pattern match a prefix of
the text. -/
theorem matchhere_iff : ∀ re text : List UInt8, matchhere re text = true ↔ Prefix (items re) text
  | [], text => by simp [items, Prefix]
  | c :: re, text => by
    rw [matchhere_cons]
    by_cases hs : re.head? = some cStar
    · -- a starred character
      obtain ⟨re', rfl⟩ : ∃ re', re = cStar :: re' := by
        cases re with
        | nil => cases hs
        | cons c' re' => exact ⟨re', by simpa using hs⟩
      rw [if_pos hs, items_star, List.drop_one, List.tail_cons,
        matchstar_iff (matchhere_iff re') text]
      rfl
    · rw [if_neg hs]
      by_cases hd : c = cDollar ∧ re = []
      · -- the end anchor
        obtain ⟨rfl, rfl⟩ := hd
        rw [if_pos ⟨rfl, rfl⟩]
        simp [items, Prefix]
      · -- one character
        rw [if_neg hd, items_one hs hd]
        cases text with
        | nil => simp [Prefix]
        | cons t text =>
          simp only [Bool.and_eq_true, decide_eq_true_eq, matchhere_iff re text, Prefix,
            List.cons.injEq]
          constructor
          · rintro ⟨ht, hP⟩
            exact ⟨t, text, ⟨rfl, rfl⟩, ht, hP⟩
          · rintro ⟨t', rest, ⟨rfl, rfl⟩, ht, hP⟩
            exact ⟨ht, hP⟩
termination_by re => re.length

/-- The loop of `match` finds the items at some position, the end included. -/
theorem matchLoop_iff (re : List UInt8) :
    ∀ text, matchLoop re text = true ↔ ∃ k ≤ text.length, Prefix (items re) (text.drop k)
  | [] => by simp [matchLoop, matchhere_iff]
  | t :: text => by
    rw [matchLoop, Bool.or_eq_true, matchhere_iff, matchLoop_iff re text]
    constructor
    · rintro (h | ⟨k, hk, h⟩)
      · exact ⟨0, by simp, h⟩
      · exact ⟨k + 1, by simpa using hk, h⟩
    · rintro ⟨k, hk, h⟩
      cases k with
      | zero => exact .inl h
      | succ k => exact .inr ⟨k, by simpa using hk, h⟩

/-- `match` accepts exactly when the items match a prefix of the text after
a leading `^`, and otherwise a prefix of some suffix of it, the empty one
included. -/
theorem match_iff (re text : List UInt8) :
    matchRe re text = true ↔
      (re.head? = some cCaret ∧ Prefix (items re.tail) text) ∨
        (re.head? ≠ some cCaret ∧ ∃ k ≤ text.length, Prefix (items re) (text.drop k)) := by
  cases re with
  | nil => simp [matchRe, matchLoop_iff]
  | cons c re =>
    by_cases hc : c = cCaret
    · subst hc
      simp [matchRe, matchhere_iff]
    · have hne : (c :: re).head? ≠ some cCaret := by simpa using hc
      simp only [matchRe, if_neg hc, matchLoop_iff, hne, false_and, false_or, ne_eq,
        not_false_eq_true, true_and]

end Grep

end Xv6
