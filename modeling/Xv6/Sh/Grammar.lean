import Xv6.Sh.Parse
import Mathlib

/-!
# The shell's grammar

What `parsecmd` is meant to accept, stated apart from it: the tokens of a
line (`Lexes`), and the grammar over them, each nonterminal relating the
tokens it starts at, the tree it builds and the tokens it leaves.

    line   := pipe {'&'} [';' line]
    pipe   := exec ['|' pipe]
    exec   := '(' line ')' redirs | redirs {word redirs}    (fewer than MAXARGS words)
    redirs := {('<' | '>' | '>>') word}

A word token is kept as the two pointers the parser keeps for it, where it
starts and where it ends in the line, so that the trees of the grammar are
the trees of `parsecmd`. `lex` reads the tokens of a line with `gettoken`,
and is a reading `Lexes` allows (`lexes_lex`), the only one
(`Lexes.eq_lex`); `peek` looks at the first token (`peek_eq`).
-/

namespace Xv6

namespace Sh

/-! ## Tokens -/

/-- A character of a word: not the `NUL`, whitespace, or a symbol. -/
def IsWordChar (c : UInt8) : Prop := c ≠ 0 ∧ c ∉ whitespace ∧ c ∉ symbols

instance : DecidablePred IsWordChar := fun _ => inferInstanceAs (Decidable (_ ∧ _ ∧ _))

theorem isWordChar_iff (c : UInt8) : isWordChar c = true ↔ IsWordChar c := by
  simp only [isWordChar, IsWordChar, strchr, Bool.and_eq_true, Bool.not_eq_true', Bool.or_eq_false_iff,
    beq_eq_false_iff_ne, List.contains_eq_mem, decide_eq_false_iff_not]
  tauto

theorem mem_symbols (c : UInt8) :
    c ∈ symbols ↔ c = '<'.toUInt8 ∨ c = '|'.toUInt8 ∨ c = '>'.toUInt8 ∨ c = '&'.toUInt8 ∨
      c = ';'.toUInt8 ∨ c = '('.toUInt8 ∨ c = ')'.toUInt8 := by
  simp [symbols, chars]

/-- A token: one of the symbols `< | > & ; ( )`, `>>`, or a word, by the
pointers to where it starts and where it ends. -/
inductive Tok where
  | sym (c : UInt8)
  | app
  | word (q eq : List UInt8)
deriving DecidableEq, Repr

/-- The tokens of a line: whitespace between tokens is skipped, `>>` is one
token, and a word is a maximal run of word characters. -/
inductive Lexes : List UInt8 → List Tok → Prop
  | nil : Lexes [] []
  | space {c : UInt8} {s : List UInt8} {ts : List Tok} :
      c ∈ whitespace → Lexes s ts → Lexes (c :: s) ts
  | sym {c : UInt8} {s : List UInt8} {ts : List Tok} :
      c ∈ symbols → c ≠ '>'.toUInt8 → Lexes s ts → Lexes (c :: s) (.sym c :: ts)
  | gt {s : List UInt8} {ts : List Tok} :
      s.head? ≠ some '>'.toUInt8 → Lexes s ts → Lexes ('>'.toUInt8 :: s) (.sym '>'.toUInt8 :: ts)
  | app {s : List UInt8} {ts : List Tok} :
      Lexes s ts → Lexes ('>'.toUInt8 :: '>'.toUInt8 :: s) (.app :: ts)
  | word {w s : List UInt8} {ts : List Tok} :
      w ≠ [] → (∀ c ∈ w, IsWordChar c) → (∀ c ∈ s.head?, ¬ IsWordChar c) → Lexes s ts →
      Lexes (w ++ s) (.word (w ++ s) s :: ts)

/-- The token `gettoken` found. -/
def Token.tok (t : Token) : Tok :=
  if t.ret = 'a'.toUInt8 then .word t.q t.eq
  else if t.ret = '+'.toUInt8 then .app
  else .sym t.ret

/-- The tokens `gettoken` reads from `s` to the end of the line. -/
def lex (s : List UInt8) : List Tok :=
  if h : (gettoken s).ret = 0 then [] else (gettoken s).tok :: lex (gettoken s).rest
termination_by s.length
decreasing_by exact length_gettoken_lt h

/-- Whether a token is one of the characters `toks`: `>>` counts as `>`, and
no word is one. -/
def Tok.isIn (toks : List UInt8) : Tok → Bool
  | .sym c => toks.contains c
  | .app => toks.contains '>'.toUInt8
  | .word _ _ => false

/-! ## What `gettoken` reads -/

theorem ret_eq_zero_iff (s : List UInt8) : (gettoken s).ret = 0 ↔ skipws s = [] := by
  rcases gettoken_cases s with ⟨h, hg⟩ | ⟨h, hr, -⟩
  · simp [h, hg]
  · simp [h, hr]

theorem gettoken_sym {s t : List UInt8} {c : UInt8} (h : skipws s = c :: t) (hc : c ∈ symbols)
    (hgt : c ≠ '>'.toUInt8) : gettoken s = ⟨c, skipws s, t, skipws t⟩ := by
  rcases gettoken_eq s with ⟨h', -⟩ | ⟨c', t', h', -, -, hg⟩ | ⟨t', h', -⟩ | ⟨t', h', -, -⟩ |
      ⟨w, e, h', hw, hwc, -, -⟩ <;> rw [h] at h'
  · cases h'
  · obtain ⟨rfl, rfl⟩ := List.cons.inj h'
    exact hg
  · exact absurd (List.cons.inj h').1 hgt
  · exact absurd (List.cons.inj h').1 hgt
  · obtain ⟨d, w', rfl⟩ := List.exists_cons_of_ne_nil hw
    obtain ⟨rfl, -⟩ := List.cons.inj h'
    exact absurd hc ((isWordChar_iff c).mp (hwc c (by simp))).2.2

theorem gettoken_app {s t : List UInt8} (h : skipws s = '>'.toUInt8 :: '>'.toUInt8 :: t) :
    gettoken s = ⟨'+'.toUInt8, skipws s, t, skipws t⟩ := by
  rcases gettoken_eq s with ⟨h', -⟩ | ⟨c', t', h', -, hgt, -⟩ | ⟨t', h', hg⟩ | ⟨t', h', hne, -⟩ |
      ⟨w, e, h', hw, hwc, -, -⟩ <;> rw [h] at h'
  · cases h'
  · exact absurd (List.cons.inj h').1.symm hgt
  · obtain rfl : t = t' := by simpa using h'
    exact hg
  · obtain ⟨-, rfl⟩ := List.cons.inj h'
    exact absurd rfl hne
  · obtain ⟨d, w', rfl⟩ := List.exists_cons_of_ne_nil hw
    obtain ⟨rfl, -⟩ := List.cons.inj h'
    exact absurd (by decide : '>'.toUInt8 ∈ symbols) ((isWordChar_iff _).mp (hwc _ (by simp))).2.2

theorem gettoken_gt {s t : List UInt8} (h : skipws s = '>'.toUInt8 :: t)
    (ht : t.head? ≠ some '>'.toUInt8) : gettoken s = ⟨'>'.toUInt8, skipws s, t, skipws t⟩ := by
  rcases gettoken_eq s with ⟨h', -⟩ | ⟨c', t', h', -, hgt, -⟩ | ⟨t', h', -⟩ | ⟨t', h', -, hg⟩ |
      ⟨w, e, h', hw, hwc, -, -⟩ <;> rw [h] at h'
  · cases h'
  · exact absurd (List.cons.inj h').1.symm hgt
  · obtain ⟨-, rfl⟩ := List.cons.inj h'
    exact absurd rfl ht
  · obtain ⟨-, rfl⟩ := List.cons.inj h'
    exact hg
  · obtain ⟨d, w', rfl⟩ := List.exists_cons_of_ne_nil hw
    obtain ⟨rfl, -⟩ := List.cons.inj h'
    exact absurd (by decide : '>'.toUInt8 ∈ symbols) ((isWordChar_iff _).mp (hwc _ (by simp))).2.2

theorem gettoken_word {s w e : List UInt8} (h : skipws s = w ++ e) (hw : w ≠ [])
    (hwc : ∀ c ∈ w, IsWordChar c) (he : ∀ c ∈ e.head?, ¬ IsWordChar c) :
    gettoken s = ⟨'a'.toUInt8, skipws s, e, skipws e⟩ := by
  obtain ⟨c, w', rfl⟩ := List.exists_cons_of_ne_nil hw
  have hc := hwc c (by simp)
  rcases gettoken_eq s with ⟨h', -⟩ | ⟨c', t', h', hsym, -, -⟩ | ⟨t', h', -⟩ | ⟨t', h', -, -⟩ |
      ⟨w₂, e₂, h', hw₂, hwc₂, he₂, hg⟩ <;> rw [h] at h'
  · cases h'
  · obtain ⟨rfl, -⟩ := List.cons.inj h'
    exact absurd hsym hc.2.2
  · obtain ⟨rfl, -⟩ := List.cons.inj h'
    exact absurd hc.2.2 (by decide)
  · obtain ⟨rfl, -⟩ := List.cons.inj h'
    exact absurd hc.2.2 (by decide)
  · -- both are the longest run of word characters from the same place
    have hdw : ∀ {w e : List UInt8}, (∀ c ∈ w, isWordChar c = true) →
        (∀ c ∈ e.head?, isWordChar c = false) → (w ++ e).dropWhile isWordChar = e := by
      intro w e hw he
      rw [List.dropWhile_append_of_pos hw]
      cases e with
      | nil => rfl
      | cons x e => exact List.dropWhile_cons_of_neg (by simpa using he x rfl)
    have h₁ := hdw (fun x hx => (isWordChar_iff x).mpr (hwc x hx))
      (fun x hx => Bool.eq_false_iff.mpr fun h => he x hx ((isWordChar_iff x).mp h))
    have h₂ := hdw hwc₂ he₂
    rw [← h', h₁] at h₂
    subst h₂
    exact hg

/-! ## The tokens `lex` reads -/

theorem lex_eq_nil_iff (s : List UInt8) : lex s = [] ↔ skipws s = [] := by
  rw [lex, ← ret_eq_zero_iff]
  split <;> simp_all

theorem lex_of_ne_nil {s : List UInt8} (h : skipws s ≠ []) :
    lex s = (gettoken s).tok :: lex (gettoken s).rest := by
  rw [lex, dif_neg (by rwa [ret_eq_zero_iff])]

theorem lex_skipws (s : List UInt8) : lex (skipws s) = lex s := by
  rw [lex.eq_def (skipws s), gettoken_skipws, ← lex.eq_def s]

theorem lex_peek (s toks : List UInt8) : lex (peek s toks).2 = lex s :=
  lex_skipws s

/-- A token and the tokens after it: `gettoken` reads the first, and the rest
of the line is the others. -/
theorem lex_eq_cons_iff {s : List UInt8} {t : Tok} {ts : List Tok} :
    lex s = t :: ts ↔ skipws s ≠ [] ∧ (gettoken s).tok = t ∧ lex (gettoken s).rest = ts := by
  by_cases h : skipws s = []
  · simp [(lex_eq_nil_iff s).mpr h, h]
  · simp [lex_of_ne_nil h, h]

theorem gettoken_of_lex_nil {s : List UInt8} (h : lex s = []) : gettoken s = ⟨0, [], [], []⟩ := by
  rcases gettoken_cases s with ⟨-, hg⟩ | ⟨hs, -, -⟩
  · exact hg
  · exact absurd ((lex_eq_nil_iff s).mp h) hs

theorem lex_space {c : UInt8} {s : List UInt8} (hc : c ∈ whitespace) : lex (c :: s) = lex s := by
  have : skipws (c :: s) = skipws s :=
    List.dropWhile_cons_of_pos (by simp [strchr, hc])
  rw [← lex_skipws (c :: s), this, lex_skipws]

theorem skipws_of_not_space {c : UInt8} {s : List UInt8} (hc : strchr whitespace c = false) :
    skipws (c :: s) = c :: s :=
  List.dropWhile_cons_of_neg (by simp [hc])

theorem lex_sym {c : UInt8} {s : List UInt8} (hc : c ∈ symbols) (hgt : c ≠ '>'.toUInt8) :
    lex (c :: s) = .sym c :: lex s := by
  have hws : strchr whitespace c = false := by
    rcases (mem_symbols c).mp hc with rfl | rfl | rfl | rfl | rfl | rfl | rfl <;> decide
  have hsk := skipws_of_not_space (s := s) hws
  rw [lex_of_ne_nil (by simp [hsk]), gettoken_sym hsk hc hgt, lex_skipws]
  congr 1
  simp only [Token.tok]
  have ha : c ≠ 'a'.toUInt8 := by rintro rfl; revert hc; decide
  have hp : c ≠ '+'.toUInt8 := by rintro rfl; revert hc; decide
  simp [ha, hp]

theorem lex_app (s : List UInt8) : lex ('>'.toUInt8 :: '>'.toUInt8 :: s) = .app :: lex s := by
  have hsk := skipws_of_not_space (c := '>'.toUInt8) (s := '>'.toUInt8 :: s) (by decide)
  rw [lex_of_ne_nil (by simp [hsk]), gettoken_app hsk, lex_skipws]
  rfl

theorem lex_gt {s : List UInt8} (hs : s.head? ≠ some '>'.toUInt8) :
    lex ('>'.toUInt8 :: s) = .sym '>'.toUInt8 :: lex s := by
  have hsk := skipws_of_not_space (c := '>'.toUInt8) (s := s) (by decide)
  rw [lex_of_ne_nil (by simp [hsk]), gettoken_gt hsk hs, lex_skipws]
  rfl

theorem lex_word {w s : List UInt8} (hw : w ≠ []) (hwc : ∀ c ∈ w, IsWordChar c)
    (hs : ∀ c ∈ s.head?, ¬ IsWordChar c) : lex (w ++ s) = .word (w ++ s) s :: lex s := by
  obtain ⟨c, w', rfl⟩ := List.exists_cons_of_ne_nil hw
  have hws : strchr whitespace c = false := by
    have := (hwc c (by simp)).2.1
    simp [strchr, (hwc c (by simp)).1, this]
  have hsk := skipws_of_not_space (s := w' ++ s) hws
  rw [List.cons_append, lex_of_ne_nil (by simp [hsk]), gettoken_word hsk hw hwc hs, lex_skipws, hsk]
  rfl

/-! ## `lex` is the reading `Lexes` describes -/

theorem Lexes.eq_lex {s : List UInt8} {ts : List Tok} (h : Lexes s ts) : ts = lex s := by
  induction h with
  | nil => exact ((lex_eq_nil_iff []).mpr rfl).symm
  | space hc _ ih => rw [lex_space hc, ih]
  | sym hc hgt _ ih => rw [lex_sym hc hgt, ih]
  | gt hs _ ih => rw [lex_gt hs, ih]
  | app _ ih => rw [lex_app, ih]
  | word hw hwc hs _ ih => rw [lex_word hw hwc hs, ih]

/-- Whitespace before the tokens is skipped. -/
theorem lexes_of_skipws {s : List UInt8} {ts : List Tok} (h0 : 0 ∉ s) (h : Lexes (skipws s) ts) :
    Lexes s ts := by
  induction s with
  | nil => exact h
  | cons c s ih =>
    have hc0 : c ≠ 0 := fun hc => h0 (hc ▸ List.mem_cons_self)
    cases hws : strchr whitespace c
    · rwa [skipws_of_not_space hws] at h
    · have hsk : skipws (c :: s) = skipws s := List.dropWhile_cons_of_pos hws
      have hc : c ∈ whitespace := by simpa [strchr, hc0] using hws
      rw [hsk] at h
      exact Lexes.space hc (ih (fun h' => h0 (List.mem_cons_of_mem c h')) h)

/-- On a line with no `NUL`, `lex` reads the tokens `Lexes` describes; the
induction is on the length of the line, one token at a time. -/
theorem lexes_lex {s : List UInt8} (h0 : 0 ∉ s) : Lexes s (lex s) := by
  induction hn : s.length using Nat.strong_induction_on generalizing s with
  | _ n ih =>
    have h0' : ∀ {t}, t <:+ s → 0 ∉ t := fun ht h => h0 (ht.subset h)
    have hs := skipws_suffix s
    refine lexes_of_skipws h0 ?_
    rcases gettoken_eq s with ⟨h, -⟩ | ⟨c, t, h, hc, hgt, -⟩ | ⟨t, h, -⟩ | ⟨t, h, ht, -⟩ |
        ⟨w, e, h, hw, hwc, he, -⟩
    · rw [h, (lex_eq_nil_iff s).mpr h]
      exact Lexes.nil
    · have ht := suffix_of_skipws (show skipws s = [c] ++ t from h)
      have hlt := length_lt_of_skipws (show skipws s = [c] ++ t from h) (by simp)
      rw [← lex_skipws s, h, lex_sym hc hgt]
      exact Lexes.sym hc hgt (ih _ (hn ▸ hlt) (h0' ht) rfl)
    · have ht := suffix_of_skipws (show skipws s = [_, _] ++ t from h)
      have hlt := length_lt_of_skipws (show skipws s = [_, _] ++ t from h) (by simp)
      rw [← lex_skipws s, h, lex_app]
      exact Lexes.app (ih _ (hn ▸ hlt) (h0' ht) rfl)
    · have ht' := suffix_of_skipws (show skipws s = [_] ++ t from h)
      have hlt := length_lt_of_skipws (show skipws s = [_] ++ t from h) (by simp)
      rw [← lex_skipws s, h, lex_gt ht]
      exact Lexes.gt ht (ih _ (hn ▸ hlt) (h0' ht') rfl)
    · have he' := suffix_of_skipws h
      have hlt := length_lt_of_skipws h hw
      have hwc' : ∀ c ∈ w, IsWordChar c := fun c hc => (isWordChar_iff c).mp (hwc c hc)
      have he'' : ∀ c ∈ e.head?, ¬ IsWordChar c := fun c hc => by
        simpa [← isWordChar_iff] using he c hc
      rw [← lex_skipws s, h, lex_word hw hwc' he'']
      exact Lexes.word hw hwc' he'' (ih _ (hn ▸ hlt) (h0' he') rfl)

theorem ne_zero_of_mem_symbols {c : UInt8} (hc : c ∈ symbols) : c ≠ 0 := by
  rcases (mem_symbols c).mp hc with rfl | rfl | rfl | rfl | rfl | rfl | rfl <;> decide

/-- What `peek` computes of a character that is not the end of the line. -/
theorem strchr_of_ne_zero {c : UInt8} (toks : List UInt8) (hc : c ≠ 0) :
    (c != 0 && strchr toks c) = toks.contains c := by
  have h1 : (c != 0) = true := bne_iff_ne.mpr hc
  have h2 : (c == 0) = false := beq_false_of_ne hc
  rw [h1, strchr, h2, Bool.true_and, Bool.false_or]

/-- `peek` looks at the first token: whether it is one of `toks`, which are
symbols. -/
theorem peek_eq {toks : List UInt8} (htoks : ∀ c ∈ toks, c ∈ symbols) (s : List UInt8) :
    (peek s toks).1 = (lex s).head?.any (Tok.isIn toks) := by
  rcases gettoken_eq s with ⟨h, -⟩ | ⟨c, t, h, hc, hgt, -⟩ | ⟨t, h, -⟩ | ⟨t, h, ht, -⟩ |
      ⟨w, e, h, hw, hwc, he, -⟩
  · simp [peek, h, (lex_eq_nil_iff s).mpr h]
  · rw [← lex_skipws s, h, lex_sym hc hgt]
    simp only [peek, h, List.headD_cons, strchr_of_ne_zero toks (ne_zero_of_mem_symbols hc)]
    rfl
  · rw [← lex_skipws s, h, lex_app]
    simp only [peek, h, List.headD_cons, strchr_of_ne_zero toks (by decide : '>'.toUInt8 ≠ 0)]
    rfl
  · rw [← lex_skipws s, h, lex_gt ht]
    simp only [peek, h, List.headD_cons, strchr_of_ne_zero toks (by decide : '>'.toUInt8 ≠ 0)]
    rfl
  · -- a word starts with a word character, which is none of the symbols
    have hwc' : ∀ c ∈ w, IsWordChar c := fun c hc => (isWordChar_iff c).mp (hwc c hc)
    have he' : ∀ c ∈ e.head?, ¬ IsWordChar c := fun c hc => by
      simpa [← isWordChar_iff] using he c hc
    obtain ⟨c, w', rfl⟩ := List.exists_cons_of_ne_nil hw
    have hc := hwc' c (by simp)
    have hnot : toks.contains c = false := by
      simpa using fun hc' => hc.2.2 (htoks c hc')
    rw [← lex_skipws s, h, lex_word hw hwc' he']
    simp only [peek, h, List.cons_append, List.headD_cons, strchr_of_ne_zero toks hc.1, hnot]
    rfl

/-! ## The grammar -/

/-- The flags and the descriptor of a redirection: `<` opens the file for
reading as descriptor 0, `>` for writing, created and truncated, as 1, and
`>>` for writing, created, as 1. -/
def Tok.redirMode : Tok → Option (Nat × Nat)
  | .sym c =>
    if c = '<'.toUInt8 then some (O_RDONLY, 0)
    else if c = '>'.toUInt8 then some (O_WRONLY ||| O_CREATE ||| O_TRUNC, 1)
    else none
  | .app => some (O_WRONLY ||| O_CREATE, 1)
  | .word _ _ => none

/-- A redirection: the pointers to its file's word, and how it is opened. -/
structure Redir where
  file : List UInt8
  efile : List UInt8
  mode : Nat
  fd : Nat
deriving DecidableEq, Repr

/-- `cmd` inside the redirections `rs`, the first innermost. -/
def Cmd.wrap (cmd : Cmd) : List Redir → Cmd
  | [] => cmd
  | r :: rs => (Cmd.redir cmd r.file r.efile r.mode r.fd).wrap rs

/-- `k` tokens `&`. -/
def amps (k : Nat) : List Tok := List.replicate k (.sym '&'.toUInt8)

/-- `redirs := {('<' | '>' | '>>') word}`. -/
inductive Redirs : List Tok → List Redir → List Tok → Prop
  | nil (ts : List Tok) : Redirs ts [] ts
  | cons {op : Tok} {q eq : List UInt8} {mode fd : Nat} {ts ts' : List Tok} {rs : List Redir} :
      op.redirMode = some (mode, fd) → Redirs ts rs ts' →
      Redirs (op :: .word q eq :: ts) (⟨q, eq, mode, fd⟩ :: rs) ts'

/-- `{word redirs}`: the words, and the redirections after each. -/
inductive Words : List Tok → List (List UInt8 × List UInt8) → List Redir → List Tok → Prop
  | nil (ts : List Tok) : Words ts [] [] ts
  | cons {q eq : List UInt8} {ts ts₁ ts' : List Tok} {ws : List (List UInt8 × List UInt8)}
      {rs rs' : List Redir} :
      Redirs ts rs ts₁ → Words ts₁ ws rs' ts' → Words (.word q eq :: ts) ((q, eq) :: ws) (rs ++ rs') ts'

mutual

/-- `line := pipe {'&'} [';' line]`: each `&` puts a `backcmd` around what is
before it, and a list nests to the right. -/
inductive Line : List Tok → Cmd → List Tok → Prop
  | pipe {ts ts' : List Tok} {c : Cmd} {k : Nat} :
      Pipe ts c (amps k ++ ts') → Line ts (Cmd.back^[k] c) ts'
  | list {ts ts₁ ts' : List Tok} {c d : Cmd} {k : Nat} :
      Pipe ts c (amps k ++ .sym ';'.toUInt8 :: ts₁) → Line ts₁ d ts' →
      Line ts (.list (Cmd.back^[k] c) d) ts'

/-- `pipe := exec ['|' pipe]`: a pipeline nests to the right. -/
inductive Pipe : List Tok → Cmd → List Tok → Prop
  | exec {ts ts' : List Tok} {c : Cmd} : Exec ts c ts' → Pipe ts c ts'
  | pipe {ts ts₁ ts' : List Tok} {c d : Cmd} :
      Exec ts c (.sym '|'.toUInt8 :: ts₁) → Pipe ts₁ d ts' → Pipe ts (.pipe c d) ts'

/-- `exec := '(' line ')' redirs | redirs {word redirs}`, with fewer than
`MAXARGS` words: the redirections, in order, around the block or around one
`execcmd` of all the words. -/
inductive Exec : List Tok → Cmd → List Tok → Prop
  | block {ts ts₁ ts' : List Tok} {c : Cmd} {rs : List Redir} :
      Line ts c (.sym ')'.toUInt8 :: ts₁) → Redirs ts₁ rs ts' →
      Exec (.sym '('.toUInt8 :: ts) (c.wrap rs) ts'
  | simple {ts ts₁ ts' : List Tok} {ws : List (List UInt8 × List UInt8)} {rs rs' : List Redir} :
      Redirs ts rs ts₁ → Words ts₁ ws rs' ts' → ws.length < MAXARGS →
      Exec ts ((Cmd.exec ws).wrap (rs ++ rs')) ts'

end

/-- `ts` is at the end of the line or at one of the characters `toks`: what
may follow a nonterminal whose parse stops before it. -/
def Follows (toks : List UInt8) (ts : List Tok) : Prop := ∀ t ∈ ts.head?, t.isIn toks = true

@[simp] theorem Cmd.wrap_nil (cmd : Cmd) : cmd.wrap [] = cmd := rfl

@[simp] theorem Cmd.wrap_cons (cmd : Cmd) (r : Redir) (rs : List Redir) :
    cmd.wrap (r :: rs) = (Cmd.redir cmd r.file r.efile r.mode r.fd).wrap rs := rfl

theorem Cmd.wrap_append (cmd : Cmd) (rs rs' : List Redir) :
    cmd.wrap (rs ++ rs') = (cmd.wrap rs).wrap rs' := by
  induction rs generalizing cmd with
  | nil => rfl
  | cons r rs ih => exact ih _

/-- Setting the words of the `execcmd` inside redirections. -/
theorem Cmd.setArgv_wrap (argv argv' : List (List UInt8 × List UInt8)) (rs : List Redir) :
    ((Cmd.exec argv).wrap rs).setArgv argv' = (Cmd.exec argv').wrap rs := by
  induction rs using List.reverseRecOn with
  | nil => rfl
  | append_singleton rs r ih => rw [Cmd.wrap_append, Cmd.wrap_append]; simp [Cmd.setArgv, ih]

end Sh

end Xv6
