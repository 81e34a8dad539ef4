import Xv6.Param
import Mathlib

/-!
# The shell's parser (`user/sh.c`)

`parsecmd` reads a command line by recursive descent: `gettoken` and `peek`
scan it, `parseline`, `parsepipe`, `parseexec`, `parseblock` and
`parseredirs` build the command tree, and `nulterminate` writes a `NUL` after
every word the tree points to. `panic` prints its message and exits; here it
is the error of the `Except`.

A `char *` into the command line is the part of the line from there to its
`NUL`, a suffix of the line: `s < es` is `s ≠ []`, `*s` is `s.headD 0`, and
`s++` is `s.tail`. Each parsing function returns where it stopped, a suffix
no longer than where it started (`Rest s`); the four that call one another
are defined by well-founded recursion on the length of the line that is
left, with the function's rank breaking ties, which is the proof that
`parsecmd` terminates.
-/

namespace Xv6

namespace Sh

def MAXARGS : Nat := 10

/-- The bytes of an ASCII string. -/
def chars (s : String) : List UInt8 := s.toList.map Char.toUInt8

/-- `whitespace[]`. -/
def whitespace : List UInt8 := chars " \t\r\n\x0b"

/-- `symbols[]`. -/
def symbols : List UInt8 := chars "<|>&;()"

/-- `strchr(str, c) != 0`: `c` is a character of `str`, or `0`, which
matches the `NUL` ending `str`. -/
def strchr (str : List UInt8) (c : UInt8) : Bool := c == 0 || str.contains c

/-- `while (s < es && strchr(whitespace, *s)) s++;` -/
def skipws (s : List UInt8) : List UInt8 := s.dropWhile (strchr whitespace)

/-- The condition of `gettoken`'s loop over a word:
`!strchr(whitespace, *s) && !strchr(symbols, *s)`. -/
def isWordChar (c : UInt8) : Bool := !strchr whitespace c && !strchr symbols c

/-- What `gettoken` gives back: the token (`0` at the end of the line, the
symbol, `'+'` for `>>`, `'a'` for a word), `*q` and `*eq` (where the token
starts and where it ends), and `*ps`, past the whitespace after it. -/
structure Token where
  ret : UInt8
  q : List UInt8
  eq : List UInt8
  rest : List UInt8

/-- `gettoken`. -/
def gettoken (s : List UInt8) : Token :=
  match skipws s with
  | [] => ⟨0, [], [], []⟩
  | c :: t =>
    if c = '|'.toUInt8 ∨ c = '('.toUInt8 ∨ c = ')'.toUInt8 ∨ c = ';'.toUInt8 ∨ c = '&'.toUInt8 ∨
        c = '<'.toUInt8 then
      ⟨c, c :: t, t, skipws t⟩
    else if c = '>'.toUInt8 then
      if t.headD 0 = '>'.toUInt8 then ⟨'+'.toUInt8, c :: t, t.tail, skipws t.tail⟩
      else ⟨c, c :: t, t, skipws t⟩
    else
      let e := (c :: t).dropWhile isWordChar
      ⟨'a'.toUInt8, c :: t, e, skipws e⟩

/-- `peek`: whether the next character past the whitespace is one of
`toks`, and `*ps` moved past the whitespace. -/
def peek (s toks : List UInt8) : Bool × List UInt8 :=
  let s := skipws s
  (s.headD 0 != 0 && strchr toks (s.headD 0), s)

/-- `struct cmd`. Word and file names are `(start, end)` pointers into the
line, as `argv`/`eargv` and `file`/`efile` hold them. -/
inductive Cmd where
  | exec (argv : List (List UInt8 × List UInt8))
  | redir (cmd : Cmd) (file efile : List UInt8) (mode fd : Nat)
  | pipe (left right : Cmd)
  | list (left right : Cmd)
  | back (cmd : Cmd)
deriving DecidableEq, Repr

/-- `cmd->argv[argc] = q; cmd->eargv[argc] = eq` on the `execcmd` that
`parseexec` allocated, below the redirections wrapped around it. -/
def Cmd.setArgv (argv : List (List UInt8 × List UInt8)) : Cmd → Cmd
  | .exec _ => .exec argv
  | .redir c file efile mode fd => .redir (c.setArgv argv) file efile mode fd
  | c => c

/-- The flags of `kernel/fcntl.h` that the redirections open files with. -/
def O_RDONLY : Nat := 0x000
def O_WRONLY : Nat := 0x001
def O_CREATE : Nat := 0x200
def O_TRUNC : Nat := 0x400

/-- A position at or past `s` in the same line: a suffix of `s`. -/
abbrev Rest (s : List UInt8) := {t : List UInt8 // t <:+ s}

/-- A position past `t`, which is past `s`, is past `s`. -/
def Rest.widen {s t : List UInt8} (h : t <:+ s) (r : Rest t) : Rest s := ⟨r.1, r.2.trans h⟩

/-! ## Scanning -/

theorem length_skipws_le (s : List UInt8) : (skipws s).length ≤ s.length :=
  List.length_dropWhile_le _ s

theorem skipws_suffix (s : List UInt8) : skipws s <:+ s :=
  List.dropWhile_suffix _

theorem peek_suffix (s toks : List UInt8) : (peek s toks).2 <:+ s :=
  skipws_suffix s

theorem skipws_skipws (s : List UInt8) : skipws (skipws s) = skipws s :=
  List.dropWhile_idempotent _ s

/-- Where `skipws` stops is not whitespace. -/
theorem strchr_head_skipws {s t : List UInt8} {c : UInt8} (h : skipws s = c :: t) :
    strchr whitespace c = false := by
  have := List.head?_dropWhile_not (strchr whitespace) s
  rw [show s.dropWhile (strchr whitespace) = c :: t from h] at this
  exact this

theorem ne_zero_of_strchr_whitespace {c : UInt8} (h : strchr whitespace c = false) : c ≠ 0 := by
  rintro rfl
  simp [strchr] at h

theorem strchr_symbols (c : UInt8) :
    strchr symbols c = true ↔ c = 0 ∨ c = '<'.toUInt8 ∨ c = '|'.toUInt8 ∨ c = '>'.toUInt8 ∨
      c = '&'.toUInt8 ∨ c = ';'.toUInt8 ∨ c = '('.toUInt8 ∨ c = ')'.toUInt8 := by
  simp [strchr, symbols, chars]

theorem gettoken_skipws (s : List UInt8) : gettoken (skipws s) = gettoken s := by
  unfold gettoken
  rw [skipws_skipws]

/-- Everything `gettoken` can find past the whitespace: the end of the line,
a one-character symbol, `>>`, `>`, or a word, the longest run of word
characters there. -/
theorem gettoken_eq (s : List UInt8) :
    (skipws s = [] ∧ gettoken s = ⟨0, [], [], []⟩) ∨
    (∃ c t, skipws s = c :: t ∧ c ∈ symbols ∧ c ≠ '>'.toUInt8 ∧
      gettoken s = ⟨c, skipws s, t, skipws t⟩) ∨
    (∃ t, skipws s = '>'.toUInt8 :: '>'.toUInt8 :: t ∧
      gettoken s = ⟨'+'.toUInt8, skipws s, t, skipws t⟩) ∨
    (∃ t, skipws s = '>'.toUInt8 :: t ∧ t.head? ≠ some '>'.toUInt8 ∧
      gettoken s = ⟨'>'.toUInt8, skipws s, t, skipws t⟩) ∨
    (∃ w e, skipws s = w ++ e ∧ w ≠ [] ∧ (∀ c ∈ w, isWordChar c = true) ∧
      (∀ c ∈ e.head?, isWordChar c = false) ∧ gettoken s = ⟨'a'.toUInt8, skipws s, e, skipws e⟩) := by
  unfold gettoken
  split
  · rename_i h
    exact .inl ⟨h, rfl⟩
  rename_i c t h
  have hc := strchr_head_skipws h
  have hc0 := ne_zero_of_strchr_whitespace hc
  split
  · -- `| ( ) ; & <`
    rename_i hsym
    refine .inr (.inl ⟨c, t, h, ?_, ?_, by rw [h]⟩)
    · rcases hsym with rfl | rfl | rfl | rfl | rfl | rfl <;> decide
    · rcases hsym with rfl | rfl | rfl | rfl | rfl | rfl <;> decide
  rename_i hsym
  split
  · -- `>`, and `>>` if another `>` follows
    rename_i hgt
    subst hgt
    split
    · rename_i hgt2
      obtain ⟨d, t, rfl⟩ : ∃ d t', t = d :: t' := by
        cases t with
        | nil => exact absurd hgt2 (by decide)
        | cons d t' => exact ⟨d, t', rfl⟩
      simp only [List.headD_cons] at hgt2
      subst hgt2
      exact .inr (.inr (.inl ⟨t, h, by rw [h]; rfl⟩))
    · rename_i hgt2
      refine .inr (.inr (.inr (.inl ⟨t, h, ?_, by rw [h]⟩)))
      cases t with
      | nil => simp
      | cons d t' => simpa using hgt2
  · -- a word: `c` is neither whitespace nor a symbol
    rename_i hgt
    have hword : isWordChar c = true := by
      have : strchr symbols c = false := by
        cases hsc : strchr symbols c
        · rfl
        · rw [strchr_symbols] at hsc
          grind
      simp [isWordChar, hc, this]
    refine .inr (.inr (.inr (.inr ⟨(c :: t).takeWhile isWordChar, (c :: t).dropWhile isWordChar,
      by rw [h, List.takeWhile_append_dropWhile], ?_, fun x hx => ?_, ?_, by rw [h]⟩)))
    · simp [List.takeWhile_cons_of_pos hword]
    · exact List.mem_takeWhile_imp hx
    · have := List.head?_dropWhile_not isWordChar (c :: t)
      intro x hx
      rw [hx] at this
      exact this

/-- What is left past a nonempty part of the line is shorter than the line. -/
theorem length_lt_of_skipws {s pre t : List UInt8} (h : skipws s = pre ++ t) (hpre : pre ≠ []) :
    t.length < s.length := by
  have h1 := length_skipws_le s
  have h2 : 0 < pre.length := List.length_pos_iff.mpr hpre
  rw [h, List.length_append] at h1
  omega

theorem length_skipws_lt {s pre t : List UInt8} (h : skipws s = pre ++ t) (hpre : pre ≠ []) :
    (skipws t).length < s.length :=
  lt_of_le_of_lt (length_skipws_le t) (length_lt_of_skipws h hpre)

theorem suffix_of_skipws {s pre t : List UInt8} (h : skipws s = pre ++ t) : t <:+ s :=
  (List.suffix_append pre t).trans (h ▸ skipws_suffix s)

/-- At the end of the line `gettoken` gives `0` and stays there; anywhere
else it takes at least one character. -/
theorem gettoken_cases (s : List UInt8) :
    (skipws s = [] ∧ gettoken s = ⟨0, [], [], []⟩) ∨
      (skipws s ≠ [] ∧ (gettoken s).ret ≠ 0 ∧ (gettoken s).rest.length < s.length) := by
  rcases gettoken_eq s with h | ⟨c, t, h, -, -, hg⟩ | ⟨t, h, hg⟩ | ⟨t, h, -, hg⟩ |
      ⟨w, e, h, hw, -, -, hg⟩
  · exact .inl h
  · refine .inr ⟨by simp [h], ?_, ?_⟩ <;> rw [hg]
    · exact ne_zero_of_strchr_whitespace (strchr_head_skipws h)
    · exact length_skipws_lt (show skipws s = [c] ++ t from h) (by simp)
  · refine .inr ⟨by simp [h], ?_, ?_⟩ <;> rw [hg]
    · dsimp only
      decide
    · exact length_skipws_lt (show skipws s = [_, _] ++ t from h) (by simp)
  · refine .inr ⟨by simp [h], ?_, ?_⟩ <;> rw [hg]
    · dsimp only
      decide
    · exact length_skipws_lt (show skipws s = [_] ++ t from h) (by simp)
  · refine .inr ⟨by simp [h, hw], ?_, ?_⟩ <;> rw [hg]
    · dsimp only
      decide
    · exact length_skipws_lt h hw

/-- Where `gettoken` leaves `*ps`, and `*q` and `*eq`, are in the line past `s`. -/
theorem gettoken_suffix (s : List UInt8) :
    (gettoken s).q <:+ s ∧ (gettoken s).eq <:+ s ∧ (gettoken s).rest <:+ s := by
  have hs := skipws_suffix s
  rcases gettoken_eq s with ⟨-, hg⟩ | ⟨c, t, h, -, -, hg⟩ | ⟨t, h, hg⟩ | ⟨t, h, -, hg⟩ |
      ⟨w, e, h, -, -, -, hg⟩ <;> rw [hg]
  · exact ⟨List.nil_suffix, List.nil_suffix, List.nil_suffix⟩
  · have ht := suffix_of_skipws (show skipws s = [c] ++ t from h)
    exact ⟨hs, ht, (skipws_suffix t).trans ht⟩
  · have ht := suffix_of_skipws (show skipws s = [_, _] ++ t from h)
    exact ⟨hs, ht, (skipws_suffix t).trans ht⟩
  · have ht := suffix_of_skipws (show skipws s = [_] ++ t from h)
    exact ⟨hs, ht, (skipws_suffix t).trans ht⟩
  · have he := suffix_of_skipws h
    exact ⟨hs, he, (skipws_suffix e).trans he⟩

theorem gettoken_rest_suffix (s : List UInt8) : (gettoken s).rest <:+ s :=
  (gettoken_suffix s).2.2

theorem length_gettoken_le (s : List UInt8) : (gettoken s).rest.length ≤ s.length :=
  (gettoken_rest_suffix s).length_le

/-- A token that is not the end takes at least one character. -/
theorem length_gettoken_lt {s : List UInt8} (h : (gettoken s).ret ≠ 0) :
    (gettoken s).rest.length < s.length := by
  rcases gettoken_cases s with ⟨-, h'⟩ | ⟨-, -, h'⟩
  · rw [h'] at h
    exact absurd rfl h
  · exact h'

/-- After a `peek` that saw one of `toks`, `gettoken` takes at least one
character. -/
theorem length_gettoken_peek_lt {s toks : List UInt8} (h : (peek s toks).1 = true) :
    (gettoken (peek s toks).2).rest.length < s.length := by
  rw [show (peek s toks).2 = skipws s from rfl, gettoken_skipws]
  rcases gettoken_cases s with ⟨hs, -⟩ | ⟨-, -, h'⟩
  · simp [peek, hs] at h
  · exact h'

/-! ## The parser -/

/-- The `switch (tok)` of `parseredirs`: the `redircmd` around `cmd` for the
redirection token `tok` and the file from `q` to `eq`. -/
def redirSwitch (tok : UInt8) (cmd : Cmd) (q eq : List UInt8) : Cmd :=
  if tok = '<'.toUInt8 then Cmd.redir cmd q eq O_RDONLY 0
  else if tok = '>'.toUInt8 then Cmd.redir cmd q eq (O_WRONLY ||| O_CREATE ||| O_TRUNC) 1
  -- `>>`
  else if tok = '+'.toUInt8 then Cmd.redir cmd q eq (O_WRONLY ||| O_CREATE) 1
  else cmd

/-- `parseredirs`: a `redircmd` around `cmd` for each redirection at `s`,
the first innermost. -/
def parseredirs (cmd : Cmd) (s : List UInt8) : Except String (Cmd × Rest s) :=
  let p := peek s (chars "<>")
  if h : p.1 then
    let tok := gettoken p.2
    let file := gettoken tok.rest
    if file.ret != 'a'.toUInt8 then .error "missing file for redirection"
    else
      (parseredirs (redirSwitch tok.ret cmd file.q file.eq) file.rest).map fun r =>
        (r.1, r.2.widen ((gettoken_rest_suffix _).trans
          ((gettoken_rest_suffix _).trans (peek_suffix s _))))
  else .ok (cmd, ⟨p.2, peek_suffix s _⟩)
termination_by s.length
decreasing_by
  exact lt_of_le_of_lt (length_gettoken_le _) (length_gettoken_peek_lt h)

/-- The loop `while (peek(ps, es, "&"))` of `parseline`: a `backcmd` around
`cmd` for each `&`. -/
def parselineBacks (cmd : Cmd) (s : List UInt8) : Cmd × Rest s :=
  let p := peek s (chars "&")
  if h : p.1 then
    let r := parselineBacks (.back cmd) (gettoken p.2).rest
    (r.1, r.2.widen ((gettoken_rest_suffix _).trans (peek_suffix s _)))
  else (cmd, ⟨p.2, peek_suffix s _⟩)
termination_by s.length
decreasing_by exact length_gettoken_peek_lt h

/-- The loop `while (!peek(ps, es, "|)&;"))` of `parseexec`: `argv` holds the
words so far and `ret` the command built around the `execcmd`. -/
def parseexecLoop (ret : Cmd) (argv : List (List UInt8 × List UInt8)) (s : List UInt8) :
    Except String (Cmd × Rest s) :=
  let p := peek s (chars "|)&;")
  if p.1 then .ok (ret, ⟨p.2, peek_suffix s _⟩)
  else
    let t := gettoken p.2
    have ht : t.rest <:+ s := (gettoken_rest_suffix _).trans (peek_suffix s _)
    if h : t.ret = 0 then .ok (ret, ⟨t.rest, ht⟩)
    else if t.ret != 'a'.toUInt8 then .error "syntax"
    else
      let argv := argv ++ [(t.q, t.eq)]
      let ret := ret.setArgv argv
      if argv.length ≥ MAXARGS then .error "too many args"
      else do
        let r ← parseredirs ret t.rest
        let r' ← parseexecLoop r.1 argv r.2.1
        pure (r'.1, r'.2.widen (r.2.2.trans ht))
termination_by s.length
decreasing_by
  have h1 : t.rest.length < p.2.length := length_gettoken_lt h
  have h2 : p.2.length ≤ s.length := length_skipws_le s
  have h3 := r.2.2.length_le
  omega

mutual

/-- `parseline`. -/
def parseline (s : List UInt8) : Except String (Cmd × Rest s) := do
  let r ← parsepipe s
  let b := parselineBacks r.1 r.2.1
  have hb : b.2.1 <:+ s := b.2.2.trans r.2.2
  let p := peek b.2.1 (chars ";")
  if h : p.1 then
    let r' ← parseline (gettoken p.2).rest
    pure (.list b.1 r'.1, r'.2.widen ((gettoken_rest_suffix _).trans ((peek_suffix _ _).trans hb)))
  else pure (b.1, ⟨p.2, (peek_suffix _ _).trans hb⟩)
termination_by 4 * s.length + 3
decreasing_by
  · omega
  · have h1 := length_gettoken_peek_lt h
    have h2 := hb.length_le
    simp only [b] at h1 h2
    omega

/-- `parsepipe`. -/
def parsepipe (s : List UInt8) : Except String (Cmd × Rest s) := do
  let r ← parseexec s
  let p := peek r.2.1 (chars "|")
  if h : p.1 then
    let r' ← parsepipe (gettoken p.2).rest
    pure (.pipe r.1 r'.1, r'.2.widen ((gettoken_rest_suffix _).trans ((peek_suffix _ _).trans r.2.2)))
  else pure (r.1, ⟨p.2, (peek_suffix _ _).trans r.2.2⟩)
termination_by 4 * s.length + 2
decreasing_by
  · omega
  · have := length_gettoken_peek_lt h
    have := r.2.2.length_le
    omega

/-- `parseexec`: a block, or an `execcmd` with its redirections. -/
def parseexec (s : List UInt8) : Except String (Cmd × Rest s) := do
  let p := peek s (chars "(")
  if p.1 then
    let r ← parseblock p.2
    return (r.1, r.2.widen (peek_suffix s _))
  let r ← parseredirs (.exec []) p.2
  let r' ← parseexecLoop r.1 [] r.2.1
  pure (r'.1, r'.2.widen (r.2.2.trans (peek_suffix s _)))
termination_by 4 * s.length + 1
decreasing_by
  have := length_skipws_le s
  simp only [peek]
  omega

/-- `parseblock`: `( line )` and the redirections after it. -/
def parseblock (s : List UInt8) : Except String (Cmd × Rest s) :=
  let p := peek s (chars "(")
  if h : p.1 then do
    let r ← parseline (gettoken p.2).rest
    have hr : r.2.1 <:+ s := r.2.2.trans ((gettoken_rest_suffix _).trans (peek_suffix s _))
    let p' := peek r.2.1 (chars ")")
    if p'.1 then
      let r' ← parseredirs r.1 (gettoken p'.2).rest
      pure (r'.1, r'.2.widen ((gettoken_rest_suffix _).trans ((peek_suffix _ _).trans hr)))
    else throw "syntax - missing )"
  else throw "parseblock"
termination_by 4 * s.length
decreasing_by
  have := length_gettoken_peek_lt h
  omega

end

/-- `nulterminate`: a `NUL` after every word the tree points to, in `buf`, the
line of length `n` and its `NUL`. A pointer `p` into the line is the byte at
`n - p.length`. -/
def nulterminate (n : Nat) : Cmd → List UInt8 → List UInt8
  | .exec argv, buf => argv.foldl (fun buf a => buf.set (n - a.2.length) 0) buf
  | .redir cmd _ efile _ _, buf => (nulterminate n cmd buf).set (n - efile.length) 0
  | .pipe left right, buf => nulterminate n right (nulterminate n left buf)
  | .list left right, buf => nulterminate n right (nulterminate n left buf)
  | .back cmd, buf => nulterminate n cmd buf

/-- `parsecmd` on the line `s`: the tree, and the line and its `NUL` after
`nulterminate`. Leftovers are reported and end in `panic("syntax")`. -/
def parsecmd (s : List UInt8) : Except String (Cmd × List UInt8) := do
  let r ← parseline s
  let p := peek r.2.1 []
  if p.2 != [] then throw "syntax"
  pure (r.1, nulterminate s.length r.1 (s ++ [0]))

end Sh

end Xv6
