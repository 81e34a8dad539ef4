import Xv6.Sh.Accept
import Xv6.Library.CString

/-!
# What `parsecmd` returns

`parsecmd` returns a tree, without a `panic`, exactly when the grammar
derives that tree from the tokens of the line (`ParsesAsGrammar.accepts`).
Then `nulterminate` has written a `NUL` at the end of every word the tree
points to. Every such end is a character that is not a word character, or
the line's own `NUL`, so the `NUL`s cut no word short: every word of the
tree reads back as its text (`ParsesAsGrammar.words`), and `nulterminate`
changes no character of any word (`ParsesAsGrammar.nuls`). It may overwrite
a symbol right after a word: in `a|b` the `NUL` ending `a` is written over the
`|` (`nul_overwrites_pipe_token`).
-/

namespace Xv6

namespace Sh

open StateExcept CString

/-! ## The words of a tree -/

/-- The word pointers of a tree: the words of every `execcmd` and the file of
every `redircmd`, in the order `nulterminate` visits them. -/
def Cmd.words : Cmd → List (List UInt8 × List UInt8)
  | .exec argv => argv
  | .redir cmd file efile _ _ => cmd.words ++ [(file, efile)]
  | .pipe left right => left.words ++ right.words
  | .list left right => left.words ++ right.words
  | .back cmd => cmd.words

/-- The text of the word that starts at `q` and ends at `eq`. -/
def wordText (q eq : List UInt8) : List UInt8 := q.take (q.length - eq.length)

theorem Cmd.words_wrap (c : Cmd) (rs : List Redir) :
    (c.wrap rs).words = c.words ++ rs.map (fun r => (r.file, r.efile)) := by
  induction rs generalizing c with
  | nil => simp
  | cons r rs ih => simp [ih, Cmd.words]

theorem Cmd.words_back_iterate (k : Nat) (c : Cmd) : (Cmd.back^[k] c).words = c.words := by
  induction k generalizing c with
  | zero => rfl
  | succ k ih => exact ih c.back

/-- `nulterminate` writes a `NUL` at the end of each word of the tree. -/
theorem nulterminate_eq (n : Nat) (c : Cmd) (buf : List UInt8) :
    nulterminate n c buf = setAll 0 (c.words.map fun p => n - p.2.length) buf := by
  induction c generalizing buf with
  | exec argv =>
    simp only [nulterminate, Cmd.words, setAll, List.foldl_map]
  | redir cmd file efile mode fd ih =>
    simp only [nulterminate, Cmd.words, List.map_append, setAll_append, ih]
    rfl
  | pipe left right ihl ihr =>
    simp only [nulterminate, Cmd.words, List.map_append, setAll_append, ihl, ihr]
  | list left right ihl ihr =>
    simp only [nulterminate, Cmd.words, List.map_append, setAll_append, ihl, ihr]
  | back cmd ih => exact ih buf

/-! ## The words of a derivation are tokens -/

/-- The tokens a derivation leaves are a suffix of those it starts at, and
every word its tree points to is one of the tokens. -/
def WordsIn (ts : List Tok) (ws : List (List UInt8 × List UInt8)) (ts' : List Tok) : Prop :=
  ts' <:+ ts ∧ ∀ p ∈ ws, Tok.word p.1 p.2 ∈ ts

theorem WordsIn.append {ts ts₁ ts' : List Tok} {ws ws' : List (List UInt8 × List UInt8)}
    (h : WordsIn ts ws ts₁) (h' : WordsIn ts₁ ws' ts') : WordsIn ts (ws ++ ws') ts' := by
  refine ⟨h'.1.trans h.1, fun p hp => ?_⟩
  rcases List.mem_append.mp hp with hp | hp
  · exact h.2 p hp
  · exact h.1.subset (h'.2 p hp)

theorem WordsIn.cons {ts ts' : List Tok} {ws : List (List UInt8 × List UInt8)} (t : Tok)
    (h : WordsIn ts ws ts') : WordsIn (t :: ts) ws ts' :=
  ⟨h.1.trans (List.suffix_cons t ts), fun p hp => List.mem_cons_of_mem t (h.2 p hp)⟩

theorem WordsIn.nil (ts : List Tok) : WordsIn ts [] ts :=
  ⟨List.suffix_refl ts, fun _ hp => absurd hp List.not_mem_nil⟩

theorem Redirs.wordsIn {ts ts' : List Tok} {rs : List Redir} (h : Redirs ts rs ts') :
    WordsIn ts (rs.map fun r => (r.file, r.efile)) ts' := by
  induction h with
  | nil ts => exact WordsIn.nil ts
  | @cons op q eq mode fd ts ts' rs _ _ ih =>
    have hw : WordsIn (op :: .word q eq :: ts) [(q, eq)] (op :: .word q eq :: ts) :=
      ⟨List.suffix_refl _, fun p hp => by simp at hp; simp [hp]⟩
    exact hw.append ((ih.cons (.word q eq)).cons op)

theorem Words.wordsIn {ts ts' : List Tok} {ws : List (List UInt8 × List UInt8)} {rs : List Redir}
    (h : Words ts ws rs ts') : WordsIn ts (ws ++ rs.map fun r => (r.file, r.efile)) ts' := by
  induction h with
  | nil ts => exact WordsIn.nil ts
  | @cons q eq ts ts₁ ts' ws rs rs' hrs _ ih =>
    have h := (hrs.wordsIn.append ih).cons (.word q eq)
    refine ⟨h.1, fun p hp => ?_⟩
    simp only [List.map_append, List.cons_append, List.mem_cons, List.mem_append] at hp
    rcases hp with rfl | hp | hp | hp
    · exact List.mem_cons_self
    all_goals exact h.2 p (by simp [hp])

mutual

theorem Line.wordsIn {ts ts' : List Tok} {c : Cmd} : Line ts c ts' → WordsIn ts c.words ts'
  | @Line.pipe _ ts' c₀ k hp => by
    have h := hp.wordsIn
    rw [Cmd.words_back_iterate]
    exact ⟨(List.suffix_append _ ts').trans h.1, h.2⟩
  | @Line.list _ ts₁ _ c₀ d k hp hl => by
    have h := hp.wordsIn
    have h₁ : WordsIn ts (c₀.words) ts₁ :=
      ⟨((List.suffix_cons _ ts₁).trans (List.suffix_append _ _)).trans h.1, h.2⟩
    simpa [Cmd.words, Cmd.words_back_iterate] using h₁.append hl.wordsIn

theorem Pipe.wordsIn {ts ts' : List Tok} {c : Cmd} : Pipe ts c ts' → WordsIn ts c.words ts'
  | .exec he => he.wordsIn
  | @Pipe.pipe _ ts₁ _ c₀ d he hp => by
    have h := he.wordsIn
    exact ⟨hp.wordsIn.1.trans ((List.suffix_cons _ ts₁).trans h.1), fun p hq => by
      rcases List.mem_append.mp hq with hq | hq
      · exact h.2 p hq
      · exact ((List.suffix_cons _ ts₁).trans h.1).subset (hp.wordsIn.2 p hq)⟩

theorem Exec.wordsIn {ts ts' : List Tok} {c : Cmd} : Exec ts c ts' → WordsIn ts c.words ts'
  | @Exec.block ts₀ ts₁ _ c₀ rs hl hrs => by
    have h := hl.wordsIn
    have h₁ : WordsIn ts₀ c₀.words ts₁ := ⟨(List.suffix_cons _ ts₁).trans h.1, h.2⟩
    rw [Cmd.words_wrap]
    exact (h₁.append hrs.wordsIn).cons _
  | @Exec.simple _ ts₁ _ ws rs rs' hrs hws _ => by
    rw [Cmd.words_wrap, List.map_append, ← List.append_assoc]
    have h := hrs.wordsIn.append hws.wordsIn
    refine ⟨h.1, fun p hp => h.2 p ?_⟩
    simp only [Cmd.words, List.mem_append] at hp ⊢
    tauto

end

/-! ## The words of a line -/

/-- A word token starts in the line, and is a run of word characters up to
a character that is not one, or the end. -/
theorem Lexes.word_of_mem {s : List UInt8} {ts : List Tok} (h : Lexes s ts) :
    ∀ {q eq : List UInt8}, Tok.word q eq ∈ ts →
      q <:+ s ∧ ∃ w, q = w ++ eq ∧ (∀ c ∈ w, IsWordChar c) ∧ ∀ c ∈ eq.head?, ¬ IsWordChar c := by
  induction h with
  | nil => intro q eq hm; cases hm
  | space _ _ ih =>
    intro q eq hm
    obtain ⟨hq, hw⟩ := ih hm
    exact ⟨hq.trans (List.suffix_cons _ _), hw⟩
  | sym _ _ _ ih =>
    intro q eq hm
    rcases List.mem_cons.mp hm with hm | hm
    · cases hm
    · obtain ⟨hq, hw⟩ := ih hm
      exact ⟨hq.trans (List.suffix_cons _ _), hw⟩
  | gt _ _ ih =>
    intro q eq hm
    rcases List.mem_cons.mp hm with hm | hm
    · cases hm
    · obtain ⟨hq, hw⟩ := ih hm
      exact ⟨hq.trans (List.suffix_cons _ _), hw⟩
  | app _ ih =>
    intro q eq hm
    rcases List.mem_cons.mp hm with hm | hm
    · cases hm
    · obtain ⟨hq, hw⟩ := ih hm
      exact ⟨hq.trans ((List.suffix_cons _ _).trans (List.suffix_cons _ _)), hw⟩
  | @word w s ts _ hwc hs _ ih =>
    intro q eq hm
    rcases List.mem_cons.mp hm with hm | hm
    · cases hm
      exact ⟨List.suffix_refl _, w, rfl, hwc, hs⟩
    · obtain ⟨hq, hw⟩ := ih hm
      exact ⟨hq.trans (List.suffix_append w s), hw⟩

/-- The byte at index `j` of a suffix `t` is the line's byte `j` past where
`t` starts. -/
theorem getElem?_of_suffix {s t : List UInt8} (h : t <:+ s) (j : Nat) :
    s[s.length - t.length + j]? = t[j]? := by
  obtain ⟨u, rfl⟩ := h
  rw [List.length_append, Nat.add_sub_cancel, List.getElem?_append_right (by omega),
    Nat.add_sub_cancel_left]

/-- Where a word ends is the end of the line or a character that is no word
character. -/
theorem end_of_word {s q eq : List UInt8} {w : List UInt8} (hq : q <:+ s) (hqw : q = w ++ eq)
    (heq : ∀ c ∈ eq.head?, ¬ IsWordChar c) :
    s.length - eq.length = s.length ∨
      ∃ x, s[s.length - eq.length]? = some x ∧ ¬ IsWordChar x := by
  cases eq with
  | nil => exact .inl (by simp)
  | cons x e =>
    have he : x :: e <:+ s := (List.suffix_append w _).trans (hqw ▸ hq)
    refine .inr ⟨x, ?_, heq x rfl⟩
    simpa using getElem?_of_suffix he 0

/-! ## `parsecmd` and the grammar -/

/-- A line `parsecmd` returns from is derived whole by the grammar, and the
buffer is the line with the `NUL`s of `nulterminate`. -/
theorem parsecmd_sound {s : List UInt8} {c : Cmd} {buf : List UInt8}
    (h : parsecmd s = .ok (c, buf)) :
    Line (lex s) c [] ∧ buf = nulterminate s.length c (s ++ [0]) := by
  rw [parsecmd] at h
  obtain ⟨r, hr, h⟩ := bind_eq_ok h
  dsimp only at h
  split at h
  · obtain ⟨_, h', -⟩ := bind_eq_ok h
    cases h'
  · rename_i hend
    cases h
    have hnil : lex r.2.1 = [] := by
      rw [lex_eq_nil_iff]
      simpa [peek] using hend
    exact ⟨hnil ▸ parseline_sound hr, rfl⟩

/-- What the grammar derives whole, `parsecmd` returns. -/
theorem parsecmd_complete {s : List UInt8} {c : Cmd} (h : Line (lex s) c []) :
    parsecmd s = .ok (c, nulterminate s.length c (s ++ [0])) := by
  obtain ⟨r, hr, hl⟩ := line_complete h (fun _ ht => absurd ht (by simp)) s rfl
  have hend : (peek r.1 []).2 = [] := (lex_eq_nil_iff r.1).mp hl
  rw [parsecmd, hr, ok_bind]
  dsimp only
  rw [hend]
  rfl

/-- What `parsecmd` does with a line, as the shell's grammar says. -/
structure ParsesAsGrammar (s : List UInt8) : Prop where
  /-- `parsecmd` returns the tree `c`, without a `panic`, exactly when the
  grammar derives `c` from the tokens of the line. -/
  accepts : ∀ c, (∃ buf, parsecmd s = .ok (c, buf)) ↔ ∃ ts, Lexes s ts ∧ Line ts c []
  /-- After `nulterminate` every word of the tree, an `argv` of an `execcmd`
  or the file of a `redircmd`, is the `NUL`-terminated text of its token. -/
  words : ∀ c buf, parsecmd s = .ok (c, buf) →
    ∀ p ∈ c.words, cstr buf (s.length - p.1.length) = wordText p.1 p.2
  /-- `nulterminate` writes only `NUL`s, each over a character that is no
  word character or over the line's `NUL`: it changes no word. -/
  nuls : ∀ c buf, parsecmd s = .ok (c, buf) →
    ∀ i : Nat, buf[i]? ≠ (s ++ [0])[i]? → buf[i]? = some 0 ∧ ∀ x ∈ s[i]?, ¬ IsWordChar x

/-- The `NUL`s `nulterminate` writes for the words of `c`, all word tokens of
the line, land on no word character. -/
theorem nulterminate_spec {s : List UInt8} {c : Cmd} (h0 : 0 ∉ s)
    (hc : ∀ p ∈ c.words, Tok.word p.1 p.2 ∈ lex s) :
    (∀ p ∈ c.words, cstr (nulterminate s.length c (s ++ [0])) (s.length - p.1.length) =
      wordText p.1 p.2) ∧
    ∀ i : Nat, (nulterminate s.length c (s ++ [0]))[i]? ≠ (s ++ [0])[i]? →
      (nulterminate s.length c (s ++ [0]))[i]? = some 0 ∧ ∀ x ∈ s[i]?, ¬ IsWordChar x := by
  have hlex := lexes_lex h0
  -- every index written is the end of a word
  have hend : ∀ i ∈ c.words.map (fun p => s.length - p.2.length),
      i = s.length ∨ ∃ x, s[i]? = some x ∧ ¬ IsWordChar x := by
    intro i hi
    obtain ⟨p, hp, rfl⟩ := List.mem_map.mp hi
    obtain ⟨hq, w, hqw, -, heq⟩ := hlex.word_of_mem (hc p hp)
    exact end_of_word hq hqw heq
  rw [nulterminate_eq]
  constructor
  · intro p hp
    obtain ⟨hq, w, hqw, hwc, heq⟩ := hlex.word_of_mem (hc p hp)
    have hlen : p.1.length = w.length + p.2.length := by rw [hqw, List.length_append]
    have hle := hq.length_le
    have htext : wordText p.1 p.2 = w := by
      simp [wordText, hqw]
    rw [htext]
    refine cstr_eq (fun h => (hwc 0 h).1 rfl) (fun j hj => ?_) ?_
    · -- a byte of the word: written by no `NUL`
      have hbyte : s[s.length - p.1.length + j]? = some w[j] := by
        rw [getElem?_of_suffix hq, hqw, List.getElem?_append_left hj, List.getElem?_eq_getElem hj]
      have hnot : s.length - p.1.length + j ∉ c.words.map (fun p => s.length - p.2.length) := by
        intro hin
        rcases hend _ hin with he | ⟨x, hx, hxw⟩
        · omega
        · rw [hbyte] at hx
          cases hx
          exact hxw (hwc _ (List.getElem_mem hj))
      rw [getElem?_setAll, if_neg hnot, List.getElem?_append_left (by omega), hbyte]
    · -- the byte after it: the `NUL` written for this word
      have hin : s.length - p.1.length + w.length ∈ c.words.map (fun p => s.length - p.2.length) :=
        List.mem_map.mpr ⟨p, hp, by omega⟩
      rw [getElem?_setAll, if_pos hin, List.getElem?_eq_getElem (by simp; omega)]
      rfl
  · intro i hi
    rw [getElem?_setAll] at hi ⊢
    split at hi
    · rename_i hin
      refine ⟨?_, ?_⟩
      · split
        · cases hb : (s ++ [0])[i]? with
          | none => rw [hb] at hi; exact absurd rfl hi
          | some b => rfl
        · contradiction
      · intro x hx
        rcases hend i hin with rfl | ⟨y, hy, hyw⟩
        · simp at hx
        · rw [hy] at hx
          cases hx
          exact hyw
    · exact absurd rfl hi

/-- **`parsecmd` follows the shell's grammar.** On every line with no `NUL`
in it, `parsecmd` returns exactly the trees the grammar derives, and after
`nulterminate` every word of the tree reads as its text, with no word
character overwritten. -/
theorem parsecmd_follows_grammar (s : List UInt8) (h0 : 0 ∉ s) : ParsesAsGrammar s where
  accepts c := by
    constructor
    · rintro ⟨buf, h⟩
      exact ⟨lex s, lexes_lex h0, (parsecmd_sound h).1⟩
    · rintro ⟨ts, hts, hl⟩
      rw [hts.eq_lex] at hl
      exact ⟨_, parsecmd_complete hl⟩
  words c buf h := by
    obtain ⟨hl, rfl⟩ := parsecmd_sound h
    exact (nulterminate_spec h0 hl.wordsIn.2).1
  nuls c buf h := by
    obtain ⟨hl, rfl⟩ := parsecmd_sound h
    exact (nulterminate_spec h0 hl.wordsIn.2).2

theorem parsecmd_follows_grammar_echo :
    0 ∉ chars "echo hi > f" ∧ ParsesAsGrammar (chars "echo hi > f") :=
  ⟨by decide, parsecmd_follows_grammar _ (by decide)⟩

set_option maxRecDepth 4000 in
/-- **A `NUL` overwrites a symbol.** The line `a|b` has the tokens `a`, `|`
and `b`; the word `a` ends where the token `|` starts, at index 1, and
`nulterminate` writes the `NUL` ending `a` there. -/
theorem nul_overwrites_pipe_token :
    lex (chars "a|b") = [.word (chars "a|b") (chars "|b"), .sym '|'.toUInt8, .word (chars "b") []] ∧
    gettoken (chars "|b") = ⟨'|'.toUInt8, chars "|b", chars "b", chars "b"⟩ ∧
    parsecmd (chars "a|b") =
      .ok (.pipe (.exec [(chars "a|b", chars "|b")]) (.exec [(chars "b", [])]), [97, 0, 98, 0]) := by
  have hchars : chars "a|b" = [97, 124, 98] ∧ chars "|b" = [124, 98] ∧ chars "b" = [98] :=
    ⟨by decide, by decide, by decide⟩
  have hlex : lex [97, 124, 98] = [.word [97, 124, 98] [124, 98], .sym 124, .word [98] []] :=
    (Lexes.word (w := [97]) (s := [124, 98]) (by decide) (by decide)
      (by decide)
      (Lexes.sym (by decide) (by decide)
        (Lexes.word (w := [98]) (s := []) (by decide) (by decide)
          (by decide) Lexes.nil))).eq_lex.symm
  have hline : Line (lex [97, 124, 98])
      (.pipe (.exec [([97, 124, 98], [124, 98])]) (.exec [([98], [])])) [] := by
    rw [hlex]
    exact Line.pipe (k := 0)
      (Pipe.pipe (Exec.simple (Redirs.nil _) (Words.cons (Redirs.nil _) (Words.nil _)) (by decide))
        (Pipe.exec (Exec.simple (Redirs.nil _) (Words.cons (Redirs.nil _) (Words.nil _)) (by decide))))
  rw [hchars.1, hchars.2.1, hchars.2.2]
  refine ⟨hlex, rfl, ?_⟩
  rw [parsecmd_complete hline]
  decide

end Sh

end Xv6
