import Xv6.Sh.Grammar
import Xv6.Library.StateExcept

/-!
# `parsecmd` accepts its grammar

The parser against the grammar, in both directions. Soundness: what a
parsing function returns is derived by its nonterminal from the tokens at
its start, leaving the tokens where it stopped. Completeness: what a
nonterminal derives, the parser returns, provided that the tokens after it
are ones the grammar allows to follow it (`Follows`), which is how a parser
with one token of lookahead knows where to stop.

Each parsing function looks at the line only through `peek` and `gettoken`,
so each proof is about the tokens `lex` reads (`peek_eq`, `lex_of_peek`).
The loops are proved by their functional induction, the four mutually
recursive functions by well-founded recursion on the same measure as their
definitions (soundness) and by recursion on the derivation (completeness).
-/

namespace Xv6

namespace Sh

open StateExcept

/-! ## One token -/

theorem gettoken_peek (s toks : List UInt8) : gettoken (peek s toks).2 = gettoken s :=
  gettoken_skipws s

/-- After a `peek` that saw one of `toks`, the next token is one of `toks`. -/
theorem lex_of_peek {s toks : List UInt8} (htoks : ∀ c ∈ toks, c ∈ symbols)
    (h : (peek s toks).1 = true) :
    lex s = (gettoken s).tok :: lex (gettoken s).rest ∧ (gettoken s).tok.isIn toks = true := by
  rw [peek_eq htoks] at h
  have hne : skipws s ≠ [] := by
    intro hs
    rw [(lex_eq_nil_iff s).mpr hs] at h
    cases h
  rw [lex_of_ne_nil hne] at h ⊢
  exact ⟨rfl, by simpa using h⟩

/-- `peek` sees the first token. -/
theorem peek_of_isIn {s toks : List UInt8} (htoks : ∀ c ∈ toks, c ∈ symbols) {t : Tok}
    {ts : List Tok} (h : lex s = t :: ts) (ht : t.isIn toks = true) : (peek s toks).1 = true := by
  rw [peek_eq htoks, h]
  exact ht

theorem peek_of_not_isIn {s toks : List UInt8} (htoks : ∀ c ∈ toks, c ∈ symbols)
    (h : ∀ t ∈ (lex s).head?, t.isIn toks = false) : (peek s toks).1 = false := by
  rw [peek_eq htoks]
  cases hl : (lex s).head? with
  | none => rfl
  | some t => exact h t hl

/-- The word `gettoken` read. -/
theorem lex_of_ret_a {s : List UInt8} (h : (gettoken s).ret = 'a'.toUInt8) :
    lex s = .word (gettoken s).q (gettoken s).eq :: lex (gettoken s).rest := by
  have hne : skipws s ≠ [] := by
    intro hs
    rw [← ret_eq_zero_iff, h] at hs
    exact absurd hs (by decide)
  rw [lex_of_ne_nil hne, Token.tok, if_pos h]

/-- A token among the one-character symbols `toks` other than `>` is the
symbol itself. -/
theorem Tok.eq_sym_of_isIn {t : Tok} {c : UInt8} (h : t.isIn [c] = true) (hc : c ≠ '>'.toUInt8) :
    t = .sym c := by
  cases t with
  | sym d => simpa [Tok.isIn] using h
  | app =>
    simp only [Tok.isIn, List.contains_cons, List.contains_nil, Bool.or_false, beq_iff_eq] at h
    exact absurd h.symm hc
  | word => simp [Tok.isIn] at h

/-- The `redircmd` that `parseredirs` builds for a redirection token is the
one the grammar's `redirMode` gives it. -/
theorem redirSwitch_eq {tok : Token} (h : tok.tok.isIn (chars "<>") = true) (cmd : Cmd)
    (q eq : List UInt8) :
    ∃ mode fd, tok.tok.redirMode = some (mode, fd) ∧
      redirSwitch tok.ret cmd q eq = .redir cmd q eq mode fd := by
  unfold Token.tok at h ⊢
  by_cases ha : tok.ret = 'a'.toUInt8
  · simp [ha, Tok.isIn] at h
  by_cases hp : tok.ret = '+'.toUInt8
  · -- `>>`
    refine ⟨O_WRONLY ||| O_CREATE, 1, by simp +decide [hp, Tok.redirMode], ?_⟩
    simp +decide [redirSwitch, hp]
  · simp only [ha, hp, if_false, Tok.isIn] at h ⊢
    have hlt : tok.ret = '<'.toUInt8 ∨ tok.ret = '>'.toUInt8 := by simpa [chars] using h
    rcases hlt with h1 | h1 <;> simp +decide [Tok.redirMode, redirSwitch, h1]

/-! ## Soundness of the loops -/

theorem parseredirs_sound (cmd : Cmd) (s : List UInt8) :
    ∀ c r, parseredirs cmd s = .ok (c, r) → ∃ rs, Redirs (lex s) rs (lex r.1) ∧ c = cmd.wrap rs := by
  fun_induction parseredirs cmd s with
  | case1 => intro c r h; cases h
  | case2 cmd s p hp tok file hfile ih =>
    intro c r h
    obtain ⟨⟨c', r'⟩, hrec, hcr⟩ := map_eq_ok h
    cases hcr
    obtain ⟨rs, hrs, rfl⟩ := ih c' r' hrec
    -- the redirection token, and the word after it
    have htok : tok = gettoken s := gettoken_peek s _
    obtain ⟨hl, hin⟩ := lex_of_peek (by simp [chars, symbols]) hp
    rw [← htok] at hl hin
    have hword := lex_of_ret_a (s := tok.rest) (by simpa using hfile)
    obtain ⟨mode, fd, hmode, hsw⟩ := redirSwitch_eq hin cmd file.q file.eq
    refine ⟨⟨file.q, file.eq, mode, fd⟩ :: rs, ?_, by rw [hsw]; rfl⟩
    rw [hl, hword]
    exact Redirs.cons hmode hrs
  | case3 cmd s p hp =>
    intro c r h
    cases h
    exact ⟨[], by rw [lex_peek]; exact Redirs.nil _, rfl⟩

theorem parselineBacks_sound (cmd : Cmd) (s : List UInt8) :
    ∃ k, lex s = amps k ++ lex (parselineBacks cmd s).2.1 ∧
      (parselineBacks cmd s).1 = Cmd.back^[k] cmd := by
  fun_induction parselineBacks cmd s with
  | case1 cmd s p hp r ih =>
    obtain ⟨k, hk, hc⟩ := ih
    obtain ⟨hl, hin⟩ := lex_of_peek (by simp [chars, symbols]) hp
    have hamp : (gettoken s).tok = .sym '&'.toUInt8 := Tok.eq_sym_of_isIn hin (by decide)
    refine ⟨k + 1, ?_, hc⟩
    rw [hl, hamp, ← gettoken_peek s (chars "&"), hk]
    rfl
  | case2 cmd s p hp => exact ⟨0, (lex_peek s (chars "&")).symm, rfl⟩

theorem parseexecLoop_sound (ret : Cmd) (argv : List (List UInt8 × List UInt8)) (s : List UInt8) :
    ∀ c r, parseexecLoop ret argv s = .ok (c, r) → ∀ rs₀, ret = (Cmd.exec argv).wrap rs₀ →
      argv.length < MAXARGS →
      ∃ ws rs, Words (lex s) ws rs (lex r.1) ∧ c = (Cmd.exec (argv ++ ws)).wrap (rs₀ ++ rs) ∧
        (argv ++ ws).length < MAXARGS := by
  fun_induction parseexecLoop ret argv s with
  | case1 ret argv s p hp =>
    intro c r h rs₀ hret hlen
    cases h
    exact ⟨[], [], by rw [lex_peek]; exact Words.nil _, by simp [hret], by simpa using hlen⟩
  | case2 ret argv s p hp t ht h0 =>
    -- the end of the line
    intro c r h rs₀ hret hlen
    cases h
    have hnil : lex s = [] := by
      rw [← lex_peek s (chars "|)&;"), lex_eq_nil_iff, ← ret_eq_zero_iff]
      exact h0
    have hrest : lex t.rest = [] := by
      have hg : t = ⟨0, [], [], []⟩ := by
        rcases gettoken_cases p.2 with ⟨-, hg⟩ | ⟨-, hr, -⟩
        · exact hg
        · exact absurd h0 hr
      rw [hg]
      exact (lex_eq_nil_iff []).mpr rfl
    exact ⟨[], [], by rw [hnil, hrest]; exact Words.nil _, by simp [hret], by simpa using hlen⟩
  | case3 => intro c r h; cases h
  | case4 => intro c r h; cases h
  | case5 ret argv s p hp t ht h0 ha argv' ret' hlen' ih =>
    intro c r h rs₀ hret hlen
    obtain ⟨r₁, h₁, h⟩ := bind_eq_ok h
    obtain ⟨r₂, h₂, h⟩ := bind_eq_ok h
    cases h
    -- the word, then its redirections
    have htok : t = gettoken s := gettoken_peek s _
    have hl : lex s = .word t.q t.eq :: lex t.rest := by
      rw [htok]
      exact lex_of_ret_a (by rw [← htok]; simpa using ha)
    obtain ⟨rs, hrs, hc₁⟩ := parseredirs_sound ret' t.rest r₁.1 r₁.2 h₁
    have hr₁ : r₁.1 = (Cmd.exec argv').wrap (rs₀ ++ rs) := by
      rw [hc₁, Cmd.wrap_append, show ret' = (Cmd.exec argv').wrap rs₀ by
        simp only [ret', hret, Cmd.setArgv_wrap]]
    obtain ⟨ws, rs', hw, hc, hl'⟩ := ih r₁ r₂.1 r₂.2 h₂ (rs₀ ++ rs) hr₁ (by omega)
    refine ⟨(t.q, t.eq) :: ws, rs ++ rs', ?_, ?_, ?_⟩
    · rw [hl]
      exact Words.cons hrs hw
    · simp [hc, argv', List.append_assoc]
    · simpa [argv'] using hl'

/-! ## Soundness -/

mutual

theorem parseline_sound {s : List UInt8} {c : Cmd} {r : Rest s} (h : parseline s = .ok (c, r)) :
    Line (lex s) c (lex r.1) := by
  rw [parseline] at h
  obtain ⟨r₁, h₁, h⟩ := bind_eq_ok h
  have hp := parsepipe_sound h₁
  obtain ⟨k, hk, hb⟩ := parselineBacks_sound r₁.1 r₁.2.1
  dsimp only at h
  split at h
  · -- `;` and the line after it
    rename_i hsemi
    obtain ⟨r₂, h₂, h⟩ := bind_eq_ok h
    cases h
    obtain ⟨hl, hin⟩ := lex_of_peek (by simp [chars, symbols]) hsemi
    rw [Tok.eq_sym_of_isIn (c := ';'.toUInt8) hin (by decide),
      ← gettoken_peek _ (chars ";")] at hl
    have hline := parseline_sound h₂
    rw [hb]
    exact Line.list (by rw [← hl, ← hk]; exact hp) hline
  · cases h
    rw [hb]
    exact Line.pipe (by rw [lex_peek, ← hk]; exact hp)
termination_by 4 * s.length + 3
decreasing_by
  all_goals first
    | omega
    | have h1 := length_gettoken_peek_lt ‹(peek _ (chars ";")).1 = true›
      have h2 := ((parselineBacks r₁.1 r₁.2.1).2.2.trans r₁.2.2).length_le
      omega

theorem parsepipe_sound {s : List UInt8} {c : Cmd} {r : Rest s} (h : parsepipe s = .ok (c, r)) :
    Pipe (lex s) c (lex r.1) := by
  rw [parsepipe] at h
  obtain ⟨r₁, h₁, h⟩ := bind_eq_ok h
  have he := parseexec_sound h₁
  dsimp only at h
  split at h
  · -- `|` and the pipeline after it
    rename_i hbar
    obtain ⟨r₂, h₂, h⟩ := bind_eq_ok h
    cases h
    obtain ⟨hl, hin⟩ := lex_of_peek (by simp [chars, symbols]) hbar
    rw [Tok.eq_sym_of_isIn (c := '|'.toUInt8) hin (by decide),
      ← gettoken_peek _ (chars "|")] at hl
    rw [hl] at he
    have hpipe := parsepipe_sound h₂
    exact Pipe.pipe he hpipe
  · cases h
    exact Pipe.exec (by rw [lex_peek]; exact he)
termination_by 4 * s.length + 2
decreasing_by
  all_goals first
    | omega
    | have h1 := length_gettoken_peek_lt ‹(peek _ (chars "|")).1 = true›
      have h2 := r₁.2.2.length_le
      omega

theorem parseexec_sound {s : List UInt8} {c : Cmd} {r : Rest s} (h : parseexec s = .ok (c, r)) :
    Exec (lex s) c (lex r.1) := by
  rw [parseexec] at h
  split at h
  · -- a block
    obtain ⟨r₁, h₁, h⟩ := bind_eq_ok h
    cases h
    rw [← lex_peek s (chars "(")]
    exact parseblock_sound h₁
  · obtain ⟨r₁, h₁, h⟩ := bind_eq_ok h
    obtain ⟨r₂, h₂, h⟩ := bind_eq_ok h
    cases h
    obtain ⟨rs, hrs, hc₁⟩ := parseredirs_sound _ _ r₁.1 r₁.2 h₁
    obtain ⟨ws, rs', hw, hc, hlen⟩ :=
      parseexecLoop_sound _ _ _ r₂.1 r₂.2 h₂ rs (by rw [hc₁]) (by decide)
    rw [hc]
    exact Exec.simple (by rw [← lex_peek s (chars "(")]; exact hrs) hw hlen
termination_by 4 * s.length + 1
decreasing_by
  have := length_skipws_le s
  simp only [peek]
  omega

theorem parseblock_sound {s : List UInt8} {c : Cmd} {r : Rest s} (h : parseblock s = .ok (c, r)) :
    Exec (lex s) c (lex r.1) := by
  rw [parseblock] at h
  split at h
  · rename_i hopen
    obtain ⟨r₁, h₁, h⟩ := bind_eq_ok h
    dsimp only at h
    split at h
    · rename_i hclose
      obtain ⟨r₂, h₂, h⟩ := bind_eq_ok h
      cases h
      obtain ⟨rs, hrs, hc⟩ := parseredirs_sound _ _ r₂.1 r₂.2 h₂
      obtain ⟨hl, hin⟩ := lex_of_peek (by simp [chars, symbols]) hopen
      rw [Tok.eq_sym_of_isIn (c := '('.toUInt8) hin (by decide),
        ← gettoken_peek s (chars "(")] at hl
      obtain ⟨hl', hin'⟩ := lex_of_peek (by simp [chars, symbols]) hclose
      rw [Tok.eq_sym_of_isIn (c := ')'.toUInt8) hin' (by decide),
        ← gettoken_peek r₁.2.1 (chars ")")] at hl'
      have hline := parseline_sound h₁
      rw [hl'] at hline
      rw [hl, hc]
      exact Exec.block hline hrs
    · cases h
  · cases h
termination_by 4 * s.length
decreasing_by
  have := length_gettoken_peek_lt ‹(peek s (chars "(")).1 = true›
  omega

end

/-! ## What may follow -/

theorem Tok.isIn_mono {t : Tok} {toks toks' : List UInt8} (h : t.isIn toks = true)
    (hs : ∀ c ∈ toks, c ∈ toks') : t.isIn toks' = true := by
  cases t with
  | sym c => simpa [Tok.isIn] using hs c (by simpa [Tok.isIn] using h)
  | app => simpa [Tok.isIn] using hs _ (by simpa [Tok.isIn] using h)
  | word => simp [Tok.isIn] at h

theorem Tok.isIn_false {t : Tok} {toks toks' : List UInt8} (h : t.isIn toks = true)
    (hd : ∀ c ∈ toks, c ∉ toks') : t.isIn toks' = false := by
  cases t with
  | sym c => simpa [Tok.isIn] using hd c (by simpa [Tok.isIn] using h)
  | app => simpa [Tok.isIn] using hd _ (by simpa [Tok.isIn] using h)
  | word => rfl

theorem Follows.mono {toks toks' : List UInt8} {ts : List Tok} (h : Follows toks ts)
    (hs : ∀ c ∈ toks, c ∈ toks') : Follows toks' ts :=
  fun t ht => Tok.isIn_mono (h t ht) hs

theorem Follows.not_isIn {toks toks' : List UInt8} {ts : List Tok} (h : Follows toks ts)
    (hd : ∀ c ∈ toks, c ∉ toks') : ∀ t ∈ ts.head?, t.isIn toks' = false :=
  fun t ht => Tok.isIn_false (h t ht) hd

/-- A redirection token is `<`, `>` or `>>`. -/
theorem Tok.isIn_of_redirMode {t : Tok} {m : Nat × Nat} (h : t.redirMode = some m) :
    t.isIn (chars "<>") = true ∧ t.isIn (chars "(") = false := by
  cases t with
  | sym c =>
    simp only [Tok.redirMode] at h
    split at h
    · subst_vars
      decide
    · split at h
      · subst_vars
        decide
      · cases h
  | app => decide
  | word => cases h

/-- Where the words of an `execcmd` may start: no redirection, and no `(`. -/
theorem Words.head_not_isIn {ts ts' : List Tok} {ws : List (List UInt8 × List UInt8)}
    {rs : List Redir} (h : Words ts ws rs ts') (hf : Follows (chars "|)&;") ts') :
    ∀ t ∈ ts.head?, t.isIn (chars "<>") = false ∧ t.isIn (chars "(") = false := by
  cases h with
  | nil => exact fun t ht => ⟨hf.not_isIn (by simp [chars]; decide) t ht, hf.not_isIn (by simp [chars]; decide) t ht⟩
  | cons => intro t ht; cases ht; exact ⟨rfl, rfl⟩

theorem Redirs.head_not_lparen {ts ts' : List Tok} {rs : List Redir} (h : Redirs ts rs ts')
    (hf : ∀ t ∈ ts'.head?, t.isIn (chars "(") = false) :
    ∀ t ∈ ts.head?, t.isIn (chars "(") = false := by
  cases h with
  | nil => exact hf
  | cons hmode => intro t ht; cases ht; exact (Tok.isIn_of_redirMode hmode).2

/-- The word `gettoken` found is the word token. -/
theorem Token.tok_eq_word {t : Token} {q eq : List UInt8} (h : t.tok = .word q eq) :
    t.ret = 'a'.toUInt8 ∧ t.q = q ∧ t.eq = eq := by
  unfold Token.tok at h
  split at h
  · rename_i ha
    cases h
    exact ⟨ha, rfl, rfl⟩
  · split at h <;> cases h

/-! ## Completeness of the loops -/

theorem parseredirs_complete {ts ts' : List Tok} {rs : List Redir} (h : Redirs ts rs ts')
    (hf : ∀ t ∈ ts'.head?, t.isIn (chars "<>") = false) :
    ∀ (cmd : Cmd) (s : List UInt8), lex s = ts →
      ∃ r, parseredirs cmd s = .ok (cmd.wrap rs, r) ∧ lex r.1 = ts' := by
  induction h with
  | nil ts =>
    intro cmd s hs
    have hp : (peek s (chars "<>")).1 = false := by
      rw [peek_eq (by simp [chars, symbols]), hs]
      cases ts with
      | nil => rfl
      | cons t ts => exact hf t rfl
    rw [parseredirs]
    simp only [hp, Bool.false_eq_true, dite_false]
    exact ⟨_, rfl, by rw [lex_peek, hs]⟩
  | @cons op q eq mode fd ts ts' rs hmode hrs ih =>
    intro cmd s hs
    obtain ⟨-, htok, hrest⟩ := lex_eq_cons_iff.mp hs
    obtain ⟨-, hfile, hrest'⟩ := lex_eq_cons_iff.mp hrest
    obtain ⟨ha, hq, heq⟩ := Token.tok_eq_word hfile
    have hp : (peek s (chars "<>")).1 = true := by
      rw [peek_eq (by simp [chars, symbols]), hs]
      exact (Tok.isIn_of_redirMode hmode).1
    have hin : (gettoken s).tok.isIn (chars "<>") = true := by
      rw [htok]
      exact (Tok.isIn_of_redirMode hmode).1
    obtain ⟨mode', fd', hmode', hsw⟩ := redirSwitch_eq hin cmd q eq
    rw [htok, hmode] at hmode'
    obtain ⟨rfl, rfl⟩ := Prod.mk.inj (Option.some.inj hmode')
    obtain ⟨r, hr, hlr⟩ := ih hf (.redir cmd q eq mode fd)
      (gettoken (gettoken (peek s (chars "<>")).2).rest).rest (by rw [gettoken_peek]; exact hrest')
    rw [parseredirs]
    simp only [hp, dite_true, gettoken_peek, ha, bne_self_eq_false, Bool.false_eq_true, if_false, hq,
      heq, hsw, hr]
    exact ⟨_, rfl, hlr⟩

theorem parselineBacks_complete (k : Nat) :
    ∀ (cmd : Cmd) (s : List UInt8) (ts : List Tok), lex s = amps k ++ ts →
      (∀ t ∈ ts.head?, t.isIn (chars "&") = false) →
      (parselineBacks cmd s).1 = Cmd.back^[k] cmd ∧ lex (parselineBacks cmd s).2.1 = ts := by
  induction k with
  | zero =>
    intro cmd s ts hs hf
    have hp : (peek s (chars "&")).1 = false := by
      rw [peek_eq (by simp [chars, symbols]), hs]
      cases ts with
      | nil => rfl
      | cons t ts => exact hf t rfl
    rw [parselineBacks]
    simp only [hp, Bool.false_eq_true, dite_false]
    exact ⟨rfl, by rw [lex_peek, hs]; rfl⟩
  | succ k ih =>
    intro cmd s ts hs hf
    have hs' : lex s = .sym '&'.toUInt8 :: (amps k ++ ts) := hs
    have hp : (peek s (chars "&")).1 = true := by
      rw [peek_eq (by simp [chars, symbols]), hs']
      rfl
    obtain ⟨-, -, hrest⟩ := lex_eq_cons_iff.mp hs'
    rw [parselineBacks]
    simp only [hp, dite_true]
    exact ih _ _ _ (by rw [gettoken_peek]; exact hrest) hf

theorem parseexecLoop_complete {ts ts' : List Tok} {ws : List (List UInt8 × List UInt8)}
    {rs : List Redir} (h : Words ts ws rs ts') (hf : Follows (chars "|)&;") ts') :
    ∀ (argv : List (List UInt8 × List UInt8)) (rs₀ : List Redir) (s : List UInt8), lex s = ts →
      (argv ++ ws).length < MAXARGS →
      ∃ r, parseexecLoop ((Cmd.exec argv).wrap rs₀) argv s =
        .ok ((Cmd.exec (argv ++ ws)).wrap (rs₀ ++ rs), r) ∧ lex r.1 = ts' := by
  induction h with
  | nil ts =>
    intro argv rs₀ s hs _
    rw [parseexecLoop]
    cases ts with
    | nil =>
      -- the end of the line: `gettoken` gives `0`
      have hp : (peek s (chars "|)&;")).1 = false := by
        rw [peek_eq (by simp [chars, symbols]), hs]
        rfl
      have hg := gettoken_of_lex_nil hs
      simp only [hp, Bool.false_eq_true, if_false, gettoken_peek, hg, dite_true, List.append_nil]
      exact ⟨_, rfl, (lex_eq_nil_iff []).mpr rfl⟩
    | cons t ts =>
      have hp : (peek s (chars "|)&;")).1 = true := by
        rw [peek_eq (by simp [chars, symbols]), hs]
        exact hf t rfl
      simp only [hp, if_true, List.append_nil]
      exact ⟨_, rfl, by rw [lex_peek, hs]⟩
  | @cons q eq ts ts₁ ts' ws rs rs' hrs hws ih =>
    intro argv rs₀ s hs hlen
    obtain ⟨-, htok, hrest⟩ := lex_eq_cons_iff.mp hs
    obtain ⟨ha, hq, heq⟩ := Token.tok_eq_word htok
    have hp : (peek s (chars "|)&;")).1 = false := by
      rw [peek_eq (by simp [chars, symbols]), hs]
      rfl
    have hne : (gettoken s).ret ≠ 0 := by rw [ha]; decide
    have hlen' : ¬ (argv ++ [(q, eq)]).length ≥ MAXARGS := by
      simp only [List.length_append, List.length_cons, List.length_nil] at hlen ⊢
      omega
    obtain ⟨r₁, hr₁, hl₁⟩ := parseredirs_complete hrs (fun t ht => (hws.head_not_isIn hf t ht).1)
      ((Cmd.exec (argv ++ [(q, eq)])).wrap rs₀) (gettoken (peek s (chars "|)&;")).2).rest
      (by rw [gettoken_peek]; exact hrest)
    obtain ⟨r₂, hr₂, hl₂⟩ := ih hf (argv ++ [(q, eq)]) (rs₀ ++ rs) r₁.1 hl₁ (by simpa using hlen)
    rw [parseexecLoop]
    simp only [hp, Bool.false_eq_true, if_false, gettoken_peek, ha, bne_self_eq_false, hq, heq,
      hlen', Cmd.setArgv_wrap]
    rw [dif_neg (by decide), hr₁, ok_bind]
    dsimp only
    rw [← Cmd.wrap_append, hr₂, ok_bind]
    refine ⟨r₂.widen (r₁.2.trans ((gettoken_rest_suffix _).trans (peek_suffix s _))), ?_, hl₂⟩
    simp only [List.append_assoc, List.singleton_append]
    rfl

theorem follows_amps {k : Nat} {ts : List Tok} (h : Follows (chars ")&;") ts) :
    Follows (chars ")&;") (amps k ++ ts) := by
  cases k with
  | zero => exact h
  | succ k => intro t ht; cases ht; rfl

/-! ## Completeness -/

mutual

theorem line_complete {ts ts' : List Tok} {c : Cmd} :
    Line ts c ts' → Follows (chars ")") ts' →
      ∀ s, lex s = ts → ∃ r, parseline s = .ok (c, r) ∧ lex r.1 = ts'
  | @Line.pipe _ ts' c₀ k hp, hf, s, hs => by
    obtain ⟨r₁, hr₁, hl₁⟩ := pipe_complete hp (follows_amps (hf.mono (by simp [chars]))) s hs
    obtain ⟨hb₁, hb₂⟩ := parselineBacks_complete k c₀ r₁.1 ts' hl₁ (hf.not_isIn (by simp [chars]; decide))
    have hsemi : (peek (parselineBacks c₀ r₁.1).2.1 (chars ";")).1 = false :=
      peek_of_not_isIn (by simp [chars]; decide) (by rw [hb₂]; exact hf.not_isIn (by simp [chars]; decide))
    rw [parseline, hr₁, ok_bind]
    dsimp only
    rw [dif_neg (by simp [hsemi]), hb₁]
    refine ⟨_, rfl, ?_⟩
    rw [lex_peek]
    exact hb₂
  | @Line.list _ ts₁ _ c₀ d k hp hl, hf, s, hs => by
    obtain ⟨r₁, hr₁, hl₁⟩ := pipe_complete hp (follows_amps (by intro t ht; cases ht; rfl)) s hs
    obtain ⟨hb₁, hb₂⟩ := parselineBacks_complete k c₀ r₁.1 _ hl₁ (by intro t ht; cases ht; rfl)
    have hsemi : (peek (parselineBacks c₀ r₁.1).2.1 (chars ";")).1 = true :=
      peek_of_isIn (by simp [chars, symbols]) hb₂ rfl
    obtain ⟨-, -, hrest⟩ := lex_eq_cons_iff.mp hb₂
    obtain ⟨r₂, hr₂, hl₂⟩ := line_complete hl hf
      (gettoken (peek (parselineBacks c₀ r₁.1).2.1 (chars ";")).2).rest
      (by rw [gettoken_peek]; exact hrest)
    rw [parseline, hr₁, ok_bind]
    dsimp only
    rw [dif_pos hsemi, hr₂, ok_bind, hb₁]
    refine ⟨_, rfl, ?_⟩
    exact hl₂

theorem pipe_complete {ts ts' : List Tok} {c : Cmd} :
    Pipe ts c ts' → Follows (chars ")&;") ts' →
      ∀ s, lex s = ts → ∃ r, parsepipe s = .ok (c, r) ∧ lex r.1 = ts'
  | .exec he, hf, s, hs => by
    obtain ⟨r₁, hr₁, hl₁⟩ := exec_complete he (hf.mono (by simp [chars])) s hs
    have hbar : (peek r₁.1 (chars "|")).1 = false :=
      peek_of_not_isIn (by simp [chars]; decide) (by rw [hl₁]; exact hf.not_isIn (by simp [chars]; decide))
    rw [parsepipe, hr₁, ok_bind]
    dsimp only
    rw [dif_neg (by simp [hbar])]
    refine ⟨_, rfl, ?_⟩
    rw [lex_peek]
    exact hl₁
  | .pipe he hp, hf, s, hs => by
    obtain ⟨r₁, hr₁, hl₁⟩ := exec_complete he (by intro t ht; cases ht; rfl) s hs
    have hbar : (peek r₁.1 (chars "|")).1 = true := peek_of_isIn (by simp [chars, symbols]) hl₁ rfl
    obtain ⟨-, -, hrest⟩ := lex_eq_cons_iff.mp hl₁
    obtain ⟨r₂, hr₂, hl₂⟩ := pipe_complete hp hf (gettoken (peek r₁.1 (chars "|")).2).rest
      (by rw [gettoken_peek]; exact hrest)
    rw [parsepipe, hr₁, ok_bind]
    dsimp only
    rw [dif_pos hbar, hr₂, ok_bind]
    refine ⟨_, rfl, ?_⟩
    exact hl₂

theorem exec_complete {ts ts' : List Tok} {c : Cmd} :
    Exec ts c ts' → Follows (chars "|)&;") ts' →
      ∀ s, lex s = ts → ∃ r, parseexec s = .ok (c, r) ∧ lex r.1 = ts'
  | @Exec.block ts₀ ts₁ _ c₀ rs hl hrs, hf, s, hs => by
    -- `(`, checked by `parseexec` and again by `parseblock`
    have hopen : (peek s (chars "(")).1 = true := peek_of_isIn (by simp [chars, symbols]) hs rfl
    have hs' : lex (peek s (chars "(")).2 = .sym '('.toUInt8 :: ts₀ := by rw [lex_peek]; exact hs
    have hopen' : (peek (peek s (chars "(")).2 (chars "(")).1 = true :=
      peek_of_isIn (by simp [chars, symbols]) hs' rfl
    obtain ⟨-, -, hrest⟩ := lex_eq_cons_iff.mp hs'
    obtain ⟨r₁, hr₁, hl₁⟩ := line_complete hl (by intro t ht; cases ht; rfl)
      (gettoken (peek (peek s (chars "(")).2 (chars "(")).2).rest
      (by rw [gettoken_peek]; exact hrest)
    -- `)`, and the redirections after it
    have hclose : (peek r₁.1 (chars ")")).1 = true := peek_of_isIn (by simp [chars, symbols]) hl₁ rfl
    obtain ⟨-, -, hrest'⟩ := lex_eq_cons_iff.mp hl₁
    obtain ⟨r₂, hr₂, hl₂⟩ := parseredirs_complete hrs (hf.not_isIn (by simp [chars]; decide)) c₀
      (gettoken (peek r₁.1 (chars ")")).2).rest (by rw [gettoken_peek]; exact hrest')
    rw [parseexec, if_pos hopen, parseblock, dif_pos hopen', hr₁, ok_bind]
    dsimp only
    rw [if_pos hclose, hr₂, ok_bind, pure_bind]
    refine ⟨_, rfl, ?_⟩
    exact hl₂
  | @Exec.simple _ ts₁ _ ws rs rs' hrs hws hlen, hf, s, hs => by
    have hword := hws.head_not_isIn hf
    have hopen : (peek s (chars "(")).1 = false :=
      peek_of_not_isIn (by simp [chars]; decide) (by rw [hs]; exact hrs.head_not_lparen fun t ht => (hword t ht).2)
    obtain ⟨r₁, hr₁, hl₁⟩ := parseredirs_complete hrs (fun t ht => (hword t ht).1) (.exec [])
      (peek s (chars "(")).2 (by rw [lex_peek]; exact hs)
    obtain ⟨r₂, hr₂, hl₂⟩ := parseexecLoop_complete hws hf [] rs r₁.1 hl₁ (by simpa using hlen)
    rw [parseexec, if_neg (by simp [hopen]), hr₁, ok_bind]
    dsimp only
    rw [hr₂, ok_bind, List.nil_append]
    refine ⟨_, rfl, ?_⟩
    exact hl₂

end

end Sh

end Xv6
