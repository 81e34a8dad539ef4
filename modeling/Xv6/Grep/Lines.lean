import Mathlib
import Xv6.Grep.Match

/-!
# grep's line loop (`user/grep.c`, `grep`)

`grep` reads the stream into a buffer of 1024 bytes behind the `m` bytes it
kept, cuts every line that ends in a newline out of it, writes those that
`match` accepts, and moves the rest of the last line to the start of the
buffer. A read may return any positive count up to what it was asked; the
count of the `i`-th read is `cuts i`, held within those bounds, so that
each chunking of the stream is one `cuts`.

The lines of a stream are what `splitOn` gives before its last part
(`lines`, `lastLine`), and `written` is what grep should write for a list of
lines. `scanLines_eq` says the inner loop writes the accepted lines of the
buffer and keeps the rest of the last; `lines_append` cuts the lines of a
stream where a read ends. Then:

- `grepLoop_writes`: whatever the chunking, grep writes the accepted lines
  among the first `k` lines of the stream, in order and each once;
- `grepLoop_writes_all`: when every line has at most 1022 bytes, it writes
  all of them; from the empty buffer, both are `grep_writes_accepted_lines`;
- but a line of 1023 bytes fills the buffer with no newline in it, the next
  read is asked for 0 bytes and returns 0, and grep stops as at the end of
  the stream: the lines after it are never read
  (`grep_stops_at_long_line`).
-/

namespace Xv6

namespace Grep

/-- `'\n'`. -/
def cNewline : UInt8 := 10

/-- `sizeof(buf)`. -/
def BUFSIZE : Nat := 1024

/-- `strchr(s, c)` (`user/ulib.c`): the index of the first `c` in the string,
which ends at its first `NUL`. -/
def strchr (s : List UInt8) (c : UInt8) : Option Nat :=
  (s.takeWhile (· != 0)).findIdx? (· == c)

theorem strchr_lt {s : List UInt8} {c : UInt8} {q : Nat} (h : strchr s c = some q) :
    q < s.length := by
  have hlt := (List.findIdx?_eq_some_iff_getElem.mp h).1
  have := (List.takeWhile_prefix (· != 0) (l := s)).length_le
  omega

/-- The inner loop of `grep`, from `p`: each line up to a newline is cut
there (`*q = 0`) and written with its newline when `match` accepts it. The
result is the bytes written and those after the last newline, which
`memmove` keeps at the start of the buffer. -/
def scanLines (pattern buf : List UInt8) : List UInt8 × List UInt8 :=
  match _h : strchr buf cNewline with
  | none => ([], buf)
  | some q =>
    let line := buf.take q
    let rest := scanLines pattern (buf.drop (q + 1))
    ((if matchRe pattern line then line ++ [cNewline] else []) ++ rest.1, rest.2)
termination_by buf.length
decreasing_by
  have := strchr_lt _h
  simp only [List.length_drop]
  omega

/-- What `read(fd, buf + m, request)` returns with `avail` bytes left in the
stream: 0 when nothing is asked or nothing is left, and otherwise a count
from 1 up to both, here `cut` held within those bounds. -/
def readCount (cut request avail : Nat) : Nat :=
  if request = 0 ∨ avail = 0 then 0 else max 1 (min cut (min request avail))

theorem readCount_le_avail (cut request avail : Nat) : readCount cut request avail ≤ avail := by
  unfold readCount
  split <;> omega

theorem readCount_le_request (cut request avail : Nat) :
    readCount cut request avail ≤ request := by
  unfold readCount
  split <;> omega

/-- The loop of `grep(pattern, fd)`: `buf` is the `m` bytes kept, `input`
the stream not yet read, and `cuts i` the count of the `i`-th read. It ends
when a read returns 0; the result is what is written to fd 1. -/
def grepLoop (pattern : List UInt8) (cuts : Nat → Nat) (i : Nat) (buf input : List UInt8) :
    List UInt8 :=
  let n := readCount (cuts i) (BUFSIZE - buf.length - 1) input.length
  if _h : 0 < n then
    -- `m > 0` here, so the rest of the last line is always moved down
    let r := scanLines pattern (buf ++ input.take n)
    r.1 ++ grepLoop pattern cuts (i + 1) r.2 (input.drop n)
  else []
termination_by input.length
decreasing_by
  have := readCount_le_avail (cuts i) (BUFSIZE - buf.length - 1) input.length
  simp only [List.length_drop]
  omega

/-- `grep(pattern, fd)` on a stream, from an empty buffer. -/
def grep (pattern : List UInt8) (cuts : Nat → Nat) (input : List UInt8) : List UInt8 :=
  grepLoop pattern cuts 0 [] input

/-! ## The lines of a stream -/

/-- The newline-terminated lines of a stream, without their newlines. -/
def lines (input : List UInt8) : List (List UInt8) := (input.splitOn cNewline).dropLast

/-- The bytes after the last newline. -/
def lastLine (input : List UInt8) : List UInt8 := (input.splitOn cNewline).getLastD []

/-- What grep is to write for the lines `ls`: those `match` accepts, each
with its newline, in order. -/
def written (pattern : List UInt8) (ls : List (List UInt8)) : List UInt8 :=
  ((ls.filter (matchRe pattern)).map (· ++ [cNewline])).flatten

@[simp] theorem written_nil (pattern : List UInt8) : written pattern [] = [] := rfl

theorem written_append (pattern : List UInt8) (ls ls' : List (List UInt8)) :
    written pattern (ls ++ ls') = written pattern ls ++ written pattern ls' := by
  simp [written]

theorem written_cons (pattern line : List UInt8) (ls : List (List UInt8)) :
    written pattern (line :: ls) =
      (if matchRe pattern line then line ++ [cNewline] else []) ++ written pattern ls := by
  unfold written
  by_cases h : matchRe pattern line <;> simp [h]

/-- A byte of a stream without newlines is not the separator. -/
theorem beq_newline_of_not_mem {x : List UInt8} (h : cNewline ∉ x) :
    ∀ c ∈ x, (c == cNewline) = false := by
  intro c hc
  have : c ≠ cNewline := fun hcn => h (hcn ▸ hc)
  simpa using this

theorem splitOn_of_not_mem {x : List UInt8} (h : cNewline ∉ x) : x.splitOn cNewline = [x] :=
  List.splitOnP_eq_singleton (beq_newline_of_not_mem h)

theorem splitOn_first {a : List UInt8} (h : cNewline ∉ a) (b : List UInt8) :
    (a ++ cNewline :: b).splitOn cNewline = a :: b.splitOn cNewline :=
  List.splitOnP_append_cons_of_forall_mem (beq_newline_of_not_mem h) cNewline (by simp) b

theorem lines_of_not_mem {x : List UInt8} (h : cNewline ∉ x) : lines x = [] := by
  simp [lines, splitOn_of_not_mem h]

theorem lastLine_of_not_mem {x : List UInt8} (h : cNewline ∉ x) : lastLine x = x := by
  simp [lastLine, splitOn_of_not_mem h]

theorem lines_first {a : List UInt8} (h : cNewline ∉ a) (b : List UInt8) :
    lines (a ++ cNewline :: b) = a :: lines b := by
  rw [lines, splitOn_first h, List.dropLast_cons_of_ne_nil (List.splitOn_ne_nil _ _)]
  rfl

theorem lastLine_first {a : List UInt8} (h : cNewline ∉ a) (b : List UInt8) :
    lastLine (a ++ cNewline :: b) = lastLine b := by
  rw [lastLine, splitOn_first h, List.getLastD_cons, lastLine]
  -- the last part does not depend on the default, for there is one
  cases hs : b.splitOn cNewline with
  | nil => exact absurd hs (List.splitOn_ne_nil _ _)
  | cons s ss => rw [List.getLastD_cons, List.getLastD_cons]

/-- A stream with a newline is its first line, the newline, and the rest. -/
theorem exists_first_newline : ∀ {x : List UInt8}, cNewline ∈ x →
    ∃ a b, x = a ++ cNewline :: b ∧ cNewline ∉ a
  | c :: x, h => by
    by_cases hc : c = cNewline
    · exact ⟨[], x, by simp [hc], by simp⟩
    · have hx : cNewline ∈ x := by
        rcases List.mem_cons.mp h with h | h
        · exact absurd h.symm hc
        · exact h
      obtain ⟨a, b, rfl, ha⟩ := exists_first_newline hx
      refine ⟨c :: a, b, rfl, ?_⟩
      simp only [List.mem_cons, not_or]
      exact ⟨Ne.symm hc, ha⟩

/-- The lines of a stream cut where a read ends: the lines of the first part,
then those of its last line continued by the second. -/
theorem lines_append (x y : List UInt8) :
    lines (x ++ y) = lines x ++ lines (lastLine x ++ y) ∧
      lastLine (x ++ y) = lastLine (lastLine x ++ y) := by
  by_cases hx : cNewline ∈ x
  · obtain ⟨a, b, rfl, ha⟩ := exists_first_newline hx
    have ih := lines_append b y
    rw [List.append_assoc, List.cons_append, lines_first ha, lines_first ha, lastLine_first ha,
      lastLine_first ha, ih.1, ih.2]
    exact ⟨rfl, rfl⟩
  · rw [lines_of_not_mem hx, lastLine_of_not_mem hx]
    exact ⟨rfl, rfl⟩
termination_by x.length
decreasing_by
  subst x
  simp only [List.length_append, List.length_cons]
  omega

/-- The last line has no newline and ends the stream. -/
theorem lastLine_spec (x : List UInt8) : cNewline ∉ lastLine x ∧ lastLine x <:+ x := by
  by_cases hx : cNewline ∈ x
  · obtain ⟨a, b, rfl, ha⟩ := exists_first_newline hx
    have ih := lastLine_spec b
    rw [lastLine_first ha]
    exact ⟨ih.1, ih.2.trans ((List.suffix_cons _ _).trans (List.suffix_append _ _))⟩
  · rw [lastLine_of_not_mem hx]
    exact ⟨hx, List.suffix_refl x⟩
termination_by x.length
decreasing_by
  subst x
  simp only [List.length_append, List.length_cons]
  omega

/-! ## The inner loop -/

theorem takeWhile_ne_zero {s : List UInt8} (h0 : 0 ∉ s) : s.takeWhile (· != 0) = s :=
  List.takeWhile_eq_self_iff.mpr fun c hc => by
    have : c ≠ 0 := fun h => h0 (h ▸ hc)
    simpa using this

/-- `strchr` finds no newline in a string without `NUL`s only when there is
none. -/
theorem not_mem_of_strchr_none {s : List UInt8} (h0 : 0 ∉ s) (h : strchr s cNewline = none) :
    cNewline ∉ s := by
  intro hmem
  rw [strchr, takeWhile_ne_zero h0] at h
  have := List.findIdx?_eq_none_iff.mp h cNewline hmem
  simp at this

/-- What `strchr` finds in a string without `NUL`s is its first newline. -/
theorem split_of_strchr_some {s : List UInt8} {q : Nat} (h0 : 0 ∉ s)
    (h : strchr s cNewline = some q) :
    s = s.take q ++ cNewline :: s.drop (q + 1) ∧ cNewline ∉ s.take q := by
  rw [strchr, takeWhile_ne_zero h0] at h
  obtain ⟨hlt, hq, hbefore⟩ := List.findIdx?_eq_some_iff_getElem.mp h
  have hnl : s[q] = cNewline := by simpa using hq
  constructor
  · conv_lhs => rw [← List.take_append_drop q s, List.drop_eq_getElem_cons hlt, hnl]
  · intro hmem
    obtain ⟨j, hj, hget⟩ := List.getElem_of_mem hmem
    have hjq : j < q := by
      rw [List.length_take] at hj
      omega
    have := hbefore j hjq
    simp only [List.getElem_take] at hget
    simp [hget] at this

/-- The inner loop writes the accepted lines of the buffer and keeps the
bytes after its last newline. -/
theorem scanLines_eq (pattern : List UInt8) :
    ∀ buf : List UInt8, 0 ∉ buf → scanLines pattern buf = (written pattern (lines buf), lastLine buf)
  | buf, h0 => by
    rw [scanLines]
    split
    · -- no newline: nothing is written, the whole buffer is kept
      rename_i hnone
      have hnl := not_mem_of_strchr_none h0 hnone
      rw [lines_of_not_mem hnl, lastLine_of_not_mem hnl]
      rfl
    · -- the first line, then the rest of the buffer
      rename_i q hq
      obtain ⟨hsplit, hline⟩ := split_of_strchr_some h0 hq
      have hrest : 0 ∉ buf.drop (q + 1) := fun h => h0 (List.mem_of_mem_drop h)
      rw [scanLines_eq pattern (buf.drop (q + 1)) hrest]
      conv_rhs => rw [hsplit, lines_first hline, lastLine_first hline, written_cons]
termination_by buf => buf.length
decreasing_by
  have := strchr_lt ‹strchr _ cNewline = some _›
  simp only [List.length_drop]
  omega

/-! ## The outer loop -/

section Loop

variable (pattern : List UInt8) (cuts : Nat → Nat)

/-- No `NUL` in what is read and kept, when there is none in the stream. -/
theorem not_mem_append_take {buf input : List UInt8} (h0 : 0 ∉ buf ++ input) (n : Nat) :
    0 ∉ buf ++ input.take n := by
  intro h
  rcases List.mem_append.mp h with h | h
  · exact h0 (List.mem_append_left _ h)
  · exact h0 (List.mem_append_right _ (List.mem_of_mem_take h))

/-- A turn of the loop that reads `n > 0` bytes: the lines of the buffer and
the chunk are written, and the loop goes on from their last line. -/
theorem grepLoop_read {i n : Nat} {buf input : List UInt8} (h0 : 0 ∉ buf ++ input)
    (hndef : readCount (cuts i) (BUFSIZE - buf.length - 1) input.length = n) (hn : 0 < n) :
    grepLoop pattern cuts i buf input =
      written pattern (lines (buf ++ input.take n)) ++
        grepLoop pattern cuts (i + 1) (lastLine (buf ++ input.take n)) (input.drop n) := by
  rw [grepLoop, dif_pos (hndef ▸ hn)]
  dsimp only
  rw [hndef, scanLines_eq pattern _ (not_mem_append_take h0 n)]

/-- A turn of the loop whose read returns 0 ends it. -/
theorem grepLoop_stop {i : Nat} {buf input : List UInt8}
    (hn : readCount (cuts i) (BUFSIZE - buf.length - 1) input.length = 0) :
    grepLoop pattern cuts i buf input = [] := by
  rw [grepLoop, dif_neg (by omega)]

/-- What a turn keeps fits the buffer: the last line, of at most
`BUFSIZE - 1` bytes, with no newline and no `NUL`. -/
theorem lastLine_fits {buf input : List UInt8} {n : Nat} (h0 : 0 ∉ buf ++ input)
    (hlen : buf.length < BUFSIZE) (hn : n ≤ BUFSIZE - buf.length - 1) :
    0 ∉ lastLine (buf ++ input.take n) ++ input.drop n ∧ cNewline ∉ lastLine (buf ++ input.take n) ∧
      (lastLine (buf ++ input.take n)).length < BUFSIZE := by
  obtain ⟨hnl, hsuf⟩ := lastLine_spec (buf ++ input.take n)
  refine ⟨fun h => ?_, hnl, ?_⟩
  · rcases List.mem_append.mp h with h | h
    · exact not_mem_append_take h0 n (hsuf.subset h)
    · exact h0 (List.mem_append_right _ (List.mem_of_mem_drop h))
  · have hsuflen := hsuf.length_le
    simp only [List.length_append, List.length_take] at hsuflen
    have : BUFSIZE = 1024 := rfl
    omega

/-- The count of a read, named, with what it obeys. -/
theorem exists_readCount (cut request avail : Nat) :
    ∃ n, readCount cut request avail = n ∧ n ≤ request ∧ n ≤ avail :=
  ⟨_, rfl, readCount_le_request _ _ _, readCount_le_avail _ _ _⟩

/-- Whatever the chunking, grep writes the lines `match` accepts among the
first `k` lines of what is in the buffer and what is left of the stream:
lines of the stream, in order, each once. -/
theorem grepLoop_writes : ∀ (i : Nat) (buf input : List UInt8), 0 ∉ buf ++ input →
    cNewline ∉ buf → buf.length < BUFSIZE →
      ∃ k, grepLoop pattern cuts i buf input = written pattern ((lines (buf ++ input)).take k)
  | i, buf, input, h0, hnl, hlen => by
    obtain ⟨n, hndef, hreq, havail⟩ :=
      exists_readCount (cuts i) (BUFSIZE - buf.length - 1) input.length
    by_cases hn : 0 < n
    · -- a chunk is read: its lines, then those from the last line on
      rw [grepLoop_read pattern cuts h0 hndef hn]
      obtain ⟨h0', hnl', hlen'⟩ := lastLine_fits h0 hlen hreq
      obtain ⟨k, hk⟩ := grepLoop_writes (i + 1) _ _ h0' hnl' hlen'
      refine ⟨(lines (buf ++ input.take n)).length + k, ?_⟩
      rw [hk, ← written_append, ← List.take_length_add_append, ← (lines_append _ _).1,
        List.append_assoc, List.take_append_drop]
    · -- the read returns 0
      rw [grepLoop_stop pattern cuts (by omega)]
      exact ⟨0, rfl⟩
termination_by _ _ input => input.length
decreasing_by
  simp only [List.length_drop]
  omega

/-- A full buffer holds no newline only inside a line at least as long: a
first line of at most `BUFSIZE - 2` bytes means there is no line at all. -/
theorem lines_of_full {buf input : List UInt8} (hnl : cNewline ∉ buf)
    (hfull : BUFSIZE - 1 ≤ buf.length)
    (hshort : ∀ l ∈ lines (buf ++ input), l.length ≤ BUFSIZE - 2) :
    lines (buf ++ input) = [] := by
  by_cases hmem : cNewline ∈ buf ++ input
  · -- the first line starts with the whole buffer
    obtain ⟨a, b, hab, ha⟩ := exists_first_newline hmem
    have hline := hshort a (by rw [hab, lines_first ha]; exact List.mem_cons_self)
    have hle : buf.length ≤ a.length := by
      rcases List.append_eq_append_iff.mp hab with ⟨as, rfl, -⟩ | ⟨bs, rfl, hbs⟩
      · simp
      · cases bs with
        | nil => simp
        | cons c bs =>
          simp only [List.cons_append, List.cons.injEq] at hbs
          exact absurd (List.mem_append_right a (hbs.1 ▸ List.mem_cons_self)) hnl
    have : BUFSIZE = 1024 := rfl
    omega
  · exact lines_of_not_mem hmem

/-- When every line has at most 1022 bytes, grep writes all the lines
`match` accepts, whatever the chunking. -/
theorem grepLoop_writes_all : ∀ (i : Nat) (buf input : List UInt8), 0 ∉ buf ++ input →
    cNewline ∉ buf → buf.length < BUFSIZE →
      (∀ l ∈ lines (buf ++ input), l.length ≤ BUFSIZE - 2) →
      grepLoop pattern cuts i buf input = written pattern (lines (buf ++ input))
  | i, buf, input, h0, hnl, hlen, hshort => by
    obtain ⟨n, hndef, hreq, havail⟩ :=
      exists_readCount (cuts i) (BUFSIZE - buf.length - 1) input.length
    by_cases hn : 0 < n
    · rw [grepLoop_read pattern cuts h0 hndef hn]
      obtain ⟨h0', hnl', hlen'⟩ := lastLine_fits h0 hlen hreq
      -- the lines of the whole, cut after the chunk
      have hcut := (lines_append (buf ++ input.take n) (input.drop n)).1
      rw [List.append_assoc, List.take_append_drop] at hcut
      have hshort' : ∀ l ∈ lines (lastLine (buf ++ input.take n) ++ input.drop n),
          l.length ≤ BUFSIZE - 2 :=
        fun l hl => hshort l (by rw [hcut]; exact List.mem_append_right _ hl)
      rw [grepLoop_writes_all (i + 1) _ _ h0' hnl' hlen' hshort', ← written_append, ← hcut]
    · -- the read returns 0: at the end of the stream, or with a full buffer
      rw [grepLoop_stop pattern cuts (by omega)]
      have hstop : BUFSIZE - buf.length - 1 = 0 ∨ input.length = 0 := by
        rw [← hndef] at hn
        unfold readCount at hn
        split at hn
        · omega
        · omega
      rcases hstop with hfull | hend
      · rw [lines_of_full hnl (by omega) hshort]
        rfl
      · rw [List.length_eq_zero_iff.mp hend, List.append_nil, lines_of_not_mem hnl]
        rfl
termination_by _ _ input => input.length
decreasing_by
  simp only [List.length_drop]
  omega

/-- What `grep` writes of a stream with no `NUL`, whatever the chunking: the
lines `match` accepts among its first `k` lines, in order and each once, and
all of them when every line has at most 1022 bytes. -/
theorem grep_writes_accepted_lines {input : List UInt8} (h0 : 0 ∉ input) :
    (∃ k, grep pattern cuts input = written pattern ((lines input).take k)) ∧
      ((∀ l ∈ lines input, l.length ≤ BUFSIZE - 2) →
        grep pattern cuts input = written pattern (lines input)) := by
  -- the loop starts from the empty buffer
  have h0' : 0 ∉ [] ++ input := by rwa [List.nil_append]
  have hbuf : ([] : List UInt8).length < BUFSIZE := by decide
  exact ⟨grepLoop_writes pattern cuts 0 [] input h0' List.not_mem_nil hbuf,
    grepLoop_writes_all pattern cuts 0 [] input h0' List.not_mem_nil hbuf⟩

/-- `grep b` on `a\nb\n`, read a byte at a time. -/
theorem grep_writes_accepted_lines_bytewise :
    0 ∉ ([97, 10, 98, 10] : List UInt8) ∧
      ((∃ k, grep [98] (fun _ => 1) [97, 10, 98, 10] =
          written [98] ((lines [97, 10, 98, 10]).take k)) ∧
        ((∀ l ∈ lines [97, 10, 98, 10], l.length ≤ BUFSIZE - 2) →
          grep [98] (fun _ => 1) [97, 10, 98, 10] = written [98] (lines [97, 10, 98, 10]))) :=
  ⟨by decide, grep_writes_accepted_lines [98] (fun _ => 1) (by decide)⟩

/-- While the buffer and the stream hold one line of `'a'`s `BUFSIZE - 1`
bytes long, nothing is written, and once the buffer is full the loop stops:
what follows is never read. -/
theorem grepLoop_long_line {rest : List UInt8} (h0 : 0 ∉ rest) :
    ∀ k i, k < BUFSIZE →
      grepLoop pattern cuts i (List.replicate (BUFSIZE - 1 - k) 97) (List.replicate k 97 ++ rest) = []
  | k, i, hk => by
    have hlen : (List.replicate (BUFSIZE - 1 - k) (97 : UInt8)).length = BUFSIZE - 1 - k :=
      List.length_replicate
    have hsize : BUFSIZE = 1024 := rfl
    obtain ⟨n, hndef, hreq, havail⟩ := exists_readCount (cuts i)
      (BUFSIZE - (List.replicate (BUFSIZE - 1 - k) (97 : UInt8)).length - 1)
      (List.replicate k 97 ++ rest).length
    rw [hlen] at hreq
    by_cases hn : 0 < n
    · -- the chunk is more `'a'`s, with no newline: nothing is written
      have hall0 : (0 : UInt8) ∉ List.replicate (BUFSIZE - 1 - k) 97 ++ (List.replicate k 97 ++ rest) := by
        simp only [List.mem_append, List.mem_replicate, not_or]
        exact ⟨fun h => absurd h.2 (by decide), fun h => absurd h.2 (by decide), h0⟩
      rw [grepLoop_read pattern cuts hall0 hndef hn]
      have hchunk : (List.replicate k 97 ++ rest).take n = List.replicate n (97 : UInt8) := by
        rw [List.take_append_of_le_length (by simp; omega), List.take_replicate]
        congr 1
        omega
      have hdrop : (List.replicate k 97 ++ rest).drop n = List.replicate (k - n) (97 : UInt8) ++ rest := by
        rw [List.drop_append_of_le_length (by simp; omega), List.drop_replicate]
      have hbuf : List.replicate (BUFSIZE - 1 - k) (97 : UInt8) ++ List.replicate n 97 =
          List.replicate (BUFSIZE - 1 - (k - n)) 97 := by
        rw [← List.replicate_add]
        congr 1
        omega
      have hnl : cNewline ∉ List.replicate (BUFSIZE - 1 - (k - n)) (97 : UInt8) := by
        simp only [List.mem_replicate, not_and]
        exact fun _ h => absurd h (by decide)
      rw [hchunk, hdrop, hbuf, lines_of_not_mem hnl, lastLine_of_not_mem hnl, written_nil,
        List.nil_append]
      exact grepLoop_long_line h0 (k - n) (i + 1) (by omega)
    · rw [grepLoop_stop pattern cuts (by rw [hndef]; omega)]
termination_by k => k
decreasing_by omega
end Loop

/-- After a line of 1023 bytes, the matching line `"b"` is never written,
whatever the chunking: the buffer fills without a newline, the next read is
asked for 0 bytes, and grep stops as at the end of the stream. -/
theorem grep_stops_at_long_line (cuts : Nat → Nat) :
    [98] ∈ lines (List.replicate 1023 97 ++ [10, 98, 10]) ∧ matchRe [98] [98] = true ∧
      grep [98] cuts (List.replicate 1023 97 ++ [10, 98, 10]) = [] := by
  refine ⟨?_, ?_, ?_⟩
  · -- the lines are the long one and `"b"`
    have ha : cNewline ∉ List.replicate 1023 (97 : UInt8) := by
      simp only [List.mem_replicate, not_and]
      exact fun _ h => absurd h (by decide)
    rw [show List.replicate 1023 (97 : UInt8) ++ [10, 98, 10] =
        List.replicate 1023 97 ++ cNewline :: ([98] ++ cNewline :: []) from rfl,
      lines_first ha, lines_first (by decide)]
    exact List.mem_cons_of_mem _ List.mem_cons_self
  · -- `"b"` matches itself, at the first position
    rw [matchRe, if_neg (by decide), matchLoop, matchhere_cons]
    simp [cStar, cDollar, cDot]
  · exact grepLoop_long_line [98] cuts (by decide) 1023 0 (by decide)

end Grep

end Xv6
