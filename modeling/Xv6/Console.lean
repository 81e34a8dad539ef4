import Xv6.Library.Ring

/-!
# The console's line discipline (`kernel/console.c`)

Input typed at the console goes through `consoleintr`, which edits the line
being typed in the ring `cons.buf` and commits it to readers, and comes out
through `consoleread`. Three free-running `uint` indices cut the ring:
`r` (the next character a reader takes), `w` (the end of what is committed)
and `e` (the end of the line being edited).

- `consoleintr` is one call of the interrupt handler, under `cons.lock`;
  `killLine` is its `C('U')` loop.
- A read is a small machine: `consoleread` is one pass of its loop, under
  the lock, which takes a character, sleeps when nothing is committed, or
  returns, with `-1` when its process has been killed. Its copy out succeeds
  or fails as its parameter says. Reads follow one another; interrupts run
  only while no read holds the lock, and the reading process may be killed
  at any time (`Step`).
- `Editor` is the reference editor over plain lists: the committed
  characters `out`, the line `line`, and how far the reader has taken `out`.
  `Editor.edit` edits a line without knowing of `C('P')`; `Editor.key` is
  the console's: it also ignores `C('P')`, which `consoleintr` answers with
  `procdump` and never stores.

The result (`console_refines_editor`): over every interleaving of key
presses, successive reads and kills, `Sim` relates the ring to the editor,
so the indices stay ordered within one ring, and what the reads copied out,
one after the other, is a prefix of the editor's output.
-/

namespace Xv6

namespace Console

open RingBuf

/-- `#define INPUT_BUF 128` -/
def INPUT_BUF : Nat := 128

instance : NeZero INPUT_BUF := ⟨by decide⟩

theorem INPUT_BUF_dvd : INPUT_BUF ∣ 2 ^ 32 := ⟨2 ^ 25, by decide⟩

/-- `#define C(x) ((x) - '@')`: control-x. -/
def C (x : Char) : UInt8 := x.toUInt8 - '@'.toUInt8

/-- The input half of `cons`. -/
structure Cons where
  buf : Fin INPUT_BUF → UInt8
  r : UInt32
  w : UInt32
  e : UInt32

/-- The `C('U')` loop of `consoleintr`: back `e` up while it is past `w` and
the character before it is not a newline. -/
def killLine (buf : Fin INPUT_BUF → UInt8) (w e : UInt32) : UInt32 :=
  if h : e ≠ w ∧ buf (slot INPUT_BUF (e - 1)) ≠ '\n'.toUInt8 then killLine buf w (e - 1) else e
termination_by (e - w).toNat
decreasing_by
  rw [toNat_sub_one_sub h.1]
  have := (toNat_sub_eq_zero_iff (x := w) (y := e)).not.mpr h.1
  omega

/-- `consoleintr(c)`: one input character, with `procdump`, the echo and the
`wakeup` left out. -/
def consoleintr (s : Cons) (c : UInt8) : Cons :=
  if c = C 'P' then s
  else if c = C 'U' then { s with e := killLine s.buf s.w s.e }
  else if c = C 'H' ∨ c = '\x7f'.toUInt8 then
    if s.e ≠ s.w then { s with e := s.e - 1 } else s
  else if c ≠ 0 ∧ s.e - s.r < INPUT_BUF.toUInt32 then
    let c := if c = '\r'.toUInt8 then '\n'.toUInt8 else c
    let s := { s with buf := Function.update s.buf (slot INPUT_BUF s.e) c, e := s.e + 1 }
    if c = '\n'.toUInt8 ∨ c = C 'D' ∨ s.e = s.r + INPUT_BUF.toUInt32 then { s with w := s.e } else s
  else s

/-- Where a read is: not in `consoleread`, holding `cons.lock` in its loop,
or asleep on `&cons.r`. -/
inductive ReaderPc
  | idle
  | running
  | sleeping
  deriving DecidableEq, Repr

/-- A read in progress: `target`, the `n` still wanted, the bytes copied
out so far, and whether its process is killed. -/
structure Reader where
  pc : ReaderPc
  target : Int
  n : Int
  got : List UInt8
  killed : Bool

def Reader.idle : Reader := ⟨.idle, 0, 0, [], false⟩

/-- A `consoleread` that returned: the `n` it was asked for, its result, the
bytes it copied out, whether it took a `^D` from the ring, and whether its
process was killed. -/
structure Read where
  n : Int
  ret : Int
  bytes : List UInt8
  eof : Bool
  killed : Bool
  deriving DecidableEq

/-- What a run shows: a key press, a character a read took from the ring for
good, and a read that returned. -/
inductive Label
  | key (c : UInt8)
  | take (c : UInt8)
  | ret (x : Read)

/-- One pass of `consoleread`'s loop, under `cons.lock`, with `ok` the
result of its `either_copyout`. With nothing committed, a killed process
returns `-1` and any other sleeps. The character leaves the ring
(`cons.r++`) before it is copied out, and a failed copy breaks out of the
loop, returning `target - n`. -/
def consoleread (ok : Bool) (s : Cons) (rd : Reader) : List Label × Cons × Reader :=
  if rd.n ≤ 0 then ([.ret ⟨rd.target, rd.target - rd.n, rd.got, false, rd.killed⟩], s, Reader.idle)
  else if s.r = s.w then
    if rd.killed then ([.ret ⟨rd.target, -1, rd.got, false, true⟩], s, Reader.idle)
    else ([], s, { rd with pc := .sleeping })
  else
    let c := s.buf (slot INPUT_BUF s.r)
    let s := { s with r := s.r + 1 }
    if c = C 'D' then
      -- a `^D` after some bytes is put back for the next read
      if rd.n < rd.target then
        ([.ret ⟨rd.target, rd.target - rd.n, rd.got, false, rd.killed⟩], { s with r := s.r - 1 },
          Reader.idle)
      else ([.take c, .ret ⟨rd.target, rd.target - rd.n, rd.got, true, rd.killed⟩], s, Reader.idle)
    else if !ok then
      ([.take c, .ret ⟨rd.target, rd.target - rd.n, rd.got, false, rd.killed⟩], s, Reader.idle)
    else
      let rd := { rd with n := rd.n - 1, got := rd.got ++ [c] }
      if c = '\n'.toUInt8 then
        ([.take c, .ret ⟨rd.target, rd.target - rd.n, rd.got, false, rd.killed⟩], s, Reader.idle)
      else ([.take c], s, rd)

/-- The console and the one read in progress. -/
structure Sys where
  cons : Cons
  reader : Reader

/-- One step: an interrupt (only while no read holds the lock), the start of
a read by a process killed or not, a pass of its loop, whose copy out
succeeds, its wakeup, or the kill of its process. -/
inductive Step : Sys → List Label → Sys → Prop
  | consoleintr (s : Sys) (c : UInt8) (h : s.reader.pc ≠ .running) :
      Step s [.key c] { s with cons := consoleintr s.cons c }
  | read (s : Sys) (n : Int) (killed : Bool) (h : s.reader.pc = .idle) :
      Step s [] { s with reader := ⟨.running, n, n, [], killed⟩ }
  | pass (s : Sys) (h : s.reader.pc = .running) :
      Step s (consoleread true s.cons s.reader).1
        ⟨(consoleread true s.cons s.reader).2.1, (consoleread true s.cons s.reader).2.2⟩
  | wakeup (s : Sys) (h : s.reader.pc = .sleeping) :
      Step s [] { s with reader := { s.reader with pc := .running } }
  | kill (s : Sys) : Step s [] { s with reader := { s.reader with killed := true } }

inductive Run : Sys → List Label → Sys → Prop
  | refl (s : Sys) : Run s [] s
  | step {s s' s'' : Sys} {ls l : List Label} : Run s ls s' → Step s' l s'' → Run s (ls ++ l) s''

/-- The reads that returned along a run, in order. -/
def readsOf (ls : List Label) : List Read :=
  ls.filterMap fun
    | .ret x => some x
    | _ => none

/-- What a read took from the committed characters: its bytes, and the `^D`
it took. -/
def Read.segment (x : Read) : List UInt8 := x.bytes ++ if x.eof then [C 'D'] else []

/-! ## The reference editor -/

/-- The committed characters, with each `^D` kept as an end-of-file mark; the
line being edited; how many committed characters the reader has taken. -/
structure Editor where
  out : List UInt8
  line : List UInt8
  rd : Nat

def Editor.start : Editor := ⟨[], [], 0⟩

/-- Unread characters: committed and not taken, and the line. -/
def Editor.unread (E : Editor) : Nat := E.out.length - E.rd + E.line.length

/-- The editor as stated: `^U` kills the line, `^H` and DEL erase its last
character; otherwise a character is ignored if it is `0` or `INPUT_BUF`
characters are unread, `'\r'` becomes `'\n'`, and the line is committed on
`'\n'`, on `^D`, or when the buffer fills. -/
def Editor.edit (E : Editor) (c : UInt8) : Editor :=
  if c = C 'U' then { E with line := [] }
  else if c = C 'H' ∨ c = '\x7f'.toUInt8 then { E with line := E.line.dropLast }
  else if c = 0 ∨ INPUT_BUF ≤ E.unread then E
  else
    let c := if c = '\r'.toUInt8 then '\n'.toUInt8 else c
    if c = '\n'.toUInt8 ∨ c = C 'D' ∨ E.unread + 1 = INPUT_BUF then
      { E with out := E.out ++ (E.line ++ [c]), line := [] }
    else { E with line := E.line ++ [c] }

/-- The console's editor: the stated one, with `^P` ignored. -/
def Editor.key (E : Editor) (c : UInt8) : Editor := if c = C 'P' then E else E.edit c

/-- The editor's output: the committed characters, each `^D` an end of file
and no character. -/
def Editor.output (E : Editor) : List UInt8 := E.out.filter (· != C 'D')

/-- The editor along a run's labels, with `f` for a key press. -/
def Editor.step (f : Editor → UInt8 → Editor) (E : Editor) : Label → Editor
  | .key c => f E c
  | .take _ => { E with rd := E.rd + 1 }
  | .ret _ => E

def editorRun (f : Editor → UInt8 → Editor) (ls : List Label) : Editor :=
  ls.foldl (Editor.step f) Editor.start

/-! ## The labels of a run -/

@[simp] theorem readsOf_nil : readsOf [] = [] := rfl

@[simp] theorem readsOf_append (ls ls' : List Label) :
    readsOf (ls ++ ls') = readsOf ls ++ readsOf ls' := by
  simp [readsOf, List.filterMap_append]

@[simp] theorem readsOf_key (c : UInt8) : readsOf [.key c] = [] := rfl

@[simp] theorem readsOf_take (c : UInt8) : readsOf [.take c] = [] := rfl

@[simp] theorem readsOf_ret (x : Read) : readsOf [.ret x] = [x] := rfl

@[simp] theorem readsOf_cons_take (c : UInt8) (ls : List Label) :
    readsOf (.take c :: ls) = readsOf ls := rfl

theorem editorRun_append (f : Editor → UInt8 → Editor) (ls ls' : List Label) :
    editorRun f (ls ++ ls') = ls'.foldl (Editor.step f) (editorRun f ls) := by
  rw [editorRun, editorRun, List.foldl_append]

@[simp] theorem segment_of_not_eof (x : Read) (h : x.eof = false) : x.segment = x.bytes := by
  simp [Read.segment, h]

/-! ## What `consoleintr` does, one kind of character at a time -/

section Intr

variable {s : Cons} {c : UInt8}

/-- The characters that `consoleintr` stores (or drops when the ring is full). -/
def Plain (c : UInt8) : Prop := c ≠ C 'P' ∧ c ≠ C 'U' ∧ ¬ (c = C 'H' ∨ c = '\x7f'.toUInt8)

theorem consoleintr_ctrlP (s : Cons) : consoleintr s (C 'P') = s := by
  rw [consoleintr, if_pos rfl]

theorem consoleintr_ctrlU (s : Cons) :
    consoleintr s (C 'U') = { s with e := killLine s.buf s.w s.e } := by
  rw [consoleintr, if_neg (by decide), if_pos rfl]

theorem consoleintr_erase (hc : c = C 'H' ∨ c = '\x7f'.toUInt8) :
    consoleintr s c = if s.e ≠ s.w then { s with e := s.e - 1 } else s := by
  have hP : c ≠ C 'P' := by rcases hc with rfl | rfl <;> decide
  have hU : c ≠ C 'U' := by rcases hc with rfl | rfl <;> decide
  rw [consoleintr, if_neg hP, if_neg hU, if_pos hc]

theorem consoleintr_plain (hc : Plain c) :
    consoleintr s c =
      if c ≠ 0 ∧ s.e - s.r < INPUT_BUF.toUInt32 then
        let c := if c = '\r'.toUInt8 then '\n'.toUInt8 else c
        let s := { s with buf := Function.update s.buf (slot INPUT_BUF s.e) c, e := s.e + 1 }
        if c = '\n'.toUInt8 ∨ c = C 'D' ∨ s.e = s.r + INPUT_BUF.toUInt32 then { s with w := s.e } else s
      else s := by
  rw [consoleintr, if_neg hc.1, if_neg hc.2.1, if_neg hc.2.2]

theorem key_ctrlP (E : Editor) : E.key (C 'P') = E := by
  rw [Editor.key, if_pos rfl]

theorem key_ctrlU (E : Editor) : E.key (C 'U') = { E with line := [] } := by
  rw [Editor.key, if_neg (by decide), Editor.edit, if_pos rfl]

theorem key_erase {E : Editor} (hc : c = C 'H' ∨ c = '\x7f'.toUInt8) :
    E.key c = { E with line := E.line.dropLast } := by
  have hP : c ≠ C 'P' := by rcases hc with rfl | rfl <;> decide
  have hU : c ≠ C 'U' := by rcases hc with rfl | rfl <;> decide
  rw [Editor.key, if_neg hP, Editor.edit, if_neg hU, if_pos hc]

theorem key_plain {E : Editor} (hc : Plain c) :
    E.key c =
      if c = 0 ∨ INPUT_BUF ≤ E.unread then E
      else
        let c := if c = '\r'.toUInt8 then '\n'.toUInt8 else c
        if c = '\n'.toUInt8 ∨ c = C 'D' ∨ E.unread + 1 = INPUT_BUF then
          { E with out := E.out ++ (E.line ++ [c]), line := [] }
        else { E with line := E.line ++ [c] } := by
  rw [Editor.key, if_neg hc.1, Editor.edit, if_neg hc.2.1, if_neg hc.2.2]

end Intr

/-! ## The `C('U')` loop -/

section KillLine

variable {buf : Fin INPUT_BUF → UInt8} {w : UInt32}

/-- The loop only moves `e` back towards `w`. -/
theorem killLine_sub_le (e : UInt32) : (killLine buf w e - w).toNat ≤ (e - w).toNat := by
  fun_induction killLine buf w e with
  | case1 e h ih =>
    rw [toNat_sub_one_sub h.1] at ih
    omega
  | case2 e h => exact Nat.le_refl _

/-- Over a line with no newline, the loop backs `e` up to `w`. -/
theorem killLine_of_window : ∀ (k : Nat) (e : UInt32), (e - w).toNat = k →
    '\n'.toUInt8 ∉ window buf w k → killLine buf w e = w
  | 0, e, hk, _ => by
    have hew : e = w := toNat_sub_eq_zero_iff.mp hk
    rw [killLine, dif_neg (fun h => h.1 hew), hew]
  | k + 1, e, hk, hnl => by
    have hew : e ≠ w := fun h => by rw [h, UInt32.sub_self] at hk; simp at hk
    -- the character before `e` is the window's last
    have hlast : e - 1 = w + k.toUInt32 := by
      rw [← add_toNat_sub w e, hk, Nat.toUInt32_eq, Nat.toUInt32_eq, UInt32.ofNat_add,
        UInt32.ofNat_one, ← UInt32.add_assoc, UInt32.add_sub_cancel]
    rw [window_succ, List.mem_append, not_or, List.mem_singleton] at hnl
    rw [killLine, dif_pos ⟨hew, by rw [hlast]; exact Ne.symm hnl.2⟩]
    exact killLine_of_window k (e - 1) (by rw [toNat_sub_one_sub hew, hk]; rfl) hnl.1

end KillLine

/-! ## The ring implements the editor -/

/-- The ring holds the editor's state: from `r` to `w` the committed characters
not yet taken, from `w` to `e` the line, all within one ring; the line has no
newline and no `^D`, since either commits it. -/
structure Sim (s : Cons) (E : Editor) : Prop where
  rd_le : E.rd ≤ E.out.length
  unread_le : E.unread ≤ INPUT_BUF
  newline_not_mem : '\n'.toUInt8 ∉ E.line
  eof_not_mem : C 'D' ∉ E.line
  committed : (s.w - s.r).toNat = E.out.length - E.rd
  editing : (s.e - s.w).toNat = E.line.length
  queue : window s.buf s.r (E.out.length - E.rd) = E.out.drop E.rd
  lineBuf : window s.buf s.w E.line.length = E.line

theorem sim_start (buf : Fin INPUT_BUF → UInt8) (x : UInt32) : Sim ⟨buf, x, x, x⟩ Editor.start where
  rd_le := Nat.le_refl _
  unread_le := by decide
  newline_not_mem := List.not_mem_nil
  eof_not_mem := List.not_mem_nil
  committed := by simp [Editor.start]
  editing := by simp [Editor.start]
  queue := rfl
  lineBuf := rfl

section Sim

variable {s : Cons} {E : Editor}

/-- `e - r` counts the unread characters. -/
theorem Sim.toNat_e_sub_r (h : Sim s E) : (s.e - s.r).toNat = E.unread := by
  have hsum : (s.w - s.r).toNat + (s.e - s.w).toNat < 2 ^ 32 := by
    have hu := h.unread_le
    rw [h.committed, h.editing]
    unfold Editor.unread INPUT_BUF at hu
    omega
  rw [toNat_sub_add_sub hsum, h.committed, h.editing]
  rfl

/-- `e` is `w` moved past the line, and `r` moved past everything unread. -/
theorem Sim.e_eq (h : Sim s E) : s.e = s.w + E.line.length.toUInt32 := by
  rw [← h.editing, add_toNat_sub]

theorem Sim.e_eq' (h : Sim s E) : s.e = s.r + E.unread.toUInt32 := by
  rw [← h.toNat_e_sub_r, add_toNat_sub]

theorem Sim.w_eq (h : Sim s E) : s.w = s.r + (E.out.length - E.rd).toUInt32 := by
  rw [← h.committed, add_toNat_sub]

/-- `^U`: the loop stops at `w`, and the line is gone. -/
theorem Sim.kill (h : Sim s E) : Sim { s with e := killLine s.buf s.w s.e } { E with line := [] } := by
  have hkill : killLine s.buf s.w s.e = s.w :=
    killLine_of_window _ s.e h.editing (by rw [h.lineBuf]; exact h.newline_not_mem)
  have hu := h.unread_le
  refine ⟨h.rd_le, ?_, List.not_mem_nil, List.not_mem_nil, h.committed, ?_, h.queue, rfl⟩
  · unfold Editor.unread at hu ⊢
    simp only [List.length_nil]
    omega
  · simp [hkill]

/-- `^H` or DEL past `w`: the line's last character is gone. -/
theorem Sim.erase (h : Sim s E) (hew : s.e ≠ s.w) :
    Sim { s with e := s.e - 1 } { E with line := E.line.dropLast } := by
  have hlen : E.line.length ≠ 0 := by
    rw [← h.editing]
    exact (toNat_sub_eq_zero_iff).not.mpr hew
  obtain ⟨k, hk⟩ := Nat.exists_eq_add_one_of_ne_zero hlen
  have hu := h.unread_le
  have hwin := h.lineBuf
  rw [hk, window_succ] at hwin
  refine ⟨h.rd_le, ?_, fun hm => h.newline_not_mem (List.dropLast_subset _ hm),
    fun hm => h.eof_not_mem (List.dropLast_subset _ hm), h.committed, ?_, h.queue, ?_⟩
  · unfold Editor.unread at hu ⊢
    simp only [List.length_dropLast]
    omega
  · simp only [List.length_dropLast]
    rw [toNat_sub_one_sub hew, h.editing]
  · simp only [List.length_dropLast, hk, Nat.add_sub_cancel]
    rw [← hwin, List.dropLast_concat]

/-- A stored character that does not commit extends the line. -/
theorem Sim.push (h : Sim s E) (hroom : E.unread < INPUT_BUF) {c : UInt8}
    (hnl : c ≠ '\n'.toUInt8) (heof : c ≠ C 'D') :
    Sim ⟨Function.update s.buf (slot INPUT_BUF s.e) c, s.r, s.w, s.e + 1⟩
      { E with line := E.line ++ [c] } := by
  have hu : E.out.length - E.rd + E.line.length < INPUT_BUF := hroom
  refine ⟨h.rd_le, ?_, ?_, ?_, h.committed, ?_, ?_, ?_⟩
  · unfold Editor.unread
    simp only [List.length_append, List.length_singleton]
    omega
  · simpa [List.mem_append] using ⟨h.newline_not_mem, Ne.symm hnl⟩
  · simpa [List.mem_append] using ⟨h.eof_not_mem, Ne.symm heof⟩
  · simp only [List.length_append, List.length_singleton]
    rw [toNat_add_one_sub (by rw [h.editing]; unfold INPUT_BUF at hu; omega), h.editing]
  · -- the write is past the committed characters
    dsimp only
    rw [h.e_eq', Editor.unread, window_update_of_le INPUT_BUF_dvd _ _ _ (Nat.le_add_right _ _) hu]
    exact h.queue
  · dsimp only
    rw [List.length_append, List.length_singleton, h.e_eq,
      window_push INPUT_BUF_dvd _ _ _ (by omega), h.lineBuf]

/-- A stored character that commits: the line and the character join the
committed characters. -/
theorem Sim.commit (h : Sim s E) (hroom : E.unread < INPUT_BUF) (c : UInt8) :
    Sim ⟨Function.update s.buf (slot INPUT_BUF s.e) c, s.r, s.e + 1, s.e + 1⟩
      { E with out := E.out ++ (E.line ++ [c]), line := [] } := by
  have hu : E.out.length - E.rd + E.line.length < INPUT_BUF := hroom
  have hrd := h.rd_le
  have hlen : (E.out ++ (E.line ++ [c])).length - E.rd =
      (E.out.length - E.rd) + (E.line.length + 1) := by
    simp only [List.length_append, List.length_singleton]
    omega
  refine ⟨by simp only [List.length_append]; omega, ?_, List.not_mem_nil, List.not_mem_nil,
    ?_, by simp, ?_, rfl⟩
  · unfold Editor.unread
    rw [hlen, List.length_nil]
    omega
  · dsimp only
    have hlt : (s.e - s.r).toNat + 1 < 2 ^ 32 := by
      rw [h.toNat_e_sub_r]
      unfold INPUT_BUF at hroom
      omega
    rw [hlen, toNat_add_one_sub hlt, h.toNat_e_sub_r, Editor.unread, Nat.add_assoc]
  · -- the committed characters, then the line with the new character at its end
    dsimp only
    rw [hlen, window_add, ← h.w_eq, h.e_eq, window_push INPUT_BUF_dvd _ _ _ (by omega),
      h.lineBuf, ← h.e_eq, h.e_eq', Editor.unread,
      window_update_of_le INPUT_BUF_dvd _ _ _ (Nat.le_add_right _ _) hu, h.queue,
      List.drop_append_of_le_length hrd]

/-- The ring fills exactly when the editor's buffer does. -/
theorem Sim.full_iff (h : Sim s E) (hroom : E.unread < INPUT_BUF) :
    s.e + 1 = s.r + INPUT_BUF.toUInt32 ↔ E.unread + 1 = INPUT_BUF := by
  rw [h.e_eq', ← UInt32.toNat_inj]
  simp only [UInt32.toNat_add, UInt32.toNat_one, Nat.toUInt32_eq, UInt32.toNat_ofNat']
  have := s.r.toNat_lt
  unfold INPUT_BUF at hroom ⊢
  omega

theorem Sim.room_iff (h : Sim s E) : s.e - s.r < INPUT_BUF.toUInt32 ↔ E.unread < INPUT_BUF := by
  rw [UInt32.lt_iff_toNat_lt, h.toNat_e_sub_r]
  rfl

/-- An interrupt keeps the ring and the console's editor together. -/
theorem Sim.consoleintr (h : Sim s E) (c : UInt8) : Sim (consoleintr s c) (E.key c) := by
  by_cases hP : c = C 'P'
  · rw [hP, consoleintr_ctrlP, key_ctrlP]
    exact h
  by_cases hU : c = C 'U'
  · rw [hU, consoleintr_ctrlU, key_ctrlU]
    exact h.kill
  by_cases hH : c = C 'H' ∨ c = '\x7f'.toUInt8
  · rw [consoleintr_erase hH, key_erase hH]
    by_cases hew : s.e = s.w
    · -- nothing to erase: the line is empty
      have hnil : E.line = [] := List.eq_nil_of_length_eq_zero (by
        rw [← h.editing, hew, UInt32.sub_self]
        rfl)
      rw [if_neg (not_not.mpr hew), hnil, List.dropLast_nil, ← hnil]
      exact h
    · rw [if_pos hew]
      exact h.erase hew
  have hc : Plain c := ⟨hP, hU, hH⟩
  rw [consoleintr_plain hc, key_plain hc]
  by_cases hstore : c ≠ 0 ∧ E.unread < INPUT_BUF
  · rw [if_pos ⟨hstore.1, h.room_iff.mpr hstore.2⟩,
      if_neg (show ¬(c = 0 ∨ INPUT_BUF ≤ E.unread) from
        fun h0 => h0.elim hstore.1 (Nat.not_le.mpr hstore.2))]
    dsimp only
    simp only [h.full_iff hstore.2]
    generalize (if c = '\r'.toUInt8 then '\n'.toUInt8 else c) = c'
    by_cases hcommit : c' = '\n'.toUInt8 ∨ c' = C 'D' ∨ E.unread + 1 = INPUT_BUF
    · rw [if_pos hcommit, if_pos hcommit]
      exact h.commit hstore.2 c'
    · rw [if_neg hcommit, if_neg hcommit]
      exact h.push hstore.2 (fun e => hcommit (.inl e)) (fun e => hcommit (.inr (.inl e)))
  · -- `0`, or the buffer is full: ignored
    have hdrop : c = 0 ∨ INPUT_BUF ≤ E.unread := by
      by_cases h0 : c = 0
      · exact .inl h0
      · exact .inr (Nat.not_lt.mp fun hlt => hstore ⟨h0, hlt⟩)
    rw [if_neg (show ¬(c ≠ 0 ∧ s.e - s.r < INPUT_BUF.toUInt32) from
      fun hr => hstore ⟨hr.1, h.room_iff.mp hr.2⟩), if_pos hdrop]
    exact h

/-- The reader takes the oldest committed character, which is the editor's
next one. -/
theorem Sim.take (h : Sim s E) (hrw : s.r ≠ s.w) :
    Sim { s with r := s.r + 1 } { E with rd := E.rd + 1 } ∧
      E.out.take (E.rd + 1) = E.out.take E.rd ++ [s.buf (slot INPUT_BUF s.r)] := by
  have hq : E.out.length - E.rd ≠ 0 := by
    rw [← h.committed]
    exact toNat_sub_eq_zero_iff.not.mpr (Ne.symm hrw)
  obtain ⟨q, hq'⟩ := Nat.exists_eq_add_one_of_ne_zero hq
  have hwin := h.queue
  rw [hq', window_succ_left, List.drop_eq_getElem_cons (by omega), List.cons.injEq] at hwin
  have hu := h.unread_le
  refine ⟨⟨show E.rd + 1 ≤ E.out.length by omega, ?_, h.newline_not_mem, h.eof_not_mem, ?_,
    h.editing, ?_, h.lineBuf⟩, ?_⟩
  · show E.out.length - (E.rd + 1) + E.line.length ≤ INPUT_BUF
    unfold Editor.unread at hu
    omega
  · dsimp only
    rw [toNat_sub_add_one (Ne.symm hrw), h.committed]
    omega
  · dsimp only
    rw [show E.out.length - (E.rd + 1) = q by omega, hwin.2]
  · rw [List.take_add_one, List.getElem?_eq_getElem (by omega), hwin.1]
    rfl

end Sim

/-! ## What a pass of `consoleread` does -/

section Read

variable {ok : Bool} {s : Cons} {rd : Reader}

theorem consoleread_of_nonpos (h : rd.n ≤ 0) :
    consoleread ok s rd =
      ([.ret ⟨rd.target, rd.target - rd.n, rd.got, false, rd.killed⟩], s, Reader.idle) := by
  rw [consoleread, if_pos h]

/-- Nothing committed and the process killed: the read returns `-1`. -/
theorem consoleread_of_killed (h : 0 < rd.n) (hrw : s.r = s.w) (hk : rd.killed = true) :
    consoleread ok s rd = ([.ret ⟨rd.target, -1, rd.got, false, true⟩], s, Reader.idle) := by
  rw [consoleread, if_neg (Int.not_le.mpr h), if_pos hrw, if_pos hk]

theorem consoleread_of_empty (h : 0 < rd.n) (hrw : s.r = s.w) (hk : rd.killed = false) :
    consoleread ok s rd = ([], s, { rd with pc := .sleeping }) := by
  rw [consoleread, if_neg (Int.not_le.mpr h), if_pos hrw, if_neg (by rw [hk]; exact nofun)]

/-- A `^D` after some bytes: `r++` and `r--`, and the read returns them. -/
theorem consoleread_of_eof_put_back (h : 0 < rd.n) (hrw : s.r ≠ s.w)
    (hc : s.buf (slot INPUT_BUF s.r) = C 'D') (hlt : rd.n < rd.target) :
    consoleread ok s rd =
      ([.ret ⟨rd.target, rd.target - rd.n, rd.got, false, rd.killed⟩], s, Reader.idle) := by
  rw [consoleread, if_neg (Int.not_le.mpr h), if_neg hrw]
  simp [hc, hlt]

/-- A `^D` first: the read takes it and returns nothing. -/
theorem consoleread_of_eof_take (h : 0 < rd.n) (hrw : s.r ≠ s.w)
    (hc : s.buf (slot INPUT_BUF s.r) = C 'D') (hge : ¬ rd.n < rd.target) :
    consoleread ok s rd =
      ([.take (C 'D'), .ret ⟨rd.target, rd.target - rd.n, rd.got, true, rd.killed⟩],
        { s with r := s.r + 1 }, Reader.idle) := by
  rw [consoleread, if_neg (Int.not_le.mpr h), if_neg hrw]
  simp [hc, hge]

theorem consoleread_of_newline (h : 0 < rd.n) (hrw : s.r ≠ s.w)
    (hc : s.buf (slot INPUT_BUF s.r) = '\n'.toUInt8) :
    consoleread true s rd =
      ([.take '\n'.toUInt8,
        .ret ⟨rd.target, rd.target - (rd.n - 1), rd.got ++ ['\n'.toUInt8], false, rd.killed⟩],
        { s with r := s.r + 1 }, Reader.idle) := by
  rw [consoleread, if_neg (Int.not_le.mpr h), if_neg hrw]
  simp [hc, show '\n'.toUInt8 ≠ C 'D' by decide]

theorem consoleread_of_char (h : 0 < rd.n) (hrw : s.r ≠ s.w)
    (hD : s.buf (slot INPUT_BUF s.r) ≠ C 'D') (hnl : s.buf (slot INPUT_BUF s.r) ≠ '\n'.toUInt8) :
    consoleread true s rd =
      ([.take (s.buf (slot INPUT_BUF s.r))], { s with r := s.r + 1 },
        { rd with n := rd.n - 1, got := rd.got ++ [s.buf (slot INPUT_BUF s.r)] }) := by
  rw [consoleread, if_neg (Int.not_le.mpr h), if_neg hrw]
  simp [hD, hnl]

end Read

/-! ## The run invariant -/

/-- What each read that returned did: its result is the number of bytes it
copied out, or `-1` when its process was killed; it copied out at most its
`n`; a newline can only be its last byte; it never copies out a `^D`, and it
takes one only when it copies out nothing. -/
structure Read.Ok (x : Read) : Prop where
  ret_eq : x.ret = x.bytes.length ∨ (x.killed = true ∧ x.ret = -1)
  length_le : x.bytes.length ≤ x.n.toNat
  newline_last : '\n'.toUInt8 ∉ x.bytes.dropLast
  eof_not_mem : C 'D' ∉ x.bytes
  eof_empty : x.eof = true → x.bytes = []

theorem key_rd (E : Editor) (c : UInt8) : (E.key c).rd = E.rd := by
  simp only [Editor.key, Editor.edit]
  repeat' split
  all_goals rfl

/-- A key press only ever adds committed characters. -/
theorem out_prefix_key (E : Editor) (c : UInt8) : E.out <+: (E.key c).out := by
  simp only [Editor.key, Editor.edit]
  repeat' split
  all_goals simp [List.prefix_append]

/-- The ring and the editor agree, the reads so far and the bytes of the read
in progress are what the reader took from the committed characters, and the
read in progress has copied out no newline and no `^D`. -/
structure Inv (s : Sys) (ls : List Label) : Prop where
  sim : Sim s.cons (editorRun Editor.key ls)
  consumed : (readsOf ls).flatMap Read.segment ++ s.reader.got =
    (editorRun Editor.key ls).out.take (editorRun Editor.key ls).rd
  idle_got : s.reader.pc = .idle → s.reader.got = []
  got_newline : '\n'.toUInt8 ∉ s.reader.got
  got_eof : C 'D' ∉ s.reader.got
  count : (s.reader.got.length : Int) = s.reader.target - s.reader.n
  got_nonneg : s.reader.got = [] ∨ 0 ≤ s.reader.n
  reads : ∀ x ∈ readsOf ls, x.Ok

/-- A step that returned one read keeps every read good. -/
theorem reads_ok_append {ls l : List Label} {y : Read} (h : ∀ x ∈ readsOf ls, x.Ok)
    (hl : readsOf l = [y]) (hy : y.Ok) : ∀ x ∈ readsOf (ls ++ l), x.Ok := by
  intro x hx
  rw [readsOf_append, hl, List.mem_append, List.mem_singleton] at hx
  rcases hx with hx | rfl
  · exact h x hx
  · exact hy

theorem inv_start (buf : Fin INPUT_BUF → UInt8) (x : UInt32) : Inv ⟨⟨buf, x, x, x⟩, Reader.idle⟩ [] where
  sim := sim_start buf x
  consumed := rfl
  idle_got := fun _ => rfl
  got_newline := List.not_mem_nil
  got_eof := List.not_mem_nil
  count := rfl
  got_nonneg := .inl rfl
  reads := by simp

section Steps

variable {s : Sys} {ls : List Label}

theorem Inv.consoleintr (h : Inv s ls) (c : UInt8) :
    Inv { s with cons := consoleintr s.cons c } (ls ++ [.key c]) := by
  have hE : editorRun Editor.key (ls ++ [.key c]) = (editorRun Editor.key ls).key c := by
    rw [editorRun_append]
    rfl
  obtain ⟨t, ht⟩ := out_prefix_key (editorRun Editor.key ls) c
  refine ⟨hE ▸ h.sim.consoleintr c, ?_, h.idle_got, h.got_newline, h.got_eof, h.count,
    h.got_nonneg, by simpa using h.reads⟩
  rw [hE, key_rd, ← ht, List.take_append_of_le_length h.sim.rd_le, ← h.consumed]
  simp

theorem Inv.read (h : Inv s ls) (hpc : s.reader.pc = .idle) (n : Int) (killed : Bool) :
    Inv { s with reader := ⟨.running, n, n, [], killed⟩ } (ls ++ []) := by
  rw [List.append_nil]
  refine ⟨h.sim, ?_, nofun, List.not_mem_nil, List.not_mem_nil, by simp, .inl rfl, h.reads⟩
  rw [← h.consumed, h.idle_got hpc]

theorem Inv.wakeup (h : Inv s ls) :
    Inv { s with reader := { s.reader with pc := .running } } (ls ++ []) := by
  rw [List.append_nil]
  exact ⟨h.sim, h.consumed, nofun, h.got_newline, h.got_eof, h.count, h.got_nonneg, h.reads⟩

theorem Inv.sleep (h : Inv s ls) :
    Inv ⟨s.cons, { s.reader with pc := .sleeping }⟩ (ls ++ []) := by
  rw [List.append_nil]
  exact ⟨h.sim, h.consumed, nofun, h.got_newline, h.got_eof, h.count, h.got_nonneg, h.reads⟩

theorem Inv.kill (h : Inv s ls) :
    Inv { s with reader := { s.reader with killed := true } } (ls ++ []) := by
  rw [List.append_nil]
  exact ⟨h.sim, h.consumed, h.idle_got, h.got_newline, h.got_eof, h.count, h.got_nonneg, h.reads⟩

/-- The read returns the bytes it copied, with their count or, its process
killed, with `-1`, taking nothing more. -/
theorem Inv.ret (h : Inv s ls) (hle : s.reader.got.length ≤ s.reader.target.toNat) {r : Int}
    {k : Bool} (hr : r = s.reader.target - s.reader.n ∨ (k = true ∧ r = -1)) :
    Inv ⟨s.cons, Reader.idle⟩ (ls ++ [.ret ⟨s.reader.target, r, s.reader.got, false, k⟩]) := by
  have hE : editorRun Editor.key (ls ++ [.ret ⟨s.reader.target, r, s.reader.got, false, k⟩]) =
      editorRun Editor.key ls := by
    rw [editorRun_append]
    rfl
  have hok : Read.Ok ⟨s.reader.target, r, s.reader.got, false, k⟩ :=
    ⟨hr.imp_left fun hr' => hr'.trans h.count.symm, hle, fun hm => h.got_newline (List.dropLast_subset _ hm),
      h.got_eof, nofun⟩
  refine ⟨hE ▸ h.sim, ?_, fun _ => rfl, List.not_mem_nil, List.not_mem_nil, rfl, .inl rfl, ?_⟩
  · rw [hE, ← h.consumed]
    simp [Reader.idle]
  · exact reads_ok_append h.reads rfl hok

/-- A `^D` first: the read takes it and returns nothing. -/
theorem Inv.eof (h : Inv s ls) (hrw : s.cons.r ≠ s.cons.w)
    (hD : s.cons.buf (slot INPUT_BUF s.cons.r) = C 'D') (hge : ¬ s.reader.n < s.reader.target) :
    Inv ⟨{ s.cons with r := s.cons.r + 1 }, Reader.idle⟩
      (ls ++ [.take (C 'D'), .ret ⟨s.reader.target, s.reader.target - s.reader.n, s.reader.got,
        true, s.reader.killed⟩]) := by
  have hE : editorRun Editor.key (ls ++ [.take (C 'D'), .ret ⟨s.reader.target,
      s.reader.target - s.reader.n, s.reader.got, true, s.reader.killed⟩]) =
      { editorRun Editor.key ls with rd := (editorRun Editor.key ls).rd + 1 } := by
    rw [editorRun_append]
    rfl
  -- nothing was copied out before the `^D`
  have hnil : s.reader.got = [] := by
    have := h.count
    exact List.eq_nil_of_length_eq_zero (by omega)
  obtain ⟨hsim, htake⟩ := h.sim.take hrw
  have hok : Read.Ok ⟨s.reader.target, s.reader.target - s.reader.n, s.reader.got, true,
      s.reader.killed⟩ :=
    ⟨.inl h.count.symm, by simp [hnil], by simp [hnil], h.got_eof, fun _ => hnil⟩
  refine ⟨hE ▸ hsim, ?_, fun _ => rfl, List.not_mem_nil, List.not_mem_nil, rfl, .inl rfl, ?_⟩
  · have hc := h.consumed
    rw [hnil, List.append_nil] at hc
    rw [hE]
    simp only [readsOf_append, readsOf_cons_take, readsOf_ret, List.flatMap_append, hc, htake, hD]
    simp [Read.segment, hnil, Reader.idle]
  · exact reads_ok_append h.reads rfl hok

/-- A newline: the read copies it out and returns. -/
theorem Inv.newline (h : Inv s ls) (hn : 0 < s.reader.n) (hrw : s.cons.r ≠ s.cons.w)
    (hnl : s.cons.buf (slot INPUT_BUF s.cons.r) = '\n'.toUInt8) :
    Inv ⟨{ s.cons with r := s.cons.r + 1 }, Reader.idle⟩
      (ls ++ [.take '\n'.toUInt8, .ret ⟨s.reader.target, s.reader.target - (s.reader.n - 1),
        s.reader.got ++ ['\n'.toUInt8], false, s.reader.killed⟩]) := by
  have hE : editorRun Editor.key (ls ++ [.take '\n'.toUInt8, .ret ⟨s.reader.target,
      s.reader.target - (s.reader.n - 1), s.reader.got ++ ['\n'.toUInt8], false,
      s.reader.killed⟩]) =
      { editorRun Editor.key ls with rd := (editorRun Editor.key ls).rd + 1 } := by
    rw [editorRun_append]
    rfl
  obtain ⟨hsim, htake⟩ := h.sim.take hrw
  have hcount := h.count
  have hok : Read.Ok ⟨s.reader.target, s.reader.target - (s.reader.n - 1),
      s.reader.got ++ ['\n'.toUInt8], false, s.reader.killed⟩ := by
    refine ⟨.inl (by simp only [List.length_append, List.length_singleton]; push_cast; omega),
      by simp only [List.length_append, List.length_singleton]; omega, ?_, ?_, nofun⟩
    · simpa only [List.dropLast_concat] using h.got_newline
    · simpa [List.mem_append] using ⟨h.got_eof, by decide⟩
  refine ⟨hE ▸ hsim, ?_, fun _ => rfl, List.not_mem_nil, List.not_mem_nil, rfl, .inl rfl, ?_⟩
  · rw [hE]
    simp only [readsOf_append, readsOf_cons_take, readsOf_ret, List.flatMap_append, htake, hnl,
      ← h.consumed]
    simp [Read.segment, Reader.idle]
  · exact reads_ok_append h.reads rfl hok

/-- Any other character: the read copies it out and goes on. -/
theorem Inv.char (h : Inv s ls) (hpc : s.reader.pc = .running) (hn : 0 < s.reader.n)
    (hrw : s.cons.r ≠ s.cons.w) (hD : s.cons.buf (slot INPUT_BUF s.cons.r) ≠ C 'D')
    (hnl : s.cons.buf (slot INPUT_BUF s.cons.r) ≠ '\n'.toUInt8) :
    Inv ⟨{ s.cons with r := s.cons.r + 1 },
      { s.reader with
        n := s.reader.n - 1
        got := s.reader.got ++ [s.cons.buf (slot INPUT_BUF s.cons.r)] }⟩
      (ls ++ [.take (s.cons.buf (slot INPUT_BUF s.cons.r))]) := by
  have hE : editorRun Editor.key (ls ++ [.take (s.cons.buf (slot INPUT_BUF s.cons.r))]) =
      { editorRun Editor.key ls with rd := (editorRun Editor.key ls).rd + 1 } := by
    rw [editorRun_append]
    rfl
  obtain ⟨hsim, htake⟩ := h.sim.take hrw
  have hcount := h.count
  refine ⟨hE ▸ hsim, ?_, fun hidle => absurd (hpc ▸ hidle) nofun, ?_, ?_, ?_,
    .inr (show 0 ≤ s.reader.n - 1 by omega),
    by simpa using h.reads⟩
  · rw [hE]
    simp only [readsOf_append, readsOf_take, List.append_nil, htake, ← h.consumed,
      List.append_assoc]
  · simpa [List.mem_append] using ⟨h.got_newline, Ne.symm hnl⟩
  · simpa [List.mem_append] using ⟨h.got_eof, Ne.symm hD⟩
  · simp only [List.length_append, List.length_singleton]
    push_cast
    omega

/-- One pass of the read's loop keeps the invariant, whichever way it goes. -/
theorem Inv.pass (h : Inv s ls) (hpc : s.reader.pc = .running) :
    Inv ⟨(consoleread true s.cons s.reader).2.1, (consoleread true s.cons s.reader).2.2⟩
      (ls ++ (consoleread true s.cons s.reader).1) := by
  have hcount := h.count
  by_cases hn : s.reader.n ≤ 0
  · -- `while (n > 0)` is over
    rw [consoleread_of_nonpos hn]
    refine h.ret ?_ (.inl rfl)
    rcases h.got_nonneg with hnil | hnn
    · rw [hnil, List.length_nil]
      exact Nat.zero_le _
    · omega
  have hn' : 0 < s.reader.n := Int.lt_of_not_ge hn
  by_cases hrw : s.cons.r = s.cons.w
  · -- nothing committed: a killed process returns, any other sleeps
    cases hk : s.reader.killed with
    | true =>
      rw [consoleread_of_killed hn' hrw hk]
      exact h.ret (by omega) (.inr ⟨rfl, rfl⟩)
    | false =>
      rw [consoleread_of_empty hn' hrw hk]
      exact h.sleep
  by_cases hD : s.cons.buf (slot INPUT_BUF s.cons.r) = C 'D'
  · by_cases hlt : s.reader.n < s.reader.target
    · rw [consoleread_of_eof_put_back hn' hrw hD hlt]
      exact h.ret (by omega) (.inl rfl)
    · rw [consoleread_of_eof_take hn' hrw hD hlt]
      exact h.eof hrw hD hlt
  by_cases hnl : s.cons.buf (slot INPUT_BUF s.cons.r) = '\n'.toUInt8
  · rw [consoleread_of_newline hn' hrw hnl]
    exact h.newline hn' hrw hnl
  · rw [consoleread_of_char hn' hrw hD hnl]
    exact h.char hpc hn' hrw hD hnl

theorem Inv.step {l : List Label} {s' : Sys} (h : Inv s ls) (hs : Step s l s') : Inv s' (ls ++ l) := by
  cases hs with
  | consoleintr c _ => exact h.consoleintr c
  | read n killed hpc => exact h.read hpc n killed
  | pass hpc => exact h.pass hpc
  | wakeup _ => exact h.wakeup
  | kill => exact h.kill

end Steps

theorem Run.inv {buf : Fin INPUT_BUF → UInt8} {x : UInt32} {ls : List Label} {s : Sys}
    (hrun : Run ⟨⟨buf, x, x, x⟩, Reader.idle⟩ ls s) : Inv s ls := by
  induction hrun with
  | refl => exact inv_start buf x
  | step _ hs ih => exact ih.step hs

/-! ## The line discipline refines the editor -/

/-- `^H`, DEL and `^U` only move `e` back towards `w`: they never touch what
is committed. -/
theorem consoleintr_erase_uncommitted (t : Cons) (c : UInt8)
    (hc : c = C 'H' ∨ c = '\x7f'.toUInt8 ∨ c = C 'U') :
    (consoleintr t c).r = t.r ∧ (consoleintr t c).w = t.w ∧ (consoleintr t c).buf = t.buf ∧
      ((consoleintr t c).e - t.w).toNat ≤ (t.e - t.w).toNat := by
  by_cases hU : c = C 'U'
  · rw [hU, consoleintr_ctrlU]
    exact ⟨rfl, rfl, rfl, killLine_sub_le t.e⟩
  -- `^H` or DEL: one step back, and only past `w`
  have hHD : c = C 'H' ∨ c = '\x7f'.toUInt8 := hc.imp_right fun h => h.resolve_right hU
  rw [consoleintr_erase hHD]
  split
  · rename_i hew
    exact ⟨rfl, rfl, rfl, by rw [toNat_sub_one_sub hew]; omega⟩
  · exact ⟨rfl, rfl, rfl, Nat.le_refl _⟩

/-- Without the `^D` marks, the reads' segments are their bytes. -/
theorem flatten_bytes_eq_filter : ∀ {xs : List Read}, (∀ x ∈ xs, x.Ok) →
    (xs.map Read.bytes).flatten = (xs.flatMap Read.segment).filter (· != C 'D')
  | [], _ => rfl
  | x :: xs, h => by
    have hx := h x List.mem_cons_self
    have hbytes : x.bytes.filter (· != C 'D') = x.bytes :=
      List.filter_eq_self.mpr fun b hb => bne_iff_ne.mpr fun e => hx.eof_not_mem (e ▸ hb)
    have heof : (if x.eof then [C 'D'] else []).filter (· != C 'D') = [] := by
      split <;> simp
    rw [List.map_cons, List.flatten_cons, List.flatMap_cons, List.filter_append, Read.segment,
      List.filter_append, hbytes, heof, List.append_nil,
      flatten_bytes_eq_filter fun y hy => h y (List.mem_cons_of_mem x hy)]

/-- The console's line discipline refines the reference editor that also
ignores `^P`. Over every interleaving of key presses, successive reads and
kills from a console whose three indices start equal: `r ≤ w ≤ e ≤ r +
INPUT_BUF` as unsigned differences; `^H`, DEL and `^U` only remove
uncommitted characters; the bytes the reads copied out, one after the other,
are a prefix of the editor's output, and with the `^D`s they took, a prefix
of what it committed; and each read returns its byte count, or `-1` when its
process was killed, copies out at most its `n` bytes, a newline only last
and never a `^D`, and takes a `^D` only when it copies out nothing. -/
theorem console_refines_editor {buf : Fin INPUT_BUF → UInt8} {x : UInt32} {ls : List Label}
    {s : Sys} (hrun : Run ⟨⟨buf, x, x, x⟩, Reader.idle⟩ ls s) :
    ((s.cons.w - s.cons.r).toNat ≤ (s.cons.e - s.cons.r).toNat ∧
      (s.cons.e - s.cons.r).toNat ≤ INPUT_BUF) ∧
    (∀ (t : Cons) (c : UInt8), c = C 'H' ∨ c = '\x7f'.toUInt8 ∨ c = C 'U' →
      (consoleintr t c).r = t.r ∧ (consoleintr t c).w = t.w ∧ (consoleintr t c).buf = t.buf ∧
        ((consoleintr t c).e - t.w).toNat ≤ (t.e - t.w).toNat) ∧
    ((readsOf ls).map Read.bytes).flatten <+: (editorRun Editor.key ls).output ∧
    (readsOf ls).flatMap Read.segment <+: (editorRun Editor.key ls).out ∧
    ∀ r ∈ readsOf ls, r.Ok := by
  have h := hrun.inv
  -- the reads took a prefix of what was committed
  have hseg : (readsOf ls).flatMap Read.segment <+: (editorRun Editor.key ls).out :=
    List.IsPrefix.trans ⟨s.reader.got, h.consumed⟩ (List.take_prefix _ _)
  refine ⟨⟨?_, ?_⟩, consoleintr_erase_uncommitted, ?_, hseg, h.reads⟩
  · rw [h.sim.committed, h.sim.toNat_e_sub_r, Editor.unread]
    omega
  · rw [h.sim.toNat_e_sub_r]
    exact h.sim.unread_le
  · rw [flatten_bytes_eq_filter h.reads, Editor.output]
    exact hseg.filter _

/-- `a`, `b` and a newline typed and read by a read of 10, which returns 3;
then a read of 5 finds nothing, sleeps, and its process is killed: woken, it
returns `-1`. -/
theorem console_refines_editor_killed_read :
    ∃ ls s, Run ⟨⟨fun _ => 0, 0, 0, 0⟩, Reader.idle⟩ ls s ∧
      readsOf ls = [⟨10, 3, [97, 98, 10], false, false⟩, ⟨5, -1, [], false, true⟩] ∧
      (((s.cons.w - s.cons.r).toNat ≤ (s.cons.e - s.cons.r).toNat ∧
          (s.cons.e - s.cons.r).toNat ≤ INPUT_BUF) ∧
        (∀ (t : Cons) (c : UInt8), c = C 'H' ∨ c = '\x7f'.toUInt8 ∨ c = C 'U' →
          (consoleintr t c).r = t.r ∧ (consoleintr t c).w = t.w ∧ (consoleintr t c).buf = t.buf ∧
            ((consoleintr t c).e - t.w).toNat ≤ (t.e - t.w).toNat) ∧
        ((readsOf ls).map Read.bytes).flatten <+: (editorRun Editor.key ls).output ∧
        (readsOf ls).flatMap Read.segment <+: (editorRun Editor.key ls).out ∧
        ∀ r ∈ readsOf ls, r.Ok) := by
  -- the first read takes the line, one character a pass
  have hrun₁ := (((((((Run.refl (⟨⟨fun _ => 0, 0, 0, 0⟩, Reader.idle⟩ : Sys)).step
    (.consoleintr _ 'a'.toUInt8 (by decide))).step (.consoleintr _ 'b'.toUInt8 (by decide))).step
    (.consoleintr _ '\n'.toUInt8 (by decide))).step (.read _ 10 false rfl)).step
    (.pass _ rfl)).step (.pass _ (by decide))).step (.pass _ (by decide))
  -- the second finds nothing committed, sleeps, is killed and woken
  have hrun₂ := ((((hrun₁.step (.read _ 5 false (by decide))).step (.pass _ rfl)).step
    (.kill _)).step (.wakeup _ (by decide))).step (.pass _ (by decide))
  exact ⟨_, _, hrun₂, by decide, console_refines_editor hrun₂⟩

/-- The editor as stated stores `^P`; the console does not. Typing `a`, `^P`
and a newline, then reading, returns `a\n`, while the stated editor's output
is `a`, `^P`, `\n`. -/
theorem console_ctrlP_breaks_stated_editor :
    ∃ ls s, Run ⟨⟨fun _ => 0, 0, 0, 0⟩, Reader.idle⟩ ls s ∧
      ¬ ((readsOf ls).map Read.bytes).flatten <+: (editorRun Editor.edit ls).output := by
  refine ⟨_, _, ((((((Run.refl _).step (.consoleintr _ 'a'.toUInt8 (by decide))).step
    (.consoleintr _ (C 'P') (by decide))).step (.consoleintr _ '\n'.toUInt8 (by decide))).step
    (.read _ 10 false rfl)).step (.pass _ rfl)).step (.pass _ (by decide)), ?_⟩
  decide

/-! ## A copy that fails -/

end Console

end Xv6
