import Xv6.Fs.Sysfile

/-!
# Writes through a shared offset (`filewrite` in `kernel/file.c`)

Processes that share one `FD_INODE` `struct file`, after `fork` or `dup`,
share its `off`. `filewrite` writes in chunks of at most `maxChunk` bytes;
each chunk runs under the inode's sleep-lock, which covers reading `f->off`,
`writei` at it and advancing it. So a chunk is one atomic step here, and the
chunks of all the calls interleave in any order.

The file is its bytes. `writei` keeps the checks of `fs.c` (`off` past the
size, or past `MAXFILE * BSIZE`, fails with `-1`); with every copy
succeeding it puts the chunk's bytes at `off`, growing the file when it
writes past the end, and returns their count.

The result (`shared_offset_chunks_tile`): the chunks land one after the
other from the first offset, so together they fill `[off₀, off₀ + total)`
exactly, the offset ends at `off₀ + total`, each chunk's bytes are in the
file where it wrote them, and each chunk is one piece of one call's bytes.
-/

namespace Xv6

namespace Filewrite

open Fs

/-- `writei` on the file's bytes, every copy succeeding. -/
def writei (content : List UInt8) (off : Nat) (bytes : List UInt8) : Int × List UInt8 :=
  if content.length < off ∨ MAXFILE * BSIZE < off + bytes.length then (-1, content)
  else (bytes.length, content.take off ++ bytes ++ content.drop (off + bytes.length))

/-- A `filewrite` call: its bytes, how many it has written, and its result
once it has returned. -/
structure Call where
  src : List UInt8
  i : Nat
  ret : Option Int

/-- The shared `struct file`'s offset, the file's bytes, and the calls. -/
structure Sys where
  off : Nat
  content : List UInt8
  calls : List Call

/-- A chunk that wrote: the call, where in the call's bytes it starts, the
offset it wrote at, and its bytes. -/
structure Chunk where
  call : Nat
  start : Nat
  off : Nat
  bytes : List UInt8

/-- One turn of `filewrite`'s loop by call `k`: a chunk under the lock, or
the return once all bytes are written. `.error` is the `short filewrite`
panic. -/
def turn (s : Sys) (k : Nat) (c : Call) : Except String (Option Chunk × Sys) :=
  if c.ret.isSome then pure (none, s)
  else if c.i < c.src.length then
    let n1 := min (c.src.length - c.i) maxChunk
    let bytes := (c.src.drop c.i).take n1
    let (r, content) := writei s.content s.off bytes
    let s' := if r > 0 then { s with off := s.off + r.toNat, content } else { s with content }
    let chunk := if r > 0 then some ⟨k, c.i, s.off, bytes⟩ else none
    if r < 0 then pure (chunk, { s' with calls := s.calls.set k { c with ret := some (-1) } })
    else if r ≠ n1 then throw "short filewrite"
    else pure (chunk, { s' with calls := s.calls.set k { c with i := c.i + r.toNat } })
  else
    pure (none, { s with calls := s.calls.set k { c with ret := some c.src.length } })

/-- One step: a turn of a call, or a new `write` on the shared file. -/
inductive Step : Sys → Option Chunk → Sys → Prop
  | turn {s s' : Sys} {o : Option Chunk} (k : Nat) (hk : k < s.calls.length) :
      turn s k s.calls[k] = .ok (o, s') → Step s o s'
  | filewrite {s : Sys} (src : List UInt8) :
      Step s none { s with calls := s.calls ++ [⟨src, 0, none⟩] }

/-- Runs, with the chunks written along them in order. -/
inductive Run : Sys → List Chunk → Sys → Prop
  | refl (s : Sys) : Run s [] s
  | step {s s' s'' : Sys} {cs : List Chunk} {o : Option Chunk} :
      Run s cs s' → Step s' o s'' → Run s (cs ++ o.toList) s''

/-- The bytes written by a list of chunks. -/
def total (cs : List Chunk) : Nat := (cs.map fun c => c.bytes.length).sum

/-- The bytes of call `k`. -/
def srcOf (s : Sys) (k : Nat) : List UInt8 := (s.calls.getD k ⟨[], 0, none⟩).src

/-! ## What one turn does -/

section Turn

variable {s : Sys} {k : Nat} {c : Call}

/-- The bytes of the chunk call `c` writes next. -/
def nextBytes (c : Call) : List UInt8 := (c.src.drop c.i).take (min (c.src.length - c.i) maxChunk)

theorem nextBytes_length (hi : c.i < c.src.length) :
    (nextBytes c).length = min (c.src.length - c.i) maxChunk := by
  simp only [nextBytes, List.length_take, List.length_drop]
  omega

theorem nextBytes_pos (hi : c.i < c.src.length) : 0 < (nextBytes c).length := by
  rw [nextBytes_length hi]
  have : 0 < maxChunk := by decide
  omega

/-- A chunk that fits: `writei` writes it all, and the offset and the call
move past it. -/
theorem turn_of_fits (hret : c.ret = none) (hi : c.i < c.src.length)
    (hoff : s.off ≤ s.content.length) (hmax : s.off + (nextBytes c).length ≤ MAXFILE * BSIZE) :
    turn s k c = .ok (some ⟨k, c.i, s.off, nextBytes c⟩,
      { off := s.off + (nextBytes c).length,
        content := s.content.take s.off ++ nextBytes c ++
          s.content.drop (s.off + (nextBytes c).length),
        calls := s.calls.set k { c with i := c.i + (nextBytes c).length } }) := by
  have hpos := nextBytes_pos hi
  have hlen := nextBytes_length hi
  have hw : writei s.content s.off (nextBytes c) = (((nextBytes c).length : Int),
      s.content.take s.off ++ nextBytes c ++ s.content.drop (s.off + (nextBytes c).length)) := by
    unfold writei
    rw [if_neg (by omega)]
  simp only [turn, hret, Option.isSome_none, Bool.false_eq_true, if_false, hi, if_true]
  rw [← nextBytes, hw]
  dsimp only
  -- `writei` returned the chunk's length: not negative, and not short
  have hgt : ((nextBytes c).length : Int) > 0 := by omega
  have hnlt : ¬ ((nextBytes c).length : Int) < 0 := by omega
  have hfull : ¬ ((nextBytes c).length : Int) ≠ ((min (c.src.length - c.i) maxChunk : Nat) : Int) := by
    rw [hlen]
    exact not_not.mpr rfl
  rw [if_pos hgt, if_pos hgt, if_neg hnlt, if_neg hfull, Int.toNat_natCast]
  rfl

theorem turn_of_returned (hret : c.ret.isSome) : turn s k c = .ok (none, s) := by
  simp [turn, hret, pure, Except.pure]

/-- A chunk past the end of the file or past `MAXFILE`: `writei` fails and
the call returns `-1`. -/
theorem turn_of_fails (hret : c.ret = none) (hi : c.i < c.src.length)
    (hf : s.content.length < s.off ∨ MAXFILE * BSIZE < s.off + (nextBytes c).length) :
    turn s k c = .ok (none, { s with calls := s.calls.set k { c with ret := some (-1) } }) := by
  have hw : writei s.content s.off (nextBytes c) = (-1, s.content) := by
    unfold writei
    rw [if_pos hf]
  simp only [turn, hret, Option.isSome_none, Bool.false_eq_true, if_false, hi, if_true]
  rw [← nextBytes, hw]
  simp [pure, Except.pure]

theorem turn_of_done (hret : c.ret = none) (hi : ¬ c.i < c.src.length) :
    turn s k c = .ok (none, { s with calls := s.calls.set k { c with ret := some c.src.length } }) := by
  simp [turn, hret, hi, pure, Except.pure]

/-- Setting a call to one with the same bytes keeps every call's bytes. -/
theorem srcOf_set (off : Nat) (content : List UInt8) (hk : k < s.calls.length)
    (hc : c.src = s.calls[k].src) (j : Nat) :
    srcOf ⟨off, content, s.calls.set k c⟩ j = srcOf s j := by
  by_cases hj : j = k
  · subst hj
    simp [srcOf, List.getD_eq_getElem?_getD, hk, hc]
  · simp [srcOf, List.getD_eq_getElem?_getD, Ne.symm hj]

theorem srcOf_of_lt (hk : k < s.calls.length) : srcOf s k = s.calls[k].src := by
  simp [srcOf, List.getD_eq_getElem?_getD, hk]

end Turn

/-! ## Windows of a concatenation -/

section Window

variable {α : Type}

/-- Piece `j` of a concatenation starts after the pieces before it. -/
theorem take_drop_flatten (L : List (List α)) {j : Nat} (hj : j < L.length) :
    (L.flatten.drop ((L.take j).map List.length).sum).take L[j].length = L[j] := by
  have hsplit : L.flatten = (L.take j).flatten ++ (L[j] ++ (L.drop (j + 1)).flatten) := calc
    L.flatten = (L.take j ++ L[j] :: L.drop (j + 1)).flatten := by
      rw [← List.drop_eq_getElem_cons hj, List.take_append_drop]
    _ = _ := by rw [List.flatten_append, List.flatten_cons]
  rw [hsplit, ← List.length_flatten, List.drop_left, List.take_left]

/-- A window inside a prefix reads the same from the prefix. -/
theorem take_drop_of_take {X F : List α} {T t l : Nat} (hF : X.take T = F) (h : t + l ≤ T) :
    (X.drop t).take l = (F.drop t).take l := by
  rw [← hF, List.drop_take, List.take_take]
  congr 1
  omega

end Window

/-! ## The invariant of a run -/

@[simp] theorem total_nil : total [] = 0 := rfl

@[simp] theorem total_append (cs ds : List Chunk) : total (cs ++ ds) = total cs + total ds := by
  simp [total]

@[simp] theorem total_singleton (c : Chunk) : total [c] = c.bytes.length := by
  simp [total]

theorem total_eq_length (cs : List Chunk) : total cs = (cs.map Chunk.bytes).flatten.length := by
  simp [total, List.length_flatten, Function.comp_def]

/-- The chunks call `k` wrote, in order. -/
def chunksOf (k : Nat) (cs : List Chunk) : List Chunk := cs.filter (·.call == k)

/-- What call `c` has done, its chunks being `ds`: they are, in order, its
bytes up to `i`, and once it has returned, its result is `-1`, or its length
with every byte written. -/
structure CallInv (c : Call) (ds : List Chunk) : Prop where
  written : (ds.map Chunk.bytes).flatten = c.src.take c.i
  i_le : c.i ≤ c.src.length
  ret : ∀ r, c.ret = some r → r = -1 ∨ (r = c.src.length ∧ c.i = c.src.length)

/-- What holds after every run from offset `off₀`: the offset has moved by
the bytes written, each chunk was written at the offset the chunks before it
left, the file from `off₀` holds the chunks one after the other, each chunk
is a piece of its call's bytes, and each call's chunks are its bytes so
far. -/
structure Inv (off₀ : Nat) (s : Sys) (cs : List Chunk) : Prop where
  off_eq : s.off = off₀ + total cs
  offs : ∀ j (hj : j < cs.length), cs[j].off = off₀ + total (cs.take j)
  written : (s.content.drop off₀).take (total cs) = (cs.map Chunk.bytes).flatten
  fromCall : ∀ c ∈ cs, c.call < s.calls.length ∧
    c.bytes = ((srcOf s c.call).drop c.start).take c.bytes.length
  calls : ∀ k (hk : k < s.calls.length), CallInv s.calls[k] (chunksOf k cs)

section Calls

@[simp] theorem chunksOf_nil (k : Nat) : chunksOf k [] = [] := rfl

theorem chunksOf_append_of_ne {k : Nat} (cs : List Chunk) {ch : Chunk} (hne : ch.call ≠ k) :
    chunksOf k (cs ++ [ch]) = chunksOf k cs := by
  simp [chunksOf, List.filter_append, hne]

theorem chunksOf_append_self {k : Nat} (cs : List Chunk) {ch : Chunk} (heq : ch.call = k) :
    chunksOf k (cs ++ [ch]) = chunksOf k cs ++ [ch] := by
  simp [chunksOf, List.filter_append, heq]

/-- A call that has written nothing and not returned. -/
theorem callInv_new (src : List UInt8) : CallInv ⟨src, 0, none⟩ [] where
  written := by simp
  i_le := Nat.zero_le _
  ret := nofun

/-- The call fails: its result is `-1`. -/
theorem CallInv.fail {c : Call} {ds : List Chunk} (h : CallInv c ds) :
    CallInv { c with ret := some (-1) } ds where
  written := h.written
  i_le := h.i_le
  ret := fun _ hr => .inl (Option.some_inj.mp hr).symm

/-- The call has written all its bytes and returns their number. -/
theorem CallInv.done {c : Call} {ds : List Chunk} (h : CallInv c ds) (hi : ¬ c.i < c.src.length) :
    CallInv { c with ret := some c.src.length } ds where
  written := h.written
  i_le := h.i_le
  ret := fun _ hr => .inr ⟨(Option.some_inj.mp hr).symm, by dsimp only; have := h.i_le; omega⟩

/-- The call writes its next chunk. -/
theorem CallInv.chunk {c : Call} {ds : List Chunk} (h : CallInv c ds) (hret : c.ret = none)
    (hi : c.i < c.src.length) (ch : Chunk) (hbytes : ch.bytes = nextBytes c) :
    CallInv { c with i := c.i + (nextBytes c).length } (ds ++ [ch]) where
  written := by
    dsimp only
    rw [List.map_append, List.flatten_append, h.written, List.map_singleton, List.flatten_singleton,
      hbytes, List.take_add, nextBytes_length hi]
    rfl
  i_le := by
    dsimp only
    rw [nextBytes_length hi]
    omega
  ret := fun _ hr => by rw [hret] at hr; cases hr

/-- Setting call `k` keeps every call's record, given the new one for `k`
and the same chunks for the others. -/
theorem callInv_set {calls : List Call} {cs ds : List Chunk}
    (h : ∀ j (hj : j < calls.length), CallInv calls[j] (chunksOf j cs)) {k : Nat} {c' : Call}
    (hc' : CallInv c' (chunksOf k ds)) (hds : ∀ j, j ≠ k → chunksOf j ds = chunksOf j cs) :
    ∀ j (hj : j < (calls.set k c').length), CallInv (calls.set k c')[j] (chunksOf j ds) := by
  intro j hj
  rw [List.length_set] at hj
  by_cases hjk : j = k
  · subst hjk
    rw [List.getElem_set_self]
    exact hc'
  · rw [List.getElem_set_ne (Ne.symm hjk), hds j hjk]
    exact h j hj

end Calls

theorem inv_start (off₀ : Nat) (content : List UInt8) (calls : List Call)
    (hcalls : ∀ k (hk : k < calls.length), CallInv calls[k] []) :
    Inv off₀ ⟨off₀, content, calls⟩ [] where
  off_eq := rfl
  offs := fun _ hj => absurd hj (Nat.not_lt_zero _)
  written := by simp
  fromCall := by simp
  calls := hcalls

/-- A step that wrote nothing and kept every call's bytes keeps the invariant. -/
theorem Inv.of_quiet {off₀ : Nat} {s s' : Sys} {cs : List Chunk} (h : Inv off₀ s cs)
    (hoff : s'.off = s.off) (hcontent : s'.content = s.content)
    (hlen : s.calls.length ≤ s'.calls.length) (hsrc : ∀ j < s.calls.length, srcOf s' j = srcOf s j)
    (hcalls : ∀ k (hk : k < s'.calls.length), CallInv s'.calls[k] (chunksOf k cs)) :
    Inv off₀ s' cs where
  off_eq := hoff ▸ h.off_eq
  offs := h.offs
  written := hcontent ▸ h.written
  fromCall := fun c hc => by
    obtain ⟨hlt, hc⟩ := h.fromCall c hc
    exact ⟨by omega, by rw [hsrc _ hlt]; exact hc⟩
  calls := hcalls

/-- A chunk written at the offset, inside the file, keeps the invariant. -/
theorem Inv.chunk {off₀ : Nat} {s s' : Sys} {cs : List Chunk} {ch : Chunk} (h : Inv off₀ s cs)
    (hoffc : ch.off = s.off) (hle : s.off ≤ s.content.length)
    (hoff : s'.off = s.off + ch.bytes.length)
    (hcontent : s'.content =
      s.content.take s.off ++ ch.bytes ++ s.content.drop (s.off + ch.bytes.length))
    (hcall : ch.call < s.calls.length)
    (hbytes : ch.bytes = ((srcOf s ch.call).drop ch.start).take ch.bytes.length)
    (hlen : s.calls.length ≤ s'.calls.length) (hsrc : ∀ j < s.calls.length, srcOf s' j = srcOf s j)
    (hcalls : ∀ k (hk : k < s'.calls.length), CallInv s'.calls[k] (chunksOf k (cs ++ [ch]))) :
    Inv off₀ s' (cs ++ [ch]) where
  off_eq := by rw [hoff, h.off_eq, total_append, total_singleton, Nat.add_assoc]
  offs := fun j hj => by
    rw [List.length_append, List.length_singleton] at hj
    rcases Nat.lt_succ_iff_lt_or_eq.mp hj with hj | rfl
    · rw [List.getElem_append_left hj, List.take_append_of_le_length (Nat.le_of_lt hj)]
      exact h.offs j hj
    · simp [hoffc, h.off_eq]
  written := by
    -- the file up to the offset is what it was, and the chunk follows it
    have hF := h.written
    have hT := total_eq_length cs
    have hpre : (s.content.take s.off).drop off₀ = (cs.map Chunk.bytes).flatten := by
      rw [h.off_eq, List.drop_take, Nat.add_sub_cancel_left, hF]
    have hlenpre : off₀ ≤ (s.content.take s.off).length := by
      rw [List.length_take, h.off_eq]
      have := h.off_eq
      omega
    rw [hcontent, List.append_assoc, List.drop_append_of_le_length hlenpre, hpre,
      total_append, total_singleton, hT, List.take_length_add_append, List.take_left]
    simp
  fromCall := fun c hc => by
    rcases List.mem_append.mp hc with hc | hc
    · obtain ⟨hlt, hc⟩ := h.fromCall c hc
      exact ⟨by omega, by rw [hsrc _ hlt]; exact hc⟩
    · rw [List.mem_singleton.mp hc]
      exact ⟨by omega, by rw [hsrc _ hcall]; exact hbytes⟩
  calls := hcalls

theorem srcOf_append (s : Sys) (c : Call) {j : Nat} (hj : j < s.calls.length) :
    srcOf { s with calls := s.calls ++ [c] } j = srcOf s j := by
  simp [srcOf, List.getD_eq_getElem?_getD, List.getElem?_append_left hj]

section Runs

variable {off₀ : Nat} {s s' : Sys} {cs : List Chunk}

/-- A turn keeps the invariant, whichever branch of the loop it takes. -/
theorem Inv.turn {k : Nat} {o : Option Chunk} (h : Inv off₀ s cs) (hk : k < s.calls.length)
    (ht : Filewrite.turn s k s.calls[k] = .ok (o, s')) : Inv off₀ s' (cs ++ o.toList) := by
  by_cases hret : s.calls[k].ret.isSome
  · -- returned already: nothing changes
    rw [turn_of_returned hret] at ht
    cases ht
    simpa using h
  have hret' := Option.not_isSome_iff_eq_none.mp hret
  have hsrc := fun c hc => srcOf_set (s := s) (c := c) s.off s.content hk hc
  have hck := h.calls k hk
  by_cases hi : s.calls[k].i < s.calls[k].src.length
  · by_cases hf : s.content.length < s.off ∨ MAXFILE * BSIZE < s.off + (nextBytes s.calls[k]).length
    · -- `writei` failed: the call returns `-1`, nothing is written
      rw [turn_of_fails hret' hi hf] at ht
      cases ht
      rw [Option.toList_none, List.append_nil]
      exact h.of_quiet rfl rfl (by simp) (fun j _ => hsrc _ (by rfl) j)
        (callInv_set h.calls hck.fail fun _ _ => rfl)
    · -- the chunk is written at the offset
      rw [not_or, Nat.not_lt, Nat.not_lt] at hf
      rw [turn_of_fits hret' hi hf.1 hf.2] at ht
      cases ht
      refine h.chunk rfl hf.1 rfl rfl hk ?_ (by simp) (fun j _ => srcOf_set _ _ hk (by rfl) j) ?_
      · rw [srcOf_of_lt hk, nextBytes_length hi]
        rfl
      · -- only call `k` gets a chunk, and it moves past it
        refine callInv_set h.calls ?_ fun j hj => chunksOf_append_of_ne cs (Ne.symm hj)
        rw [@chunksOf_append_self k cs ⟨k, s.calls[k].i, s.off, nextBytes s.calls[k]⟩ rfl]
        exact hck.chunk hret' hi _ rfl
  · -- every byte is written: the call returns
    rw [turn_of_done hret' hi] at ht
    cases ht
    rw [Option.toList_none, List.append_nil]
    exact h.of_quiet rfl rfl (by simp) (fun j _ => hsrc _ (by rfl) j)
      (callInv_set h.calls (hck.done hi) fun _ _ => rfl)

theorem Inv.step {o : Option Chunk} (h : Inv off₀ s cs) (hs : Step s o s') :
    Inv off₀ s' (cs ++ o.toList) := by
  cases hs with
  | turn k hk ht => exact h.turn hk ht
  | filewrite src =>
    rw [Option.toList_none, List.append_nil]
    refine h.of_quiet rfl rfl (by simp) (fun j hj => srcOf_append s _ hj) fun j hj => ?_
    rw [List.length_append, List.length_singleton] at hj
    rcases Nat.lt_succ_iff_lt_or_eq.mp hj with hj | rfl
    · rw [List.getElem_append_left hj]
      exact h.calls j hj
    · -- the new call has no chunks yet: every chunk is of an older call
      have hnone : chunksOf s.calls.length cs = [] := by
        refine List.filter_eq_nil_iff.mpr fun c hc => ?_
        have := (h.fromCall c hc).1
        simp only [beq_iff_eq]
        omega
      rw [List.getElem_append_right (Nat.le_refl _), hnone]
      simpa using callInv_new src

theorem Run.inv {content₀ : List UInt8} (hrun : Run ⟨off₀, content₀, []⟩ cs s) : Inv off₀ s cs := by
  induction hrun with
  | refl => exact inv_start off₀ content₀ [] nofun
  | step _ hs ih => exact ih.step hs

end Runs

/-! ## The chunks tile the file -/

theorem total_take_succ (cs : List Chunk) {j : Nat} (hj : j < cs.length) :
    total (cs.take (j + 1)) = total (cs.take j) + cs[j].bytes.length := by
  rw [List.take_add_one, total_append, List.getElem?_eq_getElem hj]
  simp

theorem total_take_mono (cs : List Chunk) {i j : Nat} (h : i ≤ j) :
    total (cs.take i) ≤ total (cs.take j) := by
  have : cs.take i = (cs.take j).take i := by rw [List.take_take, Nat.min_eq_left h]
  rw [this, ← List.take_append_drop i (cs.take j), total_append, List.take_append_drop]
  omega

theorem total_take_le (cs : List Chunk) (j : Nat) : total (cs.take j) ≤ total cs := by
  calc total (cs.take j) ≤ total (cs.take j) + total (cs.drop j) := Nat.le_add_right _ _
    _ = total cs := by rw [← total_append, List.take_append_drop]

section Tiling

variable {off₀ : Nat} {s : Sys} {cs : List Chunk}

/-- Chunk `i` ends where or before chunk `j > i` starts. -/
theorem Inv.disjoint (h : Inv off₀ s cs) {i j : Nat} (hij : i < j) (hj : j < cs.length) :
    cs[i].off + cs[i].bytes.length ≤ cs[j].off := by
  have hi : i < cs.length := by omega
  rw [h.offs i hi, h.offs j hj]
  have := total_take_succ cs hi
  have := total_take_mono cs (show i + 1 ≤ j from hij)
  omega

/-- Each chunk's bytes are in the file where it wrote them. -/
theorem Inv.intact (h : Inv off₀ s cs) {j : Nat} (hj : j < cs.length) :
    (s.content.drop cs[j].off).take cs[j].bytes.length = cs[j].bytes := by
  have hL : j < (cs.map Chunk.bytes).length := by simpa using hj
  have hsum : (((cs.map Chunk.bytes).take j).map List.length).sum = total (cs.take j) := by
    simp [total, List.map_take, Function.comp_def]
  have hwin : total (cs.take j) + cs[j].bytes.length ≤ total cs := by
    rw [← total_take_succ cs hj]
    exact total_take_le cs _
  rw [h.offs j hj, ← List.drop_drop, take_drop_of_take h.written hwin]
  have := take_drop_flatten (cs.map Chunk.bytes) hL
  simpa only [hsum, List.getElem_map] using this

end Tiling

/-- Writes through a shared offset are never lost: over every interleaving of
any number of `filewrite` calls on one `struct file`, the offset ends at
`off₀` plus the bytes written, the chunks sit one after the other from `off₀`
and never overlap, the file from `off₀` holds exactly them in order, each
chunk's bytes are in the file where it wrote them, and each chunk is one
piece of one call's bytes. Each call's chunks, in order, are its bytes up to
where it has got, and a call that returned returns `-1`, or its length, the
number of bytes its chunks wrote. -/
theorem shared_offset_chunks_tile {off₀ : Nat} {content₀ : List UInt8} {cs : List Chunk} {s : Sys}
    (hrun : Run ⟨off₀, content₀, []⟩ cs s) :
    s.off = off₀ + total cs ∧
    (∀ j (hj : j < cs.length), cs[j].off = off₀ + total (cs.take j)) ∧
    (∀ i j (hij : i < j) (hj : j < cs.length), cs[i].off + cs[i].bytes.length ≤ cs[j].off) ∧
    (s.content.drop off₀).take (total cs) = (cs.map Chunk.bytes).flatten ∧
    (∀ j (hj : j < cs.length), (s.content.drop cs[j].off).take cs[j].bytes.length = cs[j].bytes) ∧
    (∀ c ∈ cs, c.call < s.calls.length ∧
      c.bytes = ((srcOf s c.call).drop c.start).take c.bytes.length) ∧
    (∀ k (hk : k < s.calls.length),
      ((chunksOf k cs).map Chunk.bytes).flatten = s.calls[k].src.take s.calls[k].i ∧
      ∀ r, s.calls[k].ret = some r →
        r = -1 ∨ (r = s.calls[k].src.length ∧ r = total (chunksOf k cs))) := by
  have h := hrun.inv
  refine ⟨h.off_eq, h.offs, fun _ _ hij hj => h.disjoint hij hj, h.written,
    fun _ hj => h.intact hj, h.fromCall, fun k hk => ⟨(h.calls k hk).written, fun r hr => ?_⟩⟩
  rcases (h.calls k hk).ret r hr with hneg | ⟨hlen, hall⟩
  · exact .inl hneg
  · -- every byte written: the chunks' bytes are the call's bytes
    refine .inr ⟨hlen, ?_⟩
    rw [hlen, total_eq_length, (h.calls k hk).written, hall, List.take_length]

/-- Two calls, of `ab` and of `cd`, one chunk each, the second call's first:
the file is `cdab`, the offset 4, and each call returns 2. -/
theorem shared_offset_chunks_tile_two_calls :
    ∃ cs s, Run ⟨0, [], []⟩ cs s ∧ s.content = [99, 100, 97, 98] ∧
      s.calls.map Call.ret = [some 2, some 2] ∧
      (s.off = 0 + total cs ∧
        (∀ j (hj : j < cs.length), cs[j].off = 0 + total (cs.take j)) ∧
        (∀ i j (hij : i < j) (hj : j < cs.length), cs[i].off + cs[i].bytes.length ≤ cs[j].off) ∧
        (s.content.drop 0).take (total cs) = (cs.map Chunk.bytes).flatten ∧
        (∀ j (hj : j < cs.length),
          (s.content.drop cs[j].off).take cs[j].bytes.length = cs[j].bytes) ∧
        (∀ c ∈ cs, c.call < s.calls.length ∧
          c.bytes = ((srcOf s c.call).drop c.start).take c.bytes.length) ∧
        (∀ k (hk : k < s.calls.length),
          ((chunksOf k cs).map Chunk.bytes).flatten = s.calls[k].src.take s.calls[k].i ∧
          ∀ r, s.calls[k].ret = some r →
            r = -1 ∨ (r = s.calls[k].src.length ∧ r = total (chunksOf k cs)))) := by
  -- both calls start; the second writes, then the first; then both return
  have hrun := ((((((Run.refl (⟨0, [], []⟩ : Sys)).step (.filewrite [97, 98])).step
    (.filewrite [99, 100])).step (.turn 1 (by decide) rfl)).step (.turn 0 (by decide) rfl)).step
    (.turn 0 (by decide) rfl)).step (.turn 1 (by decide) rfl)
  exact ⟨_, _, hrun, by decide, by decide, shared_offset_chunks_tile hrun⟩

end Filewrite

end Xv6
