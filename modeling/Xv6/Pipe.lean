import Mathlib

/-!
# Pipes (`kernel/pipe.c`)

`struct pipe` is a ring of `PIPESIZE` bytes with free-running 32-bit
counters `nread` and `nwrite`, and the flags `readopen` and `writeopen`.

- `pipewrite` and `piperead` are small-step machines (`writerStep`,
  `readerStep`): one step is one check of the loop condition, one byte
  copy, or a sleep or a wakeup. The lock makes their steps atomic; the model
  lets any number of writers and readers interleave at every step, which
  takes in every schedule the lock allows.
- Every user copy in `Step` succeeds: a writer's bytes are its source list.
  `readerStep` takes the result of `copyout` as a parameter, and a failed
  one loses the byte it was copying (`piperead_failed_copy_loses_byte`).
- `Step` adds `pipeclose` of either end and `kill` of any caller.

Over every run, however long (the counters wrap past `2^32`),
`nwrite - nread` stays within `[0, PIPESIZE]`, and the bytes the readers
take, in the order they take them, followed by the bytes still in the ring,
are the bytes the writers store, in the order they store them (`pipe_fifo`).
-/

namespace Xv6

namespace Pipes

def PIPESIZE : Nat := 512

/-- `struct pipe` without its lock. `data` is the byte array as a function
of the index; the code indexes it below `PIPESIZE` only. -/
structure Pipe where
  data : Nat → UInt8
  nread : UInt32
  nwrite : UInt32
  readopen : Bool
  writeopen : Bool

/-- The pipe `pipealloc` sets up in a page holding `data`. -/
def pipealloc (data : Nat → UInt8) : Pipe where
  data := data
  nread := 0
  nwrite := 0
  readopen := true
  writeopen := true

/-- `pi->data[pi->nwrite++ % PIPESIZE] = ch`. -/
def store (p : Pipe) (ch : UInt8) : Pipe :=
  { p with data := Function.update p.data (p.nwrite % PIPESIZE.toUInt32).toNat ch,
           nwrite := p.nwrite + 1 }

/-- `ch = pi->data[pi->nread++ % PIPESIZE]`. -/
def load (p : Pipe) : UInt8 × Pipe :=
  (p.data (p.nread % PIPESIZE.toUInt32).toNat, { p with nread := p.nread + 1 })

/-- `pipeclose`: the end given by `writable` is closed. -/
def pipeclose (p : Pipe) (writable : Bool) : Pipe :=
  if writable then { p with writeopen := false } else { p with readopen := false }

/-! ## `pipewrite` and `piperead` -/

/-- Where a `pipewrite` call is: at the top of its loop with `i` bytes
written, asleep waiting for room, or returned. -/
inductive WriterPc
  | loop (i : Nat)
  | asleep (i : Nat)
  | ret (r : Int)

/-- A `pipewrite` call: the bytes `copyin` reads from `addr`, whether the
caller is killed, and where it is. -/
structure Writer where
  src : List UInt8
  killed : Bool
  pc : WriterPc

/-- One step of `pipewrite`: the pipe after it, the caller, and the byte it
stored, if any. -/
def writerStep (p : Pipe) (w : Writer) : Pipe × Writer × Option UInt8 :=
  match w.pc with
  | .loop i =>
    if h : i < w.src.length then
      if p.nwrite = p.nread + PIPESIZE.toUInt32 then
        -- full: fail, or wake the readers and sleep
        if !p.readopen || w.killed then (p, { w with pc := .ret (-1) }, none)
        else (p, { w with pc := .asleep i }, none)
      else (store p w.src[i], { w with pc := .loop (i + 1) }, some w.src[i])
    else (p, { w with pc := .ret i }, none)
  | .asleep i => (p, { w with pc := .loop i }, none)
  | .ret _ => (p, w, none)

/-- Where a `piperead` call is: waiting for data, asleep, copying with `i`
bytes copied, or returned. -/
inductive ReaderPc
  | wait
  | asleep
  | copy (i : Nat)
  | ret (r : Int)

/-- A `piperead` call of `n` bytes. -/
structure Reader where
  n : Nat
  killed : Bool
  pc : ReaderPc

/-- One step of `piperead`, with `ok` the result of the step's `copyout`: the
pipe after it, the caller, and the byte it delivered, if any. The byte leaves
the ring (`pi->nread++`) before it is copied out, so a failed copy breaks out
of the loop with the byte gone. -/
def readerStep (ok : Bool) (p : Pipe) (r : Reader) : Pipe × Reader × Option UInt8 :=
  match r.pc with
  | .wait =>
    if p.nread = p.nwrite ∧ p.writeopen then
      if r.killed then (p, { r with pc := .ret (-1) }, none)
      else (p, { r with pc := .asleep }, none)
    else (p, { r with pc := .copy 0 }, none)
  | .asleep => (p, { r with pc := .wait }, none)
  | .copy i =>
    if i < r.n then
      if p.nread = p.nwrite then (p, { r with pc := .ret i }, none)
      else if ok then ((load p).2, { r with pc := .copy (i + 1) }, some (load p).1)
      else ((load p).2, { r with pc := .ret i }, none)
    else (p, { r with pc := .ret i }, none)
  | .ret _ => (p, r, none)

/-! ## Runs -/

/-- The pipe and the calls on it. -/
structure Sys where
  pipe : Pipe
  writers : List Writer
  readers : List Reader

/-- What a step shows: a byte stored, a byte taken, or nothing. -/
inductive Label
  | stored (c : UInt8)
  | taken (c : UInt8)
  | silent

def labelOf (mk : UInt8 → Label) : Option UInt8 → Label
  | some c => mk c
  | none => .silent

/-- One step: a writer or a reader moves, a new call starts, an end is
closed, or a caller is killed. Every `copyout` succeeds. -/
inductive Step : Sys → Label → Sys → Prop
  | writer {s : Sys} (k : Nat) (hk : k < s.writers.length) :
      Step s (labelOf .stored (writerStep s.pipe s.writers[k]).2.2)
        { s with pipe := (writerStep s.pipe s.writers[k]).1,
                 writers := s.writers.set k (writerStep s.pipe s.writers[k]).2.1 }
  | reader {s : Sys} (k : Nat) (hk : k < s.readers.length) :
      Step s (labelOf .taken (readerStep true s.pipe s.readers[k]).2.2)
        { s with pipe := (readerStep true s.pipe s.readers[k]).1,
                 readers := s.readers.set k (readerStep true s.pipe s.readers[k]).2.1 }
  | pipewrite {s : Sys} (src : List UInt8) (killed : Bool) :
      Step s .silent { s with writers := s.writers ++ [⟨src, killed, .loop 0⟩] }
  | piperead {s : Sys} (n : Nat) (killed : Bool) :
      Step s .silent { s with readers := s.readers ++ [⟨n, killed, .wait⟩] }
  | pipeclose {s : Sys} (writable : Bool) :
      Step s .silent { s with pipe := pipeclose s.pipe writable }
  | killWriter {s : Sys} (k : Nat) (hk : k < s.writers.length) :
      Step s .silent { s with writers := s.writers.set k { s.writers[k] with killed := true } }
  | killReader {s : Sys} (k : Nat) (hk : k < s.readers.length) :
      Step s .silent { s with readers := s.readers.set k { s.readers[k] with killed := true } }

/-- Runs, with the labels of their steps in order. -/
inductive Run : Sys → List Label → Sys → Prop
  | refl (s : Sys) : Run s [] s
  | step {s s' s'' : Sys} {l : Label} {ls : List Label} :
      Run s ls s' → Step s' l s'' → Run s (ls ++ [l]) s''

/-- The bytes stored along a run, in order. -/
def storedOf : List Label → List UInt8
  | [] => []
  | .stored c :: ls => c :: storedOf ls
  | _ :: ls => storedOf ls

/-- The bytes taken along a run, in order. -/
def takenOf : List Label → List UInt8
  | [] => []
  | .taken c :: ls => c :: takenOf ls
  | _ :: ls => takenOf ls

/-! ## The ring holds the bytes stored and not yet taken -/

/-- `S` are the bytes stored so far and `T` those taken. The counters are
their lengths modulo `2^32`; the ring holds, at `k % PIPESIZE`, byte `k` of
`S` for every `k` not yet taken; and `T` is a prefix of `S` no more than
`PIPESIZE` short of it. -/
structure Inv (p : Pipe) (S T : List UInt8) : Prop where
  isPrefix : T <+: S
  room : S.length ≤ T.length + PIPESIZE
  nwrite_eq : p.nwrite.toNat = S.length % 2 ^ 32
  nread_eq : p.nread.toNat = T.length % 2 ^ 32
  ring : ∀ k (hk : k < S.length), T.length ≤ k → p.data (k % PIPESIZE) = S[k]

/-- The bytes in the ring, oldest first: `data[i % PIPESIZE]` for `i` from
`nread` up to `nwrite`, the bytes `piperead` takes next. -/
def ringBytes (p : Pipe) : List UInt8 :=
  (List.range (p.nwrite - p.nread).toNat).map fun j => p.data ((p.nread.toNat + j) % PIPESIZE)

theorem PIPESIZE_eq : PIPESIZE = 512 := rfl

/-- `PIPESIZE` as the `uint` the code's arithmetic converts it to. -/
theorem toNat_PIPESIZE : PIPESIZE.toUInt32.toNat = PIPESIZE := rfl

theorem inv_pipealloc (data : Nat → UInt8) : Inv (pipealloc data) [] [] where
  isPrefix := List.prefix_refl []
  room := Nat.zero_le _
  nwrite_eq := rfl
  nread_eq := rfl
  ring := fun _ hk => absurd hk (Nat.not_lt_zero _)

section Counters

variable {p : Pipe} {S T : List UInt8} (h : Inv p S T)
include h

/-- The full test `nwrite == nread + PIPESIZE` holds exactly when `PIPESIZE`
bytes are stored and not taken: the difference never reaches `2^32`. -/
theorem Inv.full_iff : p.nwrite = p.nread + PIPESIZE.toUInt32 ↔ S.length = T.length + PIPESIZE := by
  have hle := h.isPrefix.length_le
  have hroom := h.room
  rw [← UInt32.toNat_inj, UInt32.toNat_add, h.nwrite_eq, h.nread_eq, toNat_PIPESIZE]
  have := PIPESIZE_eq
  omega

/-- The empty test `nread == nwrite` holds exactly when every stored byte
is taken. -/
theorem Inv.empty_iff : p.nread = p.nwrite ↔ T.length = S.length := by
  have hle := h.isPrefix.length_le
  have hroom := h.room
  rw [← UInt32.toNat_inj, h.nwrite_eq, h.nread_eq]
  have := PIPESIZE_eq
  omega

/-- `nwrite - nread`, in 32 bits, is the number of bytes in the pipe. -/
theorem Inv.count_eq : (p.nwrite - p.nread).toNat = S.length - T.length := by
  have hle := h.isPrefix.length_le
  have hroom := h.room
  rw [UInt32.toNat_sub, h.nwrite_eq, h.nread_eq]
  have := PIPESIZE_eq
  omega

/-- The ring holds, oldest first, the bytes stored and not taken. The slot
of byte `j` is read from the 32-bit `nread`; `PIPESIZE` divides `2^32`, so
the wrap of the counter does not move it. -/
theorem Inv.ringBytes_eq : ringBytes p = S.drop T.length := by
  have hle := h.isPrefix.length_le
  apply List.ext_getElem
  · rw [ringBytes, List.length_map, List.length_range, h.count_eq, List.length_drop]
  · intro j hj hj'
    rw [List.length_drop] at hj'
    have hslot : (p.nread.toNat + j) % PIPESIZE = (T.length + j) % PIPESIZE := by
      rw [h.nread_eq, PIPESIZE_eq]
      omega
    simp only [ringBytes, List.getElem_map, List.getElem_range, List.getElem_drop]
    rw [hslot]
    exact h.ring _ (by omega) (Nat.le_add_right _ _)

theorem Inv.taken_append_ringBytes : T ++ ringBytes p = S := by
  obtain ⟨U, hU⟩ := h.isPrefix
  rw [h.ringBytes_eq, ← hU, List.drop_left]

end Counters

/-! ## Each step keeps it -/

section Steps

variable {p : Pipe} {S T : List UInt8}

/-- Storing into a pipe that is not full appends the byte to `S`. The slot
it overwrites, `S.length % PIPESIZE`, belonged to a byte already taken. -/
theorem Inv.store (h : Inv p S T) (hroom : S.length < T.length + PIPESIZE) (c : UInt8) :
    Inv (store p c) (S ++ [c]) T where
  isPrefix := h.isPrefix.trans (List.prefix_append S [c])
  room := by
    rw [List.length_append, List.length_singleton]
    omega
  nwrite_eq := by
    simp only [Pipes.store, UInt32.toNat_add, h.nwrite_eq, List.length_append,
      List.length_singleton, UInt32.toNat_one]
    omega
  nread_eq := h.nread_eq
  ring := by
    intro k hk hTk
    have hidx : (p.nwrite % PIPESIZE.toUInt32).toNat = S.length % PIPESIZE := by
      rw [UInt32.toNat_mod, h.nwrite_eq, toNat_PIPESIZE, PIPESIZE_eq]
      omega
    simp only [Pipes.store, hidx]
    rw [List.length_append, List.length_singleton] at hk
    by_cases hkS : k = S.length
    · -- the byte just stored
      subst hkS
      rw [Function.update_self, List.getElem_append_right (Nat.le_refl _)]
      simp
    · -- an older byte not yet taken: its slot is another one
      have hlt : k < S.length := by omega
      have hslot : k % PIPESIZE ≠ S.length % PIPESIZE := by
        rw [PIPESIZE_eq] at hroom ⊢
        omega
      rw [Function.update_of_ne hslot, List.getElem_append_left hlt]
      exact h.ring k hlt hTk

/-- Taking from a pipe that is not empty returns the first byte of `S` not
yet taken, and appends it to `T`. -/
theorem Inv.load (h : Inv p S T) (hne : T.length < S.length) :
    (load p).1 = S[T.length] ∧ Inv (load p).2 S (T ++ [S[T.length]]) := by
  have hidx : (p.nread % PIPESIZE.toUInt32).toNat = T.length % PIPESIZE := by
    rw [UInt32.toNat_mod, h.nread_eq, toNat_PIPESIZE, PIPESIZE_eq]
    omega
  refine ⟨by simp only [Pipes.load, hidx]; exact h.ring _ hne (Nat.le_refl _), ?_⟩
  refine ⟨?_, ?_, h.nwrite_eq, ?_, ?_⟩
  · -- `T` followed by the next byte is still a prefix of `S`
    have hT : S.take T.length = T := (List.prefix_iff_eq_take.mp h.isPrefix).symm
    have happ := List.take_append_getElem hne
    rw [hT] at happ
    rw [happ]
    exact List.take_prefix _ _
  · have := h.room
    rw [List.length_append, List.length_singleton]
    omega
  · simp only [Pipes.load, UInt32.toNat_add, h.nread_eq, List.length_append,
      List.length_singleton, UInt32.toNat_one]
    omega
  · intro k hk hTk
    rw [List.length_append, List.length_singleton] at hTk
    exact h.ring k hk (by omega)

/-- Closing an end changes neither the ring nor the counters. -/
theorem Inv.pipeclose (h : Inv p S T) (writable : Bool) : Inv (pipeclose p writable) S T := by
  unfold Pipes.pipeclose
  split
  · exact ⟨h.isPrefix, h.room, h.nwrite_eq, h.nread_eq, h.ring⟩
  · exact ⟨h.isPrefix, h.room, h.nwrite_eq, h.nread_eq, h.ring⟩

end Steps

/-! ## Every run keeps it -/

@[simp] theorem storedOf_append (ls ls' : List Label) :
    storedOf (ls ++ ls') = storedOf ls ++ storedOf ls' := by
  induction ls with
  | nil => rfl
  | cons l ls ih => cases l <;> simp [storedOf, ih]

@[simp] theorem takenOf_append (ls ls' : List Label) :
    takenOf (ls ++ ls') = takenOf ls ++ takenOf ls' := by
  induction ls with
  | nil => rfl
  | cons l ls ih => cases l <;> simp [takenOf, ih]

@[simp] theorem storedOf_stored (o : Option UInt8) : storedOf [labelOf .stored o] = o.toList := by
  cases o <;> rfl

@[simp] theorem takenOf_stored (o : Option UInt8) : takenOf [labelOf .stored o] = [] := by
  cases o <;> rfl

@[simp] theorem storedOf_taken (o : Option UInt8) : storedOf [labelOf .taken o] = [] := by
  cases o <;> rfl

@[simp] theorem takenOf_taken (o : Option UInt8) : takenOf [labelOf .taken o] = o.toList := by
  cases o <;> rfl

section Steps

variable {p : Pipe} {S T : List UInt8}

/-- A step of `pipewrite` stores at most one byte, and only into a pipe that
is not full. -/
theorem Inv.writerStep (h : Inv p S T) (w : Writer) :
    Inv (writerStep p w).1 (S ++ (writerStep p w).2.2.toList) T := by
  unfold Pipes.writerStep
  split
  · rename_i i _
    split
    · split
      · -- full: the call fails or sleeps
        split <;> simpa using h
      · rename_i hi hroom
        -- not full: the byte goes in
        have hlt : S.length < T.length + PIPESIZE := by
          have := h.room
          have := mt h.full_iff.mpr hroom
          omega
        exact h.store hlt _
    · simpa using h
  · simpa using h
  · simpa using h

/-- A step of `piperead` takes at most one byte, the next one stored, and
only from a pipe that is not empty. -/
theorem Inv.readerStep (h : Inv p S T) (r : Reader) :
    Inv (readerStep true p r).1 S (T ++ (readerStep true p r).2.2.toList) := by
  unfold Pipes.readerStep
  split
  · split
    · split <;> simpa using h
    · simpa using h
  · simpa using h
  · split
    · split
      · simpa using h
      · rename_i hempty
        have hne : T.length < S.length := by
          have := h.isPrefix.length_le
          have := mt h.empty_iff.mpr hempty
          omega
        obtain ⟨hbyte, hinv⟩ := h.load hne
        simpa [hbyte] using hinv
    · simpa using h
  · simpa using h

theorem Inv.step {s s' : Sys} {l : Label} (h : Inv s.pipe S T) (hs : Step s l s') :
    Inv s'.pipe (S ++ storedOf [l]) (T ++ takenOf [l]) := by
  cases hs with
  | writer k hk => simpa using h.writerStep s.writers[k]
  | reader k hk => simpa using h.readerStep s.readers[k]
  | pipewrite src killed => simpa [storedOf, takenOf] using h
  | piperead n killed => simpa [storedOf, takenOf] using h
  | pipeclose writable => simpa [storedOf, takenOf] using h.pipeclose writable
  | killWriter k hk => simpa [storedOf, takenOf] using h
  | killReader k hk => simpa [storedOf, takenOf] using h

end Steps

theorem Run.inv {s s' : Sys} {ls : List Label} (hrun : Run s ls s') {S T : List UInt8}
    (h : Inv s.pipe S T) : Inv s'.pipe (S ++ storedOf ls) (T ++ takenOf ls) := by
  induction hrun with
  | refl => simpa [storedOf, takenOf] using h
  | step _ hs ih =>
    have := ih.step hs
    simpa [List.append_assoc] using this

/-- A pipe is a lossless FIFO. On every run from `pipealloc`, whatever the
calls and however they interleave: `nwrite - nread`, in 32 bits, is at most
`PIPESIZE`, and the bytes taken, in order, followed by the bytes still in the
ring, oldest first, are the bytes stored, in order: no byte is lost,
duplicated or reordered. -/
theorem pipe_fifo {data : Nat → UInt8} {ws : List Writer} {rs : List Reader} {ls : List Label}
    {s : Sys} (hrun : Run ⟨pipealloc data, ws, rs⟩ ls s) :
    (s.pipe.nwrite - s.pipe.nread).toNat ≤ PIPESIZE ∧
      takenOf ls ++ ringBytes s.pipe = storedOf ls := by
  have h := hrun.inv (inv_pipealloc data)
  rw [List.nil_append, List.nil_append] at h
  refine ⟨?_, h.taken_append_ringBytes⟩
  rw [h.count_eq]
  have := h.room
  omega

/-- Two bytes written, then a read of one: the reader takes the first and the
second is still in the ring. -/
theorem pipe_fifo_write_two_read_one :
    ∃ s, Run ⟨pipealloc fun _ => 0, [], []⟩
        [.silent, .stored 97, .stored 98, .silent, .silent, .taken 97] s ∧
      ringBytes s.pipe = [98] ∧
      ((s.pipe.nwrite - s.pipe.nread).toNat ≤ PIPESIZE ∧
        takenOf [.silent, .stored 97, .stored 98, .silent, .silent, .taken 97] ++
            ringBytes s.pipe =
          storedOf [.silent, .stored 97, .stored 98, .silent, .silent, .taken 97]) := by
  have hrun := ((((((Run.refl (⟨pipealloc fun _ => 0, [], []⟩ : Sys)).step (Step.pipewrite [97, 98] false)).step
    (Step.writer 0 (by decide))).step (Step.writer 0 (by decide))).step
    (Step.piperead 1 false)).step (Step.reader 0 (by decide))).step (Step.reader 0 (by decide))
  exact ⟨_, hrun, by decide, pipe_fifo hrun⟩

/-! ## A copy that fails -/

/-- **A failed copy loses a byte.** Whatever the pipe and the read, when the
copy of the `i`-th byte fails, `piperead` returns `i`, the bytes delivered,
but `nread` has already moved past the byte it could not deliver: the next
read starts after it. -/
theorem piperead_failed_copy_loses_byte {p : Pipe} {r : Reader} {i : Nat} (hpc : r.pc = .copy i)
    (hi : i < r.n) (hdata : p.nread ≠ p.nwrite) :
    (readerStep false p r).2.1.pc = .ret i ∧
      (readerStep false p r).1.nread = p.nread + 1 ∧ (readerStep false p r).2.2 = none := by
  simp [readerStep, hpc, hi, hdata, load]

/-- A read of one byte from a pipe holding one: its copy fails, it returns
0, and the byte is gone. -/
theorem piperead_failed_copy_loses_byte_one :
    (⟨1, false, .copy 0⟩ : Reader).pc = .copy 0 ∧ 0 < (⟨1, false, .copy 0⟩ : Reader).n ∧
      (store (pipealloc fun _ => 0) 7).nread ≠ (store (pipealloc fun _ => 0) 7).nwrite ∧
      ((readerStep false (store (pipealloc fun _ => 0) 7) ⟨1, false, .copy 0⟩).2.1.pc = .ret 0 ∧
        (readerStep false (store (pipealloc fun _ => 0) 7) ⟨1, false, .copy 0⟩).1.nread =
          (store (pipealloc fun _ => 0) 7).nread + 1 ∧
        (readerStep false (store (pipealloc fun _ => 0) 7) ⟨1, false, .copy 0⟩).2.2 = none) :=
  ⟨rfl, by decide, by decide,
    piperead_failed_copy_loses_byte (p := store (pipealloc fun _ => 0) 7) rfl (by decide) (by decide)⟩

end Pipes

end Xv6
