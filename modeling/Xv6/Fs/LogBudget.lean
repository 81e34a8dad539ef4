import Xv6.Fs.State
import Xv6.Library.GroupCommit
import Xv6.Library.StateExcept

/-!
# The log's budget over interleaved operations (`kernel/log.c`)

The file-system model runs each system call to its end; concurrent
operations are interleaved at `begin_op`, `log_write` and `end_op`, whose
accounting (`lh`, `outstanding`, `committing`, `log.size`) is all that the
log's size checks read. `GroupCommit` is that accounting with the operations
named. Here the model's three functions are shown to be its steps
(`Tracks`, `tracks_beginOp`, `tracks_logWrite`, `tracks_endOp`), and a run
of any interleaving of them is executed call by call (`runLog`).

The result (`runLog_returns_or_sleeps`): with the log `mkfs` creates
(`log.size = LOGSIZE`), every interleaving in which each operation logs at
most `MAXOPBLOCKS - 2` distinct blocks runs to its end or to a `begin_op`
that sleeps; in particular `log_write` never panics "too big a transaction".
Whether every system call stays within that many blocks is a separate
question, about the file system's code paths.
-/

namespace Xv6

namespace Fs

open GroupCommit

/-- The budget of the log `mkfs` creates: `LOGSIZE` header slots,
`log.size - 1 = LOGSIZE - 1` data blocks, `MAXOPBLOCKS` reserved per
operation. -/
def logBudget : Budget := ⟨LOGSIZE, LOGSIZE - 1, MAXOPBLOCKS⟩

variable {ι : Type}

/-- The state's log accounting is that of the abstract log `l`: the group
without repeats, one outstanding count per active operation, no commit in
progress, and the log size `mkfs` gives. -/
structure Tracks (s : FsState) (l : GroupCommit.Log ι Nat) : Prop where
  nodup : s.lh.Nodup
  group : s.lh.toFinset = l.group
  outstanding : s.outstanding = l.active.card
  idle : s.committing = false
  logsize : s.logsize = LOGSIZE

theorem Tracks.length_eq {s : FsState} {l : GroupCommit.Log ι Nat} (ht : Tracks s l) :
    s.lh.length = l.group.card := by
  rw [← ht.group, List.toFinset_card_of_nodup ht.nodup]

variable [DecidableEq ι] {K : Nat} {s s' : FsState} {l : GroupCommit.Log ι Nat} {i : ι}

/-- `begin_op` admits exactly when the abstract log admits. -/
theorem tracks_beginOp (ht : Tracks s l) (hnew : i ∉ l.active)
    (h : beginOp.run s = .ok ((), s')) :
    Step logBudget K l (l.enter i) ∧ Tracks s' (l.enter i) := by
  rw [beginOp_run, if_neg (by simp [ht.idle])] at h
  split at h
  · cases h
  · rename_i hroom
    cases h
    have hlen := ht.length_eq
    have hout := ht.outstanding
    refine ⟨.begin l i hnew ?_, ⟨ht.nodup, ht.group, ?_, ht.idle, ht.logsize⟩⟩
    · simp only [logBudget, LOGSIZE, MAXOPBLOCKS] at hroom ⊢
      omega
    · simp [Finset.card_insert_of_notMem hnew, hout]

/-- A `log_write` that returns is the abstract write (and it checked the
limits). -/
theorem tracks_logWrite {b : Nat} (ht : Tracks s l) (hi : i ∈ l.active)
    (hK : b ∈ l.written i ∨ (l.written i).card < K) (h : (logWrite b).run s = .ok ((), s')) :
    Step logBudget K l (l.record i b) ∧ Tracks s' (l.record i b) := by
  rw [logWrite_run] at h
  split at h
  · cases h
  · rename_i hfits
    rw [if_neg (by rw [ht.outstanding]; have := Finset.card_pos.mpr ⟨i, hi⟩; omega)] at h
    cases h
    have hlen := ht.length_eq
    refine ⟨.write l i b hi hK ?_, ?_⟩
    · simp only [Overflows, logBudget, ht.logsize] at hfits ⊢
      omega
    · by_cases hb : b ∈ s.lh
      · simp only [if_pos hb]
        refine ⟨ht.nodup, ?_, ht.outstanding, ht.idle, ht.logsize⟩
        rw [Log.record_group, ← ht.group, Finset.insert_eq_of_mem (List.mem_toFinset.mpr hb)]
      · simp only [if_neg hb]
        refine ⟨ht.nodup.append (List.nodup_singleton b) (by simpa using hb), ?_,
          ht.outstanding, ht.idle, ht.logsize⟩
        rw [Log.record_group, ← ht.group]
        ext x
        simp only [List.mem_toFinset, List.mem_append, List.mem_singleton, Finset.mem_insert]
        exact or_comm

/-- `end_op` of an active operation is the abstract `finish`; the last one
commits. -/
theorem tracks_endOp (ht : Tracks s l) (hi : i ∈ l.active) (h : endOp.run s = .ok ((), s')) :
    Step logBudget K l (l.leave i) ∧ Tracks s' (l.leave i) := by
  rw [endOp_run, if_neg (by simp [ht.idle])] at h
  cases h
  refine ⟨.finish l i hi, ?_⟩
  have hcard := Finset.card_erase_of_mem hi
  have hpos := Finset.card_pos.mpr ⟨i, hi⟩
  have hout := ht.outstanding
  by_cases h0 : s.outstanding - 1 = 0
  · have hempty : l.active.erase i = ∅ := by
      rw [← Finset.card_eq_zero]; omega
    simp only [if_pos h0]
    refine ⟨List.nodup_nil, ?_, ?_, ht.idle, ht.logsize⟩
    · simp [hempty]
    · simp [hempty]
  · have hne : l.active.erase i ≠ ∅ := by
      rw [Ne, ← Finset.card_eq_zero]; omega
    simp only [if_neg h0]
    refine ⟨ht.nodup, ?_, ?_, ht.idle, ht.logsize⟩
    · simp [hne, ht.group]
    · simp only [Log.leave_active, hcard]; omega

/-- **`log_write` returns in a reachable state.** If the accounting tracks a
log that some interleaving of operations, each within `K ≤ MAXOPBLOCKS - 2`
distinct blocks, reaches, then a `log_write` by an active operation passes
both of its checks: it panics neither "too big a transaction" nor "outside of
trans". -/
theorem logWrite_returns {b : Nat} (hK : K + 2 ≤ MAXOPBLOCKS) (ht : Tracks s l)
    (hr : Reachable logBudget K l) (hi : i ∈ l.active) :
    ∃ s', (logWrite b).run s = .ok ((), s') := by
  have hfits := write_fits logBudget K hK (by decide) hr hi
  have hlen := ht.length_eq
  have hpos := Finset.card_pos.mpr ⟨i, hi⟩
  simp only [Overflows, logBudget] at hfits
  rw [logWrite_run, if_neg (by rw [ht.logsize]; simp only [LOGSIZE, MAXOPBLOCKS] at hfits ⊢; omega),
    if_neg (by rw [ht.outstanding]; omega)]
  exact ⟨_, rfl⟩

/-! ## Interleavings

An interleaving is the list of the calls the operations make, in the order
they return. A `begin_op` that sleeps changes nothing: the process waits and
calls again, and the call that returns is the one in the list. -/

/-- One call of an interleaving: operation `i` calls `begin_op`,
`log_write(b)` or `end_op`. -/
inductive LogEvent (ι : Type) where
  | begin (i : ι)
  | write (i : ι) (b : Nat)
  | finish (i : ι)
  deriving DecidableEq, Repr

/-- What a call may do under the protocol: an operation begins when it is not
active, and writes and ends only while it is; it logs at most `K` distinct
blocks. -/
def LogEvent.Allowed (K : Nat) (l : GroupCommit.Log ι Nat) : LogEvent ι → Prop
  | .begin i => i ∉ l.active
  | .write i b => i ∈ l.active ∧ (b ∈ l.written i ∨ (l.written i).card < K)
  | .finish i => i ∈ l.active

instance (e : LogEvent ι) : Decidable (e.Allowed K l) := by
  cases e <;> unfold LogEvent.Allowed <;> infer_instance

/-- The abstract log after a call. -/
def LogEvent.apply (l : GroupCommit.Log ι Nat) : LogEvent ι → GroupCommit.Log ι Nat
  | .begin i => l.enter i
  | .write i b => l.record i b
  | .finish i => l.leave i

/-- Every call of the interleaving is allowed where it is made. -/
def Disciplined (K : Nat) : GroupCommit.Log ι Nat → List (LogEvent ι) → Prop
  | _, [] => True
  | l, e :: es => e.Allowed K l ∧ Disciplined K (e.apply l) es

/-- The call the kernel makes for an event. -/
def runEvent : LogEvent ι → FsM Unit
  | .begin _ => beginOp
  | .write _ b => logWrite b
  | .finish _ => endOp

/-- The calls of an interleaving, one after another. -/
def runLog (es : List (LogEvent ι)) : FsM Unit := es.forM runEvent

/-- One allowed call from a tracked reachable state sleeps, or returns in a
state that tracks the next log, which is reachable too. -/
theorem runEvent_step (hK : K + 2 ≤ MAXOPBLOCKS) (ht : Tracks s l)
    (hr : Reachable logBudget K l) (e : LogEvent ι) (he : e.Allowed K l) :
    (runEvent e).run s = .error .sleep ∨
      ∃ s', (runEvent e).run s = .ok ((), s') ∧ Tracks s' (e.apply l) ∧
        Reachable logBudget K (e.apply l) := by
  cases e with
  | begin j =>
    cases h : beginOp.run s with
    | error stop =>
      -- with no commit in progress `begin_op` only ever sleeps
      have hsleep : stop = .sleep := by
        rw [beginOp_run, if_neg (by simp [ht.idle])] at h
        split at h <;> cases h
        rfl
      subst hsleep
      exact .inl h
    | ok r =>
      obtain ⟨⟨⟩, s'⟩ := r
      obtain ⟨hstep, ht'⟩ := tracks_beginOp ht he h
      exact .inr ⟨s', h, ht', hr.step hstep⟩
  | write j b =>
    obtain ⟨hj, hKj⟩ := he
    obtain ⟨s', h⟩ := logWrite_returns hK ht hr hj (b := b)
    obtain ⟨hstep, ht'⟩ := tracks_logWrite ht hj hKj h
    exact .inr ⟨s', h, ht', hr.step hstep⟩
  | finish j =>
    obtain ⟨s', h⟩ : ∃ s', endOp.run s = .ok ((), s') := by
      rw [endOp_run, if_neg (by simp [ht.idle])]
      exact ⟨_, rfl⟩
    obtain ⟨hstep, ht'⟩ := tracks_endOp (K := K) ht he h
    exact .inr ⟨s', h, ht', hr.step hstep⟩

/-- **No interleaving panics.** From a state whose accounting tracks a
reachable log (the idle log `mkfs` leaves, for one), every interleaving of
operations that follow the protocol, each logging at most `K ≤ MAXOPBLOCKS -
2` distinct blocks, runs to its end or to a `begin_op` that sleeps: no
`log_write` panics "too big a transaction", and no call panics at all. -/
theorem runLog_returns_or_sleeps (hK : K + 2 ≤ MAXOPBLOCKS) :
    ∀ (es : List (LogEvent ι)) {s : FsState} {l : GroupCommit.Log ι Nat},
      Tracks s l → Reachable logBudget K l → Disciplined K l es →
        (runLog es).run s = .error .sleep ∨ ∃ s', (runLog es).run s = .ok ((), s')
  | [], s, _, _, _, _ => .inr ⟨s, rfl⟩
  | e :: es, s, l, ht, hr, ⟨he, hes⟩ => by
    -- the first call, then the rest of the interleaving from where it left
    have hcons : runLog (e :: es) = runEvent e >>= fun _ => runLog es := rfl
    rw [hcons]
    rcases runEvent_step hK ht hr e he with hsleep | ⟨s', h, ht', hr'⟩
    · exact .inl (StateExcept.run_bind_of_error hsleep)
    · rw [StateExcept.run_bind_of_run h]
      exact runLog_returns_or_sleeps hK es ht' hr' hes

/-- An idle log as `mkfs` leaves it: no group, no operation, no commit. -/
def idleLog : FsState where
  blocks := fun _ => zeroBlock
  sb := { magic := FSMAGIC, size := 0, nblocks := 0, ninodes := 0, nlog := LOGSIZE, logstart := 2,
          inodestart := 2 + LOGSIZE, bmapstart := 2 + LOGSIZE }
  lh := []
  outstanding := 0
  committing := false
  logsize := LOGSIZE
  inodes := []
  files := []
  procs := []

/-- Two overlapping operations: `0` logs blocks 5 and 7, block 5 twice, and
`1` logs block 6; `0` ends first, `1` commits the group. -/
def twoOps : List (LogEvent Nat) :=
  [.begin 0, .write 0 5, .begin 1, .write 1 6, .write 0 5, .write 0 7, .finish 0, .finish 1]

/-- The two operations, from the idle log, each within its budget of 8
blocks: the run returns or sleeps. -/
theorem runLog_returns_or_sleeps_twoOps :
    Tracks idleLog (GroupCommit.Log.empty : GroupCommit.Log Nat Nat) ∧
      Reachable logBudget 8 (GroupCommit.Log.empty : GroupCommit.Log Nat Nat) ∧
      Disciplined 8 GroupCommit.Log.empty twoOps ∧
      ((runLog twoOps).run idleLog = .error .sleep ∨
        ∃ s', (runLog twoOps).run idleLog = .ok ((), s')) := by
  have ht : Tracks idleLog (GroupCommit.Log.empty : GroupCommit.Log Nat Nat) :=
    ⟨List.nodup_nil, rfl, rfl, rfl, rfl⟩
  have hd : Disciplined 8 (GroupCommit.Log.empty : GroupCommit.Log Nat Nat) twoOps := by
    simp [twoOps, Disciplined, LogEvent.Allowed, LogEvent.apply, GroupCommit.Log.empty,
      GroupCommit.Log.enter, GroupCommit.Log.record, GroupCommit.Log.leave, Function.update]
  exact ⟨ht, .init, hd, runLog_returns_or_sleeps (by decide) twoOps ht .init hd⟩

end Fs

end Xv6
