import Xv6.Library.Trace
import Mathlib

/-!
# `push_off` / `pop_off` across context switches (`kernel/spinlock.c`, `sched`)

One CPU's interrupt state: `noff` and `intena` of `struct cpu`, and the `SIE`
bit of `sstatus`. The CPU runs the scheduler thread and process threads in
turn. Each thread acquires and releases spinlocks, which `push_off` and
`pop_off`; `intr_on` and `intr_off` (the scheduler's loop, `usertrap`, a trap's
entry and `sret`) act only outside critical sections. The scheduler switches to
a process holding `p->lock` and nothing else; a process switches back through
`sched`, which saves `intena` in a local and restores it when the process is
switched to again. A process switched to for the first time starts in
`forkret` instead, which does not restore it.

On every run `noff` is the number of open `push_off`s, interrupts are off while
it is positive, and no `pop_off` panics (`push_off_pop_off_nest`). A process
that opened its own nesting gets back, at its outermost `pop_off`, the
interrupt state it had before its outermost `push_off`, across any `sched` in
between. The scheduler does not: after `swtch` returns, its `release` uses the
`intena` of the process that called `sched` (`trapYield`).
-/

namespace Xv6

namespace Spinlock

/-- The interrupt state of one CPU. -/
structure Cpu where
  /-- Depth of `push_off` nesting (`int noff`). -/
  noff : Int
  /-- Were interrupts enabled before `push_off`? -/
  intena : Bool
  /-- `SSTATUS_SIE`: device interrupts enabled. -/
  sie : Bool
deriving DecidableEq, Repr

/-- `push_off`. -/
def pushOff (c : Cpu) : Cpu :=
  let old := c.sie
  let c := { c with sie := false }
  let c := if c.noff = 0 then { c with intena := old } else c
  { c with noff := c.noff + 1 }

/-- `pop_off`. -/
def popOff (c : Cpu) : Except String Cpu := do
  if c.sie then throw "pop_off - interruptible"
  if c.noff < 1 then throw "pop_off"
  let c := { c with noff := c.noff - 1 }
  if c.noff = 0 ∧ c.intena = true then return { c with sie := true }
  return c

/-- The `pop_off` of a CPU with interrupts off and a nesting open. -/
theorem popOff_eq {c : Cpu} (hsie : c.sie = false) (hnoff : 1 ≤ c.noff) :
    popOff c = .ok { c with noff := c.noff - 1, sie := decide (c.noff = 1) && c.intena } := by
  unfold popOff
  rw [hsie, if_neg Bool.false_ne_true, if_neg (by omega)]
  dsimp only
  -- interrupts come back on only where the count reaches zero with `intena` set
  split
  · rename_i h
    obtain ⟨h0, hi⟩ := h
    have h1 : c.noff = 1 := by omega
    simp only [h1, hi, decide_true, Bool.and_true]
    rfl
  · rename_i h
    by_cases h1 : c.noff = 1
    · have hi : c.intena = false := by simpa [h1] using h
      simp only [h1, hi, Bool.and_false]
      rfl
    · simp only [h1, decide_false, Bool.false_and]
      rfl

/-- The threads of one CPU. -/
inductive Thread where
  | scheduler
  | proc (p : Nat)
deriving DecidableEq, Repr

/-- One CPU and its threads. `depth` and `entry` are ghost state: they record
the run, the kernel has no such fields. -/
structure Machine where
  cpu : Cpu
  /-- The thread the CPU is running. -/
  cur : Thread
  /-- The local `intena` of `sched` in each process switched out by it. -/
  saved : Nat → Bool
  /-- Whether the process has run: a switch to it returns into `sched`, not
  into `forkret`. -/
  started : Nat → Bool
  /-- Ghost: `push_off`s less `pop_off`s so far. -/
  depth : Nat
  /-- Ghost: the `SIE` before the outermost `push_off` of a nesting the process
  opened, while that nesting is open. -/
  entry : Nat → Option Bool

/-- The events of the CPU. -/
inductive Event where
  /-- `acquire`, by the running thread: its `push_off`. -/
  | acquire
  /-- `release`: its `pop_off`. -/
  | release
  /-- `intr_on` or `intr_off`; also a trap's entry and its `sret`. -/
  | intr (on : Bool)
  /-- The scheduler's `swtch` to process `p`. -/
  | run (p : Nat)
  /-- The running process's `sched`. -/
  | sched
deriving DecidableEq, Repr

/-- The CPU at boot, in the scheduler, interrupts off. -/
def boot : Machine where
  cpu := { noff := 0, intena := false, sie := false }
  cur := .scheduler
  saved := fun _ => false
  started := fun _ => false
  depth := 0
  entry := fun _ => none

/-- `acquire`'s `push_off`. A process's push at depth 0 opens its nesting. -/
def acquire (m : Machine) : Machine :=
  { m with
    cpu := pushOff m.cpu
    depth := m.depth + 1
    entry := match m.cur with
      | .proc p => if m.depth = 0 then Function.update m.entry p (some m.cpu.sie) else m.entry
      | .scheduler => m.entry }

/-- `release`'s `pop_off`. A process's pop back to depth 0 closes its nesting. -/
def release (m : Machine) : Except String Machine :=
  (popOff m.cpu).map fun c =>
    { m with
      cpu := c
      depth := m.depth - 1
      entry := match m.cur with
        | .proc p => if m.depth = 1 then Function.update m.entry p none else m.entry
        | .scheduler => m.entry }

/-- `sched` in process `p`, up to its `swtch` to the scheduler. Its first two
checks, `holding(&p->lock)` and `p->state != RUNNING`, read state this model
does not have; the `sched` event stands for a call where they pass. -/
def sched (m : Machine) (p : Nat) : Except String Machine := do
  if m.cpu.noff ≠ 1 then throw "sched locks"
  if m.cpu.sie then throw "sched interruptible"
  return { m with saved := Function.update m.saved p m.cpu.intena, cur := .scheduler }

/-- The scheduler's `swtch` to `p`: back into `sched`, which restores its
`intena`, or the first time into `forkret`, which does not. -/
def switchTo (m : Machine) (p : Nat) : Machine :=
  if m.started p then { m with cpu := { m.cpu with intena := m.saved p }, cur := .proc p }
  else { m with started := Function.update m.started p true, cur := .proc p }

/-- One event; `none` where the code does not produce it: a `pop_off` with no
`push_off` open, `intr_on`/`intr_off` inside a critical section, the
scheduler's `swtch` holding anything but `p->lock`, `sched` not holding it. -/
def step (m : Machine) : Event → Option (Except String Machine)
  | .acquire => some (.ok (acquire m))
  | .release => if 0 < m.depth then some (release m) else none
  | .intr on => if m.depth = 0 then some (.ok { m with cpu := { m.cpu with sie := on } }) else none
  | .run p => if m.cur = .scheduler ∧ m.depth = 1 then some (.ok (switchTo m p)) else none
  | .sched =>
    match m.cur with
    | .proc p => if 0 < m.depth then some (sched m p) else none
    | .scheduler => none

/-- The run of a list of events from boot. -/
def run (es : List Event) : Option (Except String Machine) := Trace.runSteps step boot es

/-! ## What each event does -/

@[simp] theorem pushOff_noff (c : Cpu) : (pushOff c).noff = c.noff + 1 := by
  unfold pushOff
  dsimp only
  split <;> rfl

@[simp] theorem pushOff_sie (c : Cpu) : (pushOff c).sie = false := by
  unfold pushOff
  dsimp only
  split <;> rfl

theorem pushOff_intena (c : Cpu) : (pushOff c).intena = if c.noff = 0 then c.sie else c.intena := by
  unfold pushOff
  dsimp only
  split <;> rfl

@[simp] theorem acquire_cur (m : Machine) : (acquire m).cur = m.cur := rfl

/-- `acquire` changes the ghost entry of the running process only. -/
theorem acquire_entry_of_ne {m : Machine} {p : Nat} (hp : m.cur ≠ .proc p) :
    (acquire m).entry p = m.entry p := by
  unfold acquire
  cases hc : m.cur with
  | scheduler => rfl
  | proc q =>
    have hqp : p ≠ q := fun h => hp (h ▸ hc)
    dsimp only
    split
    · exact Function.update_of_ne hqp _ _
    · rfl

theorem acquire_entry_cur {m : Machine} {p : Nat} (hp : m.cur = .proc p) :
    (acquire m).entry p = if m.depth = 0 then some m.cpu.sie else m.entry p := by
  unfold acquire
  dsimp only
  rw [hp]
  dsimp only
  split
  · exact Function.update_self _ _ _
  · rfl

/-- The machine after a `pop_off` of a CPU with interrupts off and a nesting
open. -/
def released (m : Machine) : Machine :=
  { m with
    cpu := { m.cpu with noff := m.cpu.noff - 1, sie := decide (m.cpu.noff = 1) && m.cpu.intena }
    depth := m.depth - 1
    entry := match m.cur with
      | .proc p => if m.depth = 1 then Function.update m.entry p none else m.entry
      | .scheduler => m.entry }

theorem release_eq {m : Machine} (hsie : m.cpu.sie = false) (hnoff : 1 ≤ m.cpu.noff) :
    release m = .ok (released m) := by
  unfold release
  rw [popOff_eq hsie hnoff]
  rfl

/-- `release` only closes ghost entries. -/
theorem released_entry {m : Machine} {p : Nat} {e : Bool} (h : (released m).entry p = some e) :
    m.entry p = some e := by
  revert h
  unfold released
  cases hc : m.cur with
  | scheduler => exact id
  | proc q =>
    dsimp only
    split
    · by_cases hpq : p = q
      · subst hpq
        rw [Function.update_self]
        intro h
        cases h
      · rw [Function.update_of_ne hpq]
        exact id
    · exact id

theorem sched_eq (m : Machine) (p : Nat) :
    sched m p =
      if m.cpu.noff ≠ 1 then .error "sched locks"
      else if m.cpu.sie then .error "sched interruptible"
      else .ok { m with saved := Function.update m.saved p m.cpu.intena, cur := .scheduler } := by
  unfold sched
  by_cases h1 : m.cpu.noff = 1
  · by_cases h2 : m.cpu.sie = true
    · simp only [h1, h2, ne_eq, not_true_eq_false, if_false, if_true]
      rfl
    · simp only [h1, h2, ne_eq, not_true_eq_false, if_false]
      rfl
  · simp only [h1, ne_eq, not_false_eq_true, if_true]
    rfl

/-! ## The invariant -/

/-- What holds between the events of every run. -/
structure Inv (m : Machine) : Prop where
  noff_eq : m.cpu.noff = m.depth
  sie_off : 0 < m.depth → m.cpu.sie = false
  cur_started : ∀ p, m.cur = .proc p → m.started p = true
  entry_started : ∀ p e, m.entry p = some e → m.started p = true
  /-- The running process that opened a nesting holds its own `intena`. -/
  entry_intena : ∀ p e, m.entry p = some e → m.cur = .proc p → m.cpu.intena = e
  /-- A process switched out by `sched` holds it in `sched`'s local. -/
  entry_saved : ∀ p e, m.entry p = some e → m.cur ≠ .proc p → m.saved p = e

theorem inv_boot : Inv boot where
  noff_eq := rfl
  sie_off := fun h => absurd h (Nat.lt_irrefl 0)
  cur_started := fun _ h => by cases h
  entry_started := fun _ _ h => by cases h
  entry_intena := fun _ _ h => by cases h
  entry_saved := fun _ _ h => by cases h

variable {m m' : Machine}

theorem Inv.acquire (h : Inv m) : Inv (acquire m) where
  noff_eq := by
    show (pushOff m.cpu).noff = ((m.depth + 1 : Nat) : Int)
    rw [pushOff_noff, h.noff_eq]
    push_cast
    rfl
  sie_off := fun _ => pushOff_sie m.cpu
  cur_started := h.cur_started
  entry_started := by
    intro p e he
    by_cases hp : m.cur = .proc p
    · exact h.cur_started p hp
    · rw [acquire_entry_of_ne hp] at he
      exact h.entry_started p e he
  entry_intena := by
    intro p e he hp
    rw [acquire_cur] at hp
    rw [acquire_entry_cur hp] at he
    show (pushOff m.cpu).intena = e
    rw [pushOff_intena]
    by_cases hd : m.depth = 0
    · -- the process opens its nesting: `intena` is the `SIE` just recorded
      rw [if_pos hd] at he
      rw [if_pos (by rw [h.noff_eq, hd]; rfl)]
      exact Option.some.inj he
    · rw [if_neg hd] at he
      rw [if_neg (by rw [h.noff_eq]; exact_mod_cast hd)]
      exact h.entry_intena p e he hp
  entry_saved := by
    intro p e he hp
    rw [acquire_cur] at hp
    rw [acquire_entry_of_ne hp] at he
    exact h.entry_saved p e he hp

theorem Inv.released (h : Inv m) (hd : 0 < m.depth) : Inv (released m) where
  noff_eq := by
    show m.cpu.noff - 1 = ((m.depth - 1 : Nat) : Int)
    rw [h.noff_eq]
    omega
  sie_off := by
    intro hd'
    show (decide (m.cpu.noff = 1) && m.cpu.intena) = false
    have hn : m.cpu.noff ≠ 1 := by
      have : 0 < m.depth - 1 := hd'
      rw [h.noff_eq]
      omega
    rw [decide_eq_false hn, Bool.false_and]
  cur_started := h.cur_started
  entry_started := fun p e he => h.entry_started p e (released_entry he)
  entry_intena := fun p e he hp => h.entry_intena p e (released_entry he) hp
  entry_saved := fun p e he hp => h.entry_saved p e (released_entry he) hp

theorem Inv.intr (h : Inv m) (hd : m.depth = 0) (on : Bool) :
    Inv { m with cpu := { m.cpu with sie := on } } where
  noff_eq := h.noff_eq
  sie_off := fun hpos => absurd hd (Nat.pos_iff_ne_zero.mp hpos)
  cur_started := h.cur_started
  entry_started := h.entry_started
  entry_intena := h.entry_intena
  entry_saved := h.entry_saved

theorem Inv.switchTo (h : Inv m) (hcur : m.cur = .scheduler) (p : Nat) : Inv (switchTo m p) := by
  unfold Spinlock.switchTo
  split
  · -- back into `sched`, which restores `p`'s `intena`
    rename_i hstarted
    exact {
      noff_eq := h.noff_eq
      sie_off := h.sie_off
      cur_started := fun q hq => by cases hq; exact hstarted
      entry_started := h.entry_started
      entry_intena := fun q e he hq => by
        obtain rfl : p = q := Thread.proc.inj hq
        exact h.entry_saved p e he (by rw [hcur]; exact Thread.noConfusion)
      entry_saved := fun q e he hq => h.entry_saved q e he (by rw [hcur]; exact Thread.noConfusion) }
  · -- into `forkret`: `p` has opened no nesting yet
    rename_i hstarted
    exact {
      noff_eq := h.noff_eq
      sie_off := h.sie_off
      cur_started := fun q hq => by cases hq; exact Function.update_self _ _ _
      entry_started := fun q e he => by
        show Function.update m.started p true q = true
        by_cases hq : q = p
        · subst hq
          exact Function.update_self _ _ _
        · rw [Function.update_of_ne hq]
          exact h.entry_started q e he
      entry_intena := fun q e he hq => by
        obtain rfl : p = q := Thread.proc.inj hq
        exact absurd (h.entry_started p e he) hstarted
      entry_saved := fun q e he hq => h.entry_saved q e he (by rw [hcur]; exact Thread.noConfusion) }

theorem Inv.sched {p : Nat} (h : Inv m) (hcur : m.cur = .proc p) (hs : sched m p = .ok m') :
    Inv m' := by
  rw [sched_eq] at hs
  split at hs
  · cases hs
  · split at hs
    · cases hs
    · cases hs
      exact {
        noff_eq := h.noff_eq
        sie_off := h.sie_off
        cur_started := fun q hq => by cases hq
        entry_started := h.entry_started
        entry_intena := fun q e he hq => by cases hq
        entry_saved := fun q e he _ => by
          -- the process switched out keeps its `intena` in `sched`'s local
          show Function.update m.saved p m.cpu.intena q = e
          by_cases hq : q = p
          · subst hq
            rw [Function.update_self]
            exact h.entry_intena q e he hcur
          · rw [Function.update_of_ne hq]
            exact h.entry_saved q e he (by rw [hcur]; exact fun h' => hq (Thread.proc.inj h').symm) }

theorem Inv.step {e : Event} (h : Inv m) (hs : Spinlock.step m e = some (.ok m')) : Inv m' := by
  cases e with
  | acquire =>
    cases hs
    exact h.acquire
  | release =>
    simp only [Spinlock.step] at hs
    split at hs
    · rename_i hd
      rw [release_eq (h.sie_off hd) (by rw [h.noff_eq]; exact_mod_cast hd)] at hs
      cases hs
      exact h.released hd
    · cases hs
  | intr on =>
    simp only [Spinlock.step] at hs
    split at hs
    · rename_i hd
      cases hs
      exact h.intr hd on
    · cases hs
  | run p =>
    simp only [Spinlock.step] at hs
    split at hs
    · rename_i hc
      cases hs
      exact h.switchTo hc.1 p
    · cases hs
  | sched =>
    simp only [Spinlock.step] at hs
    split at hs
    · rename_i p hcur
      split at hs
      · exact h.sched hcur (Option.some.inj hs)
      · cases hs
    · cases hs

/-- From a state of the invariant the only panic an event can raise is
`sched`'s `"sched locks"`, a process calling `sched` holding more than
`p->lock`: neither of `pop_off`'s, nor `"sched interruptible"`. -/
theorem Inv.step_error {e : Event} {msg : String} (h : Inv m)
    (hs : Spinlock.step m e = some (.error msg)) :
    msg = "sched locks" := by
  cases e with
  | acquire => cases hs
  | release =>
    simp only [Spinlock.step] at hs
    split at hs
    · rename_i hd
      rw [release_eq (h.sie_off hd) (by rw [h.noff_eq]; exact_mod_cast hd)] at hs
      cases hs
    · cases hs
  | intr on =>
    simp only [Spinlock.step] at hs
    split at hs <;> cases hs
  | run p =>
    simp only [Spinlock.step] at hs
    split at hs <;> cases hs
  | sched =>
    simp only [Spinlock.step] at hs
    split at hs
    · rename_i p _
      split at hs
      · rename_i hd
        have hsched := Option.some.inj hs
        rw [sched_eq] at hsched
        split at hsched
        · cases hsched
          rfl
        · -- interrupts are off inside the nesting `sched` is called in
          rw [if_neg (by rw [h.sie_off hd]; exact Bool.false_ne_true)] at hsched
          cases hsched
      · cases hs
    · cases hs

/-- A process's outermost `release` of a nesting it opened gives it back the
`SIE` it had before its outermost `acquire`. -/
theorem Inv.release_outermost {p : Nat} {e : Bool} (h : Inv m) (hcur : m.cur = .proc p)
    (he : m.entry p = some e) (hd : m.depth = 1) (hs : Spinlock.step m .release = some (.ok m')) :
    m'.cpu.sie = e := by
  have hpos : 0 < m.depth := by omega
  simp only [Spinlock.step, if_pos hpos] at hs
  rw [release_eq (h.sie_off hpos) (by rw [h.noff_eq, hd]; decide)] at hs
  cases hs
  show (decide (m.cpu.noff = 1) && m.cpu.intena) = e
  rw [h.noff_eq, hd, h.entry_intena p e he hcur]
  rfl

/-! ## Every run -/

theorem run_inv {es : List Event} (h : run es = some (.ok m)) : Inv m :=
  Trace.runSteps_inv (fun _ _ _ hi hs => Inv.step hi hs) es inv_boot h

theorem run_error {es : List Event} {msg : String} (h : run es = some (.error msg)) :
    msg = "sched locks" :=
  Trace.runSteps_error (fun _ _ _ hi hs => Inv.step hi hs) (fun _ _ _ hi hs => Inv.step_error hi hs)
    es inv_boot h

/-- On every run of one CPU, `noff` is the number of open `push_off`s and
interrupts are off while it is positive. No event panics but a `sched` called
holding more than `p->lock`, so `pop_off` never panics. The outermost
`pop_off` of a nesting a process opened sets `SIE` back to what it was before
that nesting's outermost `push_off`, across any `sched` in between. -/
theorem push_off_pop_off_nest (es : List Event) :
    (∀ msg, run es = some (.error msg) → msg = "sched locks") ∧
    ∀ m, run es = some (.ok m) →
      m.cpu.noff = m.depth ∧ (0 < m.cpu.noff → m.cpu.sie = false) ∧
      ∀ p e m', m.cur = .proc p → m.entry p = some e → m.depth = 1 →
        step m .release = some (.ok m') → m'.cpu.sie = e := by
  refine ⟨fun msg h => run_error h, fun m h => ?_⟩
  have hi := run_inv h
  refine ⟨hi.noff_eq, fun hpos => hi.sie_off (by have := hi.noff_eq; omega), ?_⟩
  intro p e m' hcur he hd hs
  exact hi.release_outermost hcur he hd hs

/-- Process 1 starts, enters the kernel by a system call (`intr_on` in
`usertrap`), acquires a lock with interrupts on and sleeps in `sched`; the
scheduler releases, takes another round and switches back to it. -/
def sleepWake : List Event :=
  [.intr true, .acquire, .run 1, .release, .intr true, .acquire, .sched, .release,
    .intr true, .acquire, .run 1]

/-- Process 1's release after `sched` returns turns interrupts back on. -/
theorem push_off_pop_off_nest_sleep :
    ∃ m, run sleepWake = some (.ok m) ∧ m.cur = .proc 1 ∧ m.entry 1 = some true ∧ m.depth = 1 ∧
      ∃ m', step m .release = some (.ok m') ∧ m'.cpu.sie = true :=
  ⟨_, rfl, rfl, rfl, rfl, _, rfl,
    ((push_off_pop_off_nest sleepWake).2 _ rfl).2.2 1 true _ rfl rfl rfl rfl⟩

/-- The scheduler switches interrupts on at the top of its loop and acquires
`p->lock` (events 1, 2). Process 1 starts in `forkret` and releases it; a
timer interrupt enters `kerneltrap` with interrupts off, which yields: acquire,
`sched` (4 to 7). The scheduler's release (8) then leaves interrupts off. In the
next round (9, 10) it switches back to process 1, whose release (12) leaves
them off too. -/
def trapYield : List Event :=
  [.intr true, .acquire, .run 1, .release, .intr false, .acquire, .sched, .release,
    .intr true, .acquire, .run 1, .release]

/-- In `trapYield`, interrupts are on before the outermost `push_off`s of
events 2 and 10, and off after the outermost `pop_off`s of events 8 and 12:
the scheduler's own release, and the one each matches on the CPU. -/
theorem outermost_pop_off_keeps_interrupts_off :
    [1, 8, 9, 12].map (fun k => (run (trapYield.take k)).map (Except.map fun m => (m.depth, m.cpu.sie))) =
      [some (.ok (0, true)), some (.ok (0, false)), some (.ok (0, true)), some (.ok (0, false))] := by
  decide

end Spinlock

end Xv6
