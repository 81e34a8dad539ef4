import Xv6.Param
import Mathlib

/-!
# The process table (`kernel/proc.c`)

`proc[NPROC]` with `allocpid`, `allocproc`, `freeproc`, `userinit`, `fork`,
`reparent`, `exit`, `wait`, `sleep`, `wakeup`, `wakeup1`, `yield`, the
scheduler's choice and `kill`. Each runs as one atomic step: the code holds
the locks of the slots it changes for the whole of its change (`allocproc`
returns its slot locked, and `fork` keeps it locked until the child is
`RUNNABLE`), so no other step sees a state in between.

What other subsystems do to a process is outside this model: the pages that
`kalloc`, `proc_pagetable` and `uvmcopy` provide are arguments (`none` for
an allocation that fails), and `filedup`, `fileclose` and `iput` act on the
file table and the inode cache of the file-system model. Here a process's
open files and current directory are the indices it holds.

`pid` and `nextpid` are C `int`s taken without bound: `nextpid` never wraps.
-/

namespace Xv6

/-- `riscv.h`: bytes per page. -/
def PGSIZE : Nat := 4096

namespace Procs

/-- `enum procstate`. -/
inductive ProcState
  | UNUSED
  | SLEEPING
  | RUNNABLE
  | RUNNING
  | ZOMBIE
  deriving DecidableEq, Repr

/-- A sleep channel (`void *chan`): a `struct proc`, on which `wait` sleeps,
or any other kernel address. -/
inductive Chan
  | proc (i : Fin NPROC)
  | other (a : Nat)
  deriving DecidableEq, Repr

/-- `struct proc`, without the lock, the kernel stack, the saved context and
the name, which no step here reads. -/
structure Proc where
  state : ProcState
  parent : Option (Fin NPROC)
  chan : Option Chan
  killed : Bool
  xstate : Int
  pid : Int
  sz : Nat
  pagetable : Option Nat
  trapframe : Option Nat
  ofile : List (Option Nat)
  cwd : Option Nat
  deriving DecidableEq, Repr

/-- A slot of the zeroed static `proc[]`. -/
def Proc.zero : Proc where
  state := .UNUSED
  parent := none
  chan := none
  killed := false
  xstate := 0
  pid := 0
  sz := 0
  pagetable := none
  trapframe := none
  ofile := List.replicate NOFILE none
  cwd := none

/-- The table, `nextpid` and `initproc`. -/
structure Table where
  proc : Fin NPROC → Proc
  nextpid : Int
  initproc : Option (Fin NPROC)

/-- The table at boot: zeroed slots, `nextpid = 1`, no `initproc`. -/
def boot : Table where
  proc := fun _ => Proc.zero
  nextpid := 1
  initproc := none

/-- Change slot `i` by `f`. -/
def Table.update (t : Table) (i : Fin NPROC) (f : Proc → Proc) : Table :=
  { t with proc := Function.update t.proc i (f (t.proc i)) }

section Update

variable (t : Table) (i : Fin NPROC) (f : Proc → Proc)

@[simp] theorem Table.update_proc_self : (t.update i f).proc i = f (t.proc i) := by
  simp [Table.update]

@[simp] theorem Table.update_proc_of_ne {j : Fin NPROC} (h : j ≠ i) :
    (t.update i f).proc j = t.proc j := by
  simp [Table.update, h]

theorem Table.update_proc (j : Fin NPROC) :
    (t.update i f).proc j = if j = i then f (t.proc i) else t.proc j := by
  by_cases h : j = i
  · subst h; simp
  · simp [h]

@[simp] theorem Table.update_nextpid : (t.update i f).nextpid = t.nextpid := rfl

@[simp] theorem Table.update_initproc : (t.update i f).initproc = t.initproc := rfl

end Update

/-! ## Allocation -/

/-- `allocpid`. -/
def allocpid (t : Table) : Int × Table :=
  (t.nextpid, { t with nextpid := t.nextpid + 1 })

/-- `freeproc`: the slot goes back to `UNUSED`, cleared. Its open files and
current directory are left as they are: `exit` has dropped them already. -/
def freeproc (t : Table) (i : Fin NPROC) : Table :=
  t.update i fun p =>
    { p with trapframe := none, pagetable := none, sz := 0, pid := 0, parent := none,
             chan := none, killed := false, xstate := 0, state := .UNUSED }

/-- `allocproc`, with `kalloc`'s trapframe page `tf` and the page table
`proc_pagetable` builds, `pt`. The first `UNUSED` slot gets a new pid. When
the trapframe cannot be had, the code returns at once: the slot stays
`UNUSED` and keeps its new pid. When the page table cannot be had, it is
freed. On success the slot is returned still `UNUSED`. -/
def allocproc (t : Table) (tf pt : Option Nat) : Option (Fin NPROC) × Table :=
  match (List.finRange NPROC).find? (fun i => (t.proc i).state == .UNUSED) with
  | none => (none, t)
  | some i =>
    let (pid, t) := allocpid t
    let t := t.update i fun p => { p with pid, trapframe := tf }
    match tf, pt with
    | none, _ => (none, t)
    | some _, none => (none, freeproc t i)
    | some _, some pg => (some i, t.update i fun p => { p with pagetable := some pg })

/-- `userinit`, with the pages of `allocproc` and the root's inode, which
`namei("/")` returns. When `allocproc` fails, the code goes on through a null
pointer: no table results. -/
def userinit (t : Table) (tf pt : Option Nat) (root : Nat) : Option Table :=
  match allocproc t tf pt with
  | (none, _) => none
  | (some i, t) =>
    some ({ t with initproc := some i }.update i fun p =>
      { p with sz := PGSIZE, cwd := some root, state := .RUNNABLE })

/-- The descriptors of a forked child: each open file of the parent is
`filedup`ed into the same slot; a slot the parent has closed keeps what the
child's `struct proc` held. -/
def dupOfile (parent child : List (Option Nat)) : List (Option Nat) :=
  List.zipWith Option.or parent child

/-- `fork` by process `p`: the child's pid, or `-1`. `copyOk` is whether
`uvmcopy` copies the parent's memory. The child is not given a fresh
`killed`: it keeps the one its slot held. -/
def fork (t : Table) (p : Fin NPROC) (tf pt : Option Nat) (copyOk : Bool) : Int × Table :=
  match allocproc t tf pt with
  | (none, t) => (-1, t)
  | (some np, t) =>
    if !copyOk then (-1, freeproc t np)
    else
      let pp := t.proc p
      ((t.proc np).pid, t.update np fun c =>
        { c with sz := pp.sz, parent := some p, ofile := dupOfile pp.ofile c.ofile,
                 cwd := pp.cwd, state := .RUNNABLE })

/-! ## Exit and wait -/

/-- `wakeup1`: wake `p` if it sleeps in `wait`. The pointer may be null
(`initproc` before `userinit`, the parent of `init`): then nothing. -/
def wakeup1 (t : Table) : Option (Fin NPROC) → Table
  | some p => t.update p fun q =>
    if q.chan = some (.proc p) ∧ q.state = .SLEEPING then { q with state := .RUNNABLE } else q
  | none => t

/-- `reparent`: `p`'s children go to `initproc`. -/
def reparent (t : Table) (p : Fin NPROC) : Table :=
  { t with proc := fun i =>
      if (t.proc i).parent = some p then { t.proc i with parent := t.initproc } else t.proc i }

/-- `exit(status)` by `p`: its files and current directory are dropped, init
is woken, its children go to init, its parent is woken, and it becomes a
`ZOMBIE`. `init` itself may not exit. -/
def exit (t : Table) (p : Fin NPROC) (status : Int) : Except String Table := do
  if t.initproc = some p then throw "init exiting"
  let t := t.update p fun q => { q with ofile := List.replicate NOFILE none, cwd := none }
  let t := wakeup1 t t.initproc
  let originalParent := (t.proc p).parent
  let t := reparent t p
  let t := wakeup1 t originalParent
  pure (t.update p fun q => { q with xstate := status, state := .ZOMBIE })

/-- What one pass of `wait`'s loop does: it returns a value, with the exit
status it copied out when it did, or it sleeps until a child changes. -/
inductive WaitOutcome
  | ret (r : Int) (copied : Option Int)
  | sleep
  deriving DecidableEq, Repr

/-- One pass of `wait(addr)` by `p`; `copyOk` is whether `copyout` to `addr`
succeeds. The first `ZOMBIE` child in slot order is freed and its pid
returned. A woken waiter runs the loop again, as a new step. -/
def wait (t : Table) (p : Fin NPROC) (addr : Nat) (copyOk : Bool) : WaitOutcome × Table :=
  match (List.finRange NPROC).find?
      (fun c => (t.proc c).parent == some p && (t.proc c).state == .ZOMBIE) with
  | some c =>
    if addr != 0 && !copyOk then (.ret (-1) none, t)
    else (.ret (t.proc c).pid (if addr != 0 then some (t.proc c).xstate else none), freeproc t c)
  | none =>
    if !(List.finRange NPROC).any (fun c => (t.proc c).parent == some p) || (t.proc p).killed then
      (.ret (-1) none, t)
    else (.sleep, t.update p fun q => { q with chan := some (.proc p), state := .SLEEPING })

/-! ## Sleep, wakeup, scheduling and kill -/

/-- `sleep(chan)` by `p`. -/
def sleep (t : Table) (p : Fin NPROC) (c : Chan) : Table :=
  t.update p fun q => { q with chan := some c, state := .SLEEPING }

/-- `wakeup(chan)`: every process sleeping on `chan` becomes `RUNNABLE`. -/
def wakeup (t : Table) (c : Chan) : Table :=
  { t with proc := fun i =>
      if (t.proc i).state = .SLEEPING ∧ (t.proc i).chan = some c then
        { t.proc i with state := .RUNNABLE }
      else t.proc i }

/-- `yield` by `p`. -/
def yield (t : Table) (p : Fin NPROC) : Table :=
  t.update p fun q => { q with state := .RUNNABLE }

/-- The scheduler runs `p`; a process that slept clears its channel when it
resumes. -/
def scheduler (t : Table) (p : Fin NPROC) : Table :=
  t.update p fun q => { q with state := .RUNNING, chan := none }

/-- `kill(pid)`: the first slot with that pid, whatever its state, is marked
killed and woken if it sleeps. -/
def kill (t : Table) (pid : Int) : Int × Table :=
  match (List.finRange NPROC).find? (fun i => (t.proc i).pid == pid) with
  | some i =>
    (0, t.update i fun q =>
      { q with killed := true, state := if q.state = .SLEEPING then .RUNNABLE else q.state })
  | none => (-1, t)

/-! ## Runs -/

/-- One step of the system: a running process makes one of the calls, an
interrupt or another subsystem wakes a channel, or the scheduler runs a
process. The allocations' outcomes, the statuses and the addresses are any
values. -/
inductive Step : Table → Table → Prop
  | fork {t : Table} (p : Fin NPROC) (tf pt : Option Nat) (copyOk : Bool) :
      (t.proc p).state = .RUNNING → Step t (fork t p tf pt copyOk).2
  | exit {t t' : Table} (p : Fin NPROC) (status : Int) :
      (t.proc p).state = .RUNNING → exit t p status = .ok t' → Step t t'
  | wait {t : Table} (p : Fin NPROC) (addr : Nat) (copyOk : Bool) :
      (t.proc p).state = .RUNNING → Step t (wait t p addr copyOk).2
  | kill {t : Table} (p : Fin NPROC) (pid : Int) :
      (t.proc p).state = .RUNNING → Step t (kill t pid).2
  | sleep {t : Table} (p : Fin NPROC) (a : Nat) :
      (t.proc p).state = .RUNNING → Step t (sleep t p (.other a))
  | wakeup {t : Table} (c : Chan) : Step t (wakeup t c)
  | yield {t : Table} (p : Fin NPROC) :
      (t.proc p).state = .RUNNING → Step t (yield t p)
  | scheduler {t : Table} (p : Fin NPROC) :
      (t.proc p).state = .RUNNABLE → Step t (scheduler t p)

/-- The tables reachable from boot: `userinit`, then any steps. -/
inductive Reachable : Table → Prop
  | userinit {t : Table} (tf pt : Option Nat) (root : Nat) :
      userinit boot tf pt root = some t → Reachable t
  | step {t t' : Table} : Reachable t → Step t t' → Reachable t'

/-- The table `userinit` leaves on the boot table, with trapframe page 1,
page table 2 and the root's inode 0. -/
def afterUserinit : Table := (userinit boot (some 1) (some 2) 0).get (by decide)

theorem reachable_afterUserinit : Reachable afterUserinit :=
  .userinit (some 1) (some 2) 0 (Option.some_get _).symm

/-! ## `kill` of a pid no process has -/

/-- After boot, `userinit` and the scheduler running `init`, `init` calls
`kill(0)`. No live process has pid 0, yet `kill` finds slot 1, zeroed and
`UNUSED`, marks it killed and returns 0. `init`'s next `fork` is given
slot 1, and the child, pid 2, starts killed. -/
theorem kill_of_unused_pid_kills_next_child :
    ∃ t : Table, Reachable t ∧ (t.proc ⟨0, by decide⟩).state = .RUNNING ∧
      (∀ i, (t.proc i).state ≠ .UNUSED → (t.proc i).pid ≠ 0) ∧ (kill t 0).1 = 0 ∧
      (fork (kill t 0).2 ⟨0, by decide⟩ (some 3) (some 4) true).1 = 2 ∧
      ((fork (kill t 0).2 ⟨0, by decide⟩ (some 3) (some 4) true).2.proc ⟨1, by decide⟩).parent =
        some ⟨0, by decide⟩ ∧
      ((fork (kill t 0).2 ⟨0, by decide⟩ (some 3) (some 4) true).2.proc ⟨1, by decide⟩).killed := by
  have hrun : (afterUserinit.proc ⟨0, by decide⟩).state = .RUNNABLE := by decide
  refine ⟨scheduler afterUserinit ⟨0, by decide⟩, .step reachable_afterUserinit (.scheduler _ hrun), ?_⟩
  decide

end Procs

end Xv6
