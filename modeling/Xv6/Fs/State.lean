import Xv6.Layout
import Xv6.Bio

/-!
# The file system's state (`kernel/file.h`, the caches of `fs.c`, `file.c`)

The file-system layer of `fs.c`, `file.c` and `sysfile.c` is modelled over
the contents of the disk *as the file system sees them through the buffer
cache*: `blocks b` is the cached copy of block `b` when there is one and the
disk's otherwise. Under that view `bread` returns `blocks b`, a change to
`bp->data` is a change to `blocks b`, and `brelse` changes nothing. The
cache's own bookkeeping (recycling, reference counts) is the subject of
`Xv6.Bio` and `Xv6.Crash`; it is what makes the view coherent, and what the
recovery defect of `Xv6.Crash` breaks.

The log appears here as its accounting: `lh` (the blocks of the current
group), `outstanding`, `committing` and `log.size`. `log_write` makes the
same checks and the same absorption as in `log.c`; a commit empties `lh`
and leaves the view unchanged.

Strings (paths, names) are byte lists; a C string ends at its first `0` or
at the end of the list, and reading past the end gives `0`.
-/

namespace Xv6

/-- `struct inode`, the in-memory copy of an inode (`icache.inode[]`). The
sleep-lock is the flag `locked`. -/
structure Inode where
  dev : Nat
  inum : Nat
  ref : Int
  locked : Bool
  valid : Bool
  type : Int
  major : Int
  minor : Int
  nlink : Int
  size : Nat
  addrs : List Nat
deriving DecidableEq, Repr

/-- The on-disk fields of an in-memory inode (what `iupdate` copies). -/
def Inode.dinode (ip : Inode) : Dinode :=
  { type := ip.type, major := ip.major, minor := ip.minor, nlink := ip.nlink,
    size := ip.size, addrs := ip.addrs }

/-- The file types of `struct file`. -/
inductive FdType where
  | FD_NONE
  | FD_PIPE
  | FD_INODE
  | FD_DEVICE
deriving DecidableEq, Repr

/-- `struct file` (`ftable.file[]`); `ip` is an index into `icache`. Pipes
are not modelled here. -/
structure File where
  type : FdType
  ref : Int
  readable : Bool
  writable : Bool
  ip : Option Nat
  off : Nat
  major : Int
deriving DecidableEq, Repr

/-- The parts of `struct proc` the file system uses: the current directory
(an index into `icache`, or none) and the open files (indices into
`ftable`). -/
structure Proc where
  cwd : Option Nat
  ofile : List (Option Nat)
deriving DecidableEq, Repr

/-- The file system's state. -/
structure FsState where
  blocks : Nat → Block
  sb : Superblock
  lh : List Nat
  outstanding : Int
  committing : Bool
  logsize : Nat
  inodes : List Inode
  files : List File
  procs : List Proc

/-- File-system code: may panic or sleep. -/
abbrev FsM := StateT FsState (Except Stop)

namespace Fs

def panic {α : Type} (msg : String) : FsM α := throw (Stop.panic msg)

/-! ## Blocks through the cache -/

/-- `bread(dev, b)->data`. -/
def bread (b : Nat) : FsM Block := do
  pure ((← get).blocks b)

/-- A change to a held buffer's data. -/
def putBlock (b : Nat) (d : Block) : FsM Unit :=
  modify fun s => { s with blocks := fun x => if x = b then d else s.blocks x }

/-! ## The log's accounting -/

/-- `begin_op`. -/
def beginOp : FsM Unit := do
  let s ← get
  if s.committing then throw Stop.sleep
  else if (s.lh.length : Int) + (s.outstanding + 1) * MAXOPBLOCKS > LOGSIZE then
    throw Stop.sleep
  else set { s with outstanding := s.outstanding + 1 }

/-- `end_op`: the last outstanding operation commits, which empties the
group. -/
def endOp : FsM Unit := do
  modify fun s => { s with outstanding := s.outstanding - 1 }
  let s ← get
  if s.committing then panic "log.committing"
  if s.outstanding == 0 then
    set { s with lh := [] }

/-- `log_write`, for the buffer of block `b`. -/
def logWrite (b : Nat) : FsM Unit := do
  let s ← get
  if s.lh.length ≥ LOGSIZE ∨ (s.lh.length : Int) ≥ (s.logsize : Int) - 1 then
    panic "too big a transaction"
  if s.outstanding < 1 then panic "log_write outside of trans"
  if b ∉ s.lh then
    set { s with lh := s.lh ++ [b] }

theorem beginOp_run (s : FsState) :
    beginOp.run s =
      if s.committing then .error .sleep
      else if (s.lh.length : Int) + (s.outstanding + 1) * MAXOPBLOCKS > LOGSIZE then .error .sleep
      else .ok ((), { s with outstanding := s.outstanding + 1 }) := by
  unfold beginOp
  simp only [StateT.run_bind, StateT.run_get, pure_bind]
  by_cases hc : s.committing
  · rw [if_pos hc, if_pos hc]; rfl
  · by_cases hroom : (s.lh.length : Int) + (s.outstanding + 1) * MAXOPBLOCKS > LOGSIZE
    · rw [if_neg hc, if_neg hc, if_pos hroom, if_pos hroom]; rfl
    · rw [if_neg hc, if_neg hc, if_neg hroom, if_neg hroom]; rfl

theorem endOp_run (s : FsState) :
    endOp.run s =
      if s.committing then .error (.panic "log.committing")
      else .ok ((), if s.outstanding - 1 = 0 then { s with outstanding := 0, lh := [] }
        else { s with outstanding := s.outstanding - 1 }) := by
  unfold endOp
  simp only [StateT.run_bind, StateT.run_get, StateT.run_modify, pure_bind]
  by_cases hc : s.committing
  · rw [if_pos hc, if_pos hc]; rfl
  · rw [if_neg hc, if_neg hc]
    by_cases h0 : s.outstanding - 1 = 0
    · rw [if_pos (beq_iff_eq.mpr h0), if_pos h0, h0]; rfl
    · rw [if_neg (fun h => h0 (beq_iff_eq.mp h)), if_neg h0]; rfl

theorem logWrite_run (s : FsState) (b : Nat) :
    (logWrite b).run s =
      if s.lh.length ≥ LOGSIZE ∨ (s.lh.length : Int) ≥ (s.logsize : Int) - 1 then
        .error (.panic "too big a transaction")
      else if s.outstanding < 1 then .error (.panic "log_write outside of trans")
      else .ok ((), if b ∈ s.lh then s else { s with lh := s.lh ++ [b] }) := by
  unfold logWrite
  simp only [StateT.run_bind, StateT.run_get, pure_bind]
  by_cases ho : s.lh.length ≥ LOGSIZE ∨ (s.lh.length : Int) ≥ (s.logsize : Int) - 1
  · rw [if_pos ho, if_pos ho]; rfl
  · rw [if_neg ho, if_neg ho]
    by_cases hout : s.outstanding < 1
    · rw [if_pos hout, if_pos hout]; rfl
    · rw [if_neg hout, if_neg hout]
      by_cases hb : b ∈ s.lh
      · rw [if_neg (not_not.mpr hb), if_pos hb]; rfl
      · rw [if_pos hb, if_neg hb]; rfl

/-! ## The inode cache -/

def getInode (i : Nat) : FsM Inode := do
  match (← get).inodes[i]? with
  | some ip => pure ip
  | none => panic "no such inode"

theorem getInode_run {i : Nat} {s : FsState} {ip : Inode} (h : s.inodes[i]? = some ip) :
    (getInode i).run s = .ok (ip, s) := by
  show (match s.inodes[i]? with
    | some ip => pure ip
    | none => panic "no such inode" : FsM Inode).run s = _
  rw [h]
  rfl

def modifyInode (i : Nat) (f : Inode → Inode) : FsM Unit :=
  modify fun s => { s with inodes := s.inodes.modify i f }

/-! ## `kernel/string.c` -/

/-- The bytes of an ASCII string literal, without its `NUL`. -/
def cbytes (s : String) : List UInt8 := s.toList.map (·.toNat.toUInt8)

/-- The name `"."`. -/
def dot : List UInt8 := cbytes "."

/-- The name `".."`. -/
def dotdot : List UInt8 := cbytes ".."

/-- `strncmp(p, q, n)`. -/
def strncmp : List UInt8 → List UInt8 → Nat → Int
  | _, _, 0 => 0
  | p, q, n + 1 =>
    if p.headD 0 != 0 && p.headD 0 == q.headD 0 then strncmp p.tail q.tail n
    else ((p.headD 0).toNat : Int) - (q.headD 0).toNat

/-- The `n` bytes `strncpy(s, t, n)` stores: `t` up to its `NUL`, then
zeros. -/
def strncpy (t : List UInt8) (n : Nat) : List UInt8 :=
  (t.takeWhile (· != 0) ++ List.replicate n 0).take n

end Fs

end Xv6
