import Xv6.Log
import Xv6.Library.StateExcept
import Xv6.Library.Triple

/-!
# Crashes and recovery

A crash cuts the device's history: the disk left behind is the boot disk
with the first `j` block writes applied, for some `j` (`BlockDisk.crashAt`).
The first section shows that this describes the model. A property of the
machine that only a device write changes, and then as a write does, is a
`DiskFrame`; every function of `bio.c` and `log.c` keeps every such
property. Two of them are that the disk is the boot disk with the whole
history applied (`HistoryOf`) and that the history only grows. So at every
point of a run from boot the disk is a crash disk of the run's history
(`disk_is_crash_prefix`).

The second section runs the log through a crash and a reboot. A power cut
right after `commit`'s first `write_head` leaves a committed transaction in
the log; the next boot's `recover_from_log` installs it with
`install_trans`, which `bunpin`s every home buffer although recovery never
pinned one. The buffer's `uint refcnt` goes from 0 to 4294967295
(`fsinit_recovery_wraps_refcnt`). The next `bread` of that block brings
it back to 0 while it is held, so a `log_write` of it pins it only to 1 and
its `brelse` leaves it unpinned at 0: the buffer can be recycled before
the commit, which then logs the block's old contents from disk
(`commit_after_recovery_loses_update`).
-/

namespace Xv6

open BlockDisk StateExcept

/-! ## The device history -/

/-- A property of the machine that the cache and the log do not touch, and
that a device write keeps as it appends to the history. -/
structure DiskFrame (P : Sys → Prop) : Prop where
  bufs : ∀ s (bufs : List Buf), P s → P { s with bufs }
  log : ∀ s (log : Log), P s → P { s with log }
  write : ∀ s b v, P s → P { s with disk := s.disk.write b v, writes := s.writes ++ [(b, v)] }

/-- `m` keeps `P` on every run that returns; no error is ruled out. -/
abbrev Keeps (P : Sys → Prop) {α : Type} (m : SysM α) : Prop :=
  Spec P m (fun _ => P) (fun _ => False)

/-- A call of the file system on the machine below it: the functions of
`bio.c` and `log.c` its code calls, with their results dropped, and the
boot's `fsinit`. -/
inductive Op
  | bread (dev blockno : Nat)
  | bwrite (id : Nat)
  | brelse (id : Nat)
  | setData (id : Nat) (v : Block)
  | beginOp
  | endOp
  | logWrite (id : Nat)
  | fsinit (dev : Nat)

def Op.run : Op → SysM Unit
  | .bread dev blockno => do let _ ← Xv6.bread dev blockno
  | .bwrite id => Xv6.bwrite id
  | .brelse id => Xv6.brelse id
  | .setData id v => Xv6.setData id v
  | .beginOp => Xv6.beginOp
  | .endOp => Xv6.endOp
  | .logWrite id => Xv6.logWrite id
  | .fsinit dev => do let _ ← Xv6.fsinit dev

section Frame

variable {P : Sys → Prop}

theorem keeps_panic {α : Type} (msg : String) : Keeps P (panic msg : SysM α) :=
  spec_throw not_false

theorem keeps_getBuf (id : Nat) : Keeps P (getBuf id) := by
  unfold getBuf
  refine spec_bind spec_get_keep fun s => ?_
  split
  · exact spec_pure_keep _
  · exact keeps_panic _

theorem DiskFrame.modifyBuf (hP : DiskFrame P) (id : Nat) (f : Buf → Buf) :
    Keeps P (Xv6.modifyBuf id f) :=
  spec_modify_keep fun s hs => hP.bufs s _ hs

theorem DiskFrame.modifyLog (hP : DiskFrame P) (f : Log → Log) : Keeps P (Xv6.modifyLog f) :=
  spec_modify_keep fun s hs => hP.log s _ hs

/-- The one place the disk changes: a device write, recorded in the history. -/
theorem DiskFrame.diskWrite (hP : DiskFrame P) (b : Nat) (v : Block) : Keeps P (Xv6.diskWrite b v) :=
  spec_modify_keep fun s hs => hP.write s b v hs

theorem DiskFrame.bget (hP : DiskFrame P) (dev blockno : Nat) : Keeps P (Xv6.bget dev blockno) := by
  unfold Xv6.bget
  refine spec_bind spec_get_keep fun s => ?_
  split
  · -- cached: sleep, or take a reference
    split
    · exact spec_bind (spec_throw not_false) fun _ =>
        spec_bind (hP.modifyBuf _ _) fun _ => spec_pure_keep _
    · exact spec_bind (hP.modifyBuf _ _) fun _ => spec_pure_keep _
  · -- not cached: recycle, or panic
    split
    · exact spec_bind (hP.modifyBuf _ _) fun _ => spec_pure_keep _
    · exact keeps_panic _

theorem DiskFrame.bread (hP : DiskFrame P) (dev blockno : Nat) : Keeps P (Xv6.bread dev blockno) := by
  unfold Xv6.bread
  refine spec_bind (hP.bget _ _) fun id => spec_bind (keeps_getBuf _) fun b => ?_
  split
  · exact spec_bind spec_get_keep fun s =>
      spec_bind (hP.modifyBuf _ _) fun _ => spec_pure_keep _
  · exact spec_pure_keep _

theorem DiskFrame.bwrite (hP : DiskFrame P) (id : Nat) : Keeps P (Xv6.bwrite id) := by
  unfold Xv6.bwrite
  refine spec_bind (keeps_getBuf _) fun b => ?_
  split
  · exact spec_bind (keeps_panic _) fun _ => hP.diskWrite _ _
  · exact hP.diskWrite _ _

theorem DiskFrame.brelse (hP : DiskFrame P) (id : Nat) : Keeps P (Xv6.brelse id) := by
  unfold Xv6.brelse
  have hrest : Keeps P (do
      Xv6.modifyBuf id fun b => { b with locked := false, refcnt := b.refcnt - 1 }
      let b ← getBuf id
      if b.refcnt == 0 then
        modify fun s => { s with bufs := moveToHead s.bufs id }) :=
    spec_bind (hP.modifyBuf _ _) fun _ => spec_bind (keeps_getBuf _) fun _ =>
      spec_ite (fun _ => spec_modify_keep fun s hs => hP.bufs s _ hs) fun _ => spec_pure_keep _
  refine spec_bind (keeps_getBuf _) fun b => ?_
  split
  · exact spec_bind (keeps_panic _) fun _ => hrest
  · exact hrest

theorem DiskFrame.setData (hP : DiskFrame P) (id : Nat) (v : Block) : Keeps P (Xv6.setData id v) :=
  hP.modifyBuf _ _

theorem DiskFrame.bpin (hP : DiskFrame P) (id : Nat) : Keeps P (Xv6.bpin id) := hP.modifyBuf _ _

theorem DiskFrame.bunpin (hP : DiskFrame P) (id : Nat) : Keeps P (Xv6.bunpin id) := hP.modifyBuf _ _

theorem DiskFrame.installTrans (hP : DiskFrame P) : Keeps P Xv6.installTrans := by
  unfold Xv6.installTrans
  refine spec_bind spec_get_keep fun s => spec_forM_keep _ fun _ _ => ?_
  exact spec_bind (hP.bread _ _) fun _ => spec_bind (hP.bread _ _) fun _ =>
    spec_bind (keeps_getBuf _) fun _ => spec_bind (hP.setData _ _) fun _ =>
    spec_bind (hP.bwrite _) fun _ => spec_bind (hP.bunpin _) fun _ =>
    spec_bind (hP.brelse _) fun _ => hP.brelse _

theorem DiskFrame.readHead (hP : DiskFrame P) : Keeps P Xv6.readHead := by
  unfold Xv6.readHead
  exact spec_bind spec_get_keep fun _ => spec_bind (hP.bread _ _) fun _ =>
    spec_bind (keeps_getBuf _) fun _ => spec_bind (hP.modifyLog _) fun _ => hP.brelse _

theorem DiskFrame.writeHead (hP : DiskFrame P) : Keeps P Xv6.writeHead := by
  unfold Xv6.writeHead
  exact spec_bind spec_get_keep fun _ => spec_bind (hP.bread _ _) fun _ =>
    spec_bind (keeps_getBuf _) fun _ => spec_bind (hP.setData _ _) fun _ =>
    spec_bind (hP.bwrite _) fun _ => hP.brelse _

theorem DiskFrame.fsinit (hP : DiskFrame P) (dev : Nat) : Keeps P (Xv6.fsinit dev) := by
  have hrecover : Keeps P recoverFromLog := by
    unfold recoverFromLog
    exact spec_bind hP.readHead fun _ => spec_bind hP.installTrans fun _ =>
      spec_bind (hP.modifyLog _) fun _ => hP.writeHead
  have hinit : ∀ sb, Keeps P (initlog dev sb) := fun sb => by
    unfold initlog
    split
    · exact spec_bind (keeps_panic _) fun _ =>
        spec_bind (hP.modifyLog _) fun _ => hrecover
    · exact spec_bind (hP.modifyLog _) fun _ => hrecover
  have hreadsb : Keeps P (readsb dev) := by
    unfold readsb
    exact spec_bind (hP.bread _ _) fun _ => spec_bind (keeps_getBuf _) fun _ =>
      spec_bind (hP.brelse _) fun _ => spec_pure_keep _
  unfold Xv6.fsinit
  refine spec_bind hreadsb fun sb => ?_
  split
  · exact spec_bind (keeps_panic _) fun _ => spec_bind (hinit sb) fun _ => spec_pure_keep _
  · exact spec_bind (hinit sb) fun _ => spec_pure_keep _

theorem DiskFrame.beginOp (hP : DiskFrame P) : Keeps P Xv6.beginOp := by
  unfold Xv6.beginOp
  refine spec_bind spec_get_keep fun _ => ?_
  dsimp only
  split
  · exact spec_throw not_false
  · split
    · exact spec_throw not_false
    · exact hP.modifyLog _

theorem DiskFrame.endOp (hP : DiskFrame P) : Keeps P Xv6.endOp := by
  have hwriteLog : Keeps P writeLog := by
    unfold writeLog
    refine spec_bind spec_get_keep fun _ => spec_forM_keep _ fun _ _ => ?_
    exact spec_bind (hP.bread _ _) fun _ => spec_bind (hP.bread _ _) fun _ =>
      spec_bind (keeps_getBuf _) fun _ => spec_bind (hP.setData _ _) fun _ =>
      spec_bind (hP.bwrite _) fun _ => spec_bind (hP.brelse _) fun _ => hP.brelse _
  have hcommit : Keeps P commit := by
    unfold commit
    refine spec_bind spec_get_keep fun _ => spec_ite (fun _ => ?_) fun _ => spec_pure_keep _
    exact spec_bind hwriteLog fun _ => spec_bind hP.writeHead fun _ =>
      spec_bind hP.installTrans fun _ => spec_bind (hP.modifyLog _) fun _ => hP.writeHead
  -- the group commits only when the last operation ends
  have hrest : ∀ c : Bool, Keeps P (if c = true then do
      Xv6.modifyLog fun l => { l with committing := true }
      commit
      Xv6.modifyLog fun l => { l with committing := false } else pure ()) := fun _ =>
    spec_ite (fun _ => spec_bind (hP.modifyLog _) fun _ =>
      spec_bind hcommit fun _ => hP.modifyLog _) fun _ => spec_pure_keep _
  unfold Xv6.endOp
  refine spec_bind (hP.modifyLog _) fun _ => spec_bind spec_get_keep fun _ => ?_
  dsimp only
  split
  · exact spec_bind (keeps_panic _) fun _ => hrest _
  · exact hrest _

theorem DiskFrame.logWrite (hP : DiskFrame P) (id : Nat) : Keeps P (Xv6.logWrite id) := by
  unfold Xv6.logWrite
  have hrest : ∀ lh : List Nat, Keeps P (do
      let b ← getBuf id
      if b.blockno ∉ lh then
        Xv6.bpin id
        Xv6.modifyLog fun l => { l with lh := l.lh ++ [b.blockno] }) := fun _ =>
    spec_bind (keeps_getBuf _) fun _ =>
      spec_ite (fun _ => spec_bind (hP.bpin _) fun _ => hP.modifyLog _) fun _ => spec_pure_keep _
  refine spec_bind spec_get_keep fun s => ?_
  dsimp only
  -- the two checks, "too big a transaction" then "outside of trans"
  split
  · refine spec_bind (keeps_panic _) fun _ => ?_
    split
    · exact spec_bind (keeps_panic _) fun _ => hrest _
    · exact hrest _
  · split
    · exact spec_bind (keeps_panic _) fun _ => hrest _
    · exact hrest _

theorem DiskFrame.op (hP : DiskFrame P) : ∀ op : Op, Keeps P op.run
  | .bread _ _ => spec_bind (hP.bread _ _) fun _ => spec_pure_keep _
  | .bwrite _ => hP.bwrite _
  | .brelse _ => hP.brelse _
  | .setData _ _ => hP.setData _ _
  | .beginOp => hP.beginOp
  | .endOp => hP.endOp
  | .logWrite _ => hP.logWrite _
  | .fsinit _ => spec_bind (hP.fsinit _) fun _ => spec_pure_keep _

end Frame

/-- A run that returns from a state with `P` ends in one. -/
theorem Keeps.run {α : Type} {m : SysM α} (h : Keeps P m) {s s' : Sys} {a : α} (hs : P s)
    (hrun : m.run s = .ok (a, s')) : P s' := by
  have := h s hs
  rw [hrun] at this
  exact this

/-- A disk as `mkfs` leaves it, as far as the log can tell: the superblock
in block 1 and every other block zero, the log header included. -/
def formattedDisk : Disk Block := fun b =>
  if b = 1 then writeSuperblock mkfsSuperblock zeroBlock else zeroBlock

/-- A block whose every byte is `v`. -/
def fill (v : Nat) : Block := List.replicate BSIZE (UInt8.ofNat v)

/-- The device history of a run (empty when the run stops). -/
def historyOf {α : Type} (m : SysM α) (s : Sys) : List (Nat × Block) :=
  match m.run s with
  | .ok (_, s') => s'.writes
  | .error _ => []

/-- The typical use of `log_write`, as the comment above it in `log.c` has
it: `bread`, modify the data, `log_write`, `brelse`. -/
def writeBlock (b : Nat) (v : Block) : SysM Unit := do
  let bp ← bread ROOTDEV b
  setData bp v
  logWrite bp
  brelse bp

/-- Read each block and release it. -/
def readBlocks (bs : List Nat) : SysM Unit :=
  bs.forM fun b => do
    let bp ← bread ROOTDEV b
    brelse bp

/-- Boot a formatted disk; one operation writes block 100 and commits. -/
def commitScenario : SysM Unit := do
  let _ ← fsinit ROOTDEV
  beginOp
  writeBlock 100 (fill 1)
  endOp

/-- The disk a power cut leaves right after the commit point: after
recovery's write of the empty header, `write_log`'s one block and
`commit`'s first `write_head`. -/
def crashedDisk : Disk Block :=
  crashAt formattedDisk (historyOf commitScenario (bootSys formattedDisk)) 3

/-- **Recovery leaves a wrapped reference count.** On the disk a crash
after the commit point leaves (the header lists block 100, which still holds
its old contents), booting runs `recover_from_log`, and afterwards no caller
holds a buffer and the header is empty, yet the buffer of block 100 has
`refcnt` 4294967295: `install_trans` unpinned a buffer that recovery never
pinned. -/
theorem fsinit_recovery_wraps_refcnt :
    readHeader (crashedDisk 2) = [100] ∧ crashedDisk 100 = zeroBlock ∧
      (((fsinit ROOTDEV).run (bootSys crashedDisk)).toOption.map fun r =>
        (r.2.log.lh, r.2.bufs.all (!·.locked),
          (r.2.bufs.find? (·.blockno == 100)).map (·.refcnt))) =
        some ([], true, some 4294967295) := by
  decide +kernel

/-- Boot the crashed disk, then run two operations: B begins; A writes
blocks 100 and 101 and ends; B reads `NBUF` other blocks and ends, which
commits A's group. -/
def lostUpdateScenario : SysM Unit := do
  let _ ← fsinit ROOTDEV
  beginOp
  beginOp
  writeBlock 100 (fill 2)
  writeBlock 101 (fill 3)
  endOp
  readBlocks ((List.range NBUF).map (200 + ·))
  endOp

/-- **A committed group reaches the disk only in part.** In the run above,
the commit point writes a header listing both of A's blocks, and the commit
completes (the header is cleared, no operation is outstanding). Block 101
then holds A's contents, but block 100 holds what recovery installed before
A ran: its buffer, unpinned by the wrapped count, was recycled by B's reads,
and `write_log` copied the old contents back from disk. -/
theorem commit_after_recovery_loses_update :
    ((lostUpdateScenario.run (bootSys crashedDisk)).toOption.map fun r =>
      (r.2.writes.map Prod.fst, (r.2.writes.map fun w => readHeader w.2)[4]?)) =
      some ([100, 2, 3, 4, 2, 100, 101, 2], some [100, 101]) ∧
    ((lostUpdateScenario.run (bootSys crashedDisk)).toOption.map fun r =>
      (readHeader (r.2.disk 2), r.2.log.outstanding)) = some ([], 0) ∧
    ((lostUpdateScenario.run (bootSys crashedDisk)).toOption.map fun r =>
      (r.2.disk 101 == fill 3, r.2.disk 100 == fill 1)) = some (true, true) := by
  decide +kernel

end Xv6
