import Xv6.Bio
import Xv6.Layout

/-!
# The write-ahead log (`kernel/log.c`) and `fsinit` (`kernel/fs.c`)

Every function of `log.c`, over the machine of `Xv6.Bio`. The loops over
`tail` walk `log.lh.block[0 .. lh.n)`, which no iteration changes, so they
are `forM` over `lh.zipIdx` (block number and index). `commit` runs inside
the `end_op` that brings `outstanding` to 0; its block writes, like all
others, go to the device history, where a crash may cut them.

The boot sequence is `binit` (the cache), static zeroed memory (the log),
and `fsinit(ROOTDEV)`, which reads the superblock and runs
`recover_from_log`.
-/

namespace Xv6

open BlockDisk

def modifyLog (f : Log → Log) : SysM Unit :=
  modify fun s => { s with log := f s.log }

/-! ## Recovery: `install_trans`, `read_head`, `write_head`, `recover_from_log` -/

/-- `install_trans`: copy each logged block from the log to its home
location. As in the source, every home buffer is `bunpin`ned, whether or not
`log_write` pinned it. -/
def installTrans : SysM Unit := do
  let log := (← get).log
  log.lh.zipIdx.forM fun (blockno, tail) => do
    let lbuf ← bread log.dev (log.start + tail + 1)
    let dbuf ← bread log.dev blockno
    setData dbuf (← getBuf lbuf).data
    bwrite dbuf
    bunpin dbuf
    brelse lbuf
    brelse dbuf

/-- `read_head`: the in-memory header becomes the on-disk one. -/
def readHead : SysM Unit := do
  let log := (← get).log
  let buf ← bread log.dev log.start
  let hd := readHeader (← getBuf buf).data
  modifyLog fun l => { l with lh := hd }
  brelse buf

/-- `write_head`: the on-disk header becomes the in-memory one. Writing a
non-empty header is the commit point. -/
def writeHead : SysM Unit := do
  let log := (← get).log
  let buf ← bread log.dev log.start
  setData buf (writeHeader log.lh (← getBuf buf).data)
  bwrite buf
  brelse buf

def recoverFromLog : SysM Unit := do
  readHead
  installTrans
  modifyLog fun l => { l with lh := [] }
  writeHead

/-- `initlog`. -/
def initlog (dev : Nat) (sb : Superblock) : SysM Unit := do
  if LOGHEADERSIZE ≥ BSIZE then panic "initlog: too big logheader"
  modifyLog fun l => { l with start := sb.logstart, size := sb.nlog, dev }
  recoverFromLog

/-! ## Transactions: `begin_op`, `end_op`, `write_log`, `commit`, `log_write` -/

/-- `begin_op`: sleeps while a commit runs or while the reserved space of one
more operation might not fit. -/
def beginOp : SysM Unit := do
  let log := (← get).log
  if log.committing then throw Stop.sleep
  else if (log.lh.length : Int) + (log.outstanding + 1) * MAXOPBLOCKS > LOGSIZE then
    throw Stop.sleep
  else modifyLog fun l => { l with outstanding := l.outstanding + 1 }

/-- `write_log`: copy each logged block from the cache to its log slot. -/
def writeLog : SysM Unit := do
  let log := (← get).log
  log.lh.zipIdx.forM fun (blockno, tail) => do
    let toBuf ← bread log.dev (log.start + tail + 1)
    let fromBuf ← bread log.dev blockno
    setData toBuf (← getBuf fromBuf).data
    bwrite toBuf
    brelse fromBuf
    brelse toBuf

def commit : SysM Unit := do
  if (← get).log.lh.length > 0 then
    writeLog
    writeHead
    installTrans
    modifyLog fun l => { l with lh := [] }
    writeHead

/-- `end_op`: the last outstanding operation commits the group. -/
def endOp : SysM Unit := do
  modifyLog fun l => { l with outstanding := l.outstanding - 1 }
  let log := (← get).log
  if log.committing then panic "log.committing"
  if log.outstanding == 0 then
    modifyLog fun l => { l with committing := true }
    commit
    modifyLog fun l => { l with committing := false }

/-- `log_write`: record the buffer's block in the header, pinning it the
first time (a block already in the header is absorbed). -/
def logWrite (id : Nat) : SysM Unit := do
  let log := (← get).log
  if log.lh.length ≥ LOGSIZE ∨ (log.lh.length : Int) ≥ (log.size : Int) - 1 then
    panic "too big a transaction"
  if log.outstanding < 1 then panic "log_write outside of trans"
  let b ← getBuf id
  if b.blockno ∉ log.lh then
    bpin id
    modifyLog fun l => { l with lh := l.lh ++ [b.blockno] }

/-! ## Boot -/

/-- `readsb`. -/
def readsb (dev : Nat) : SysM Superblock := do
  let bp ← bread dev 1
  let sb := readSuperblock (← getBuf bp).data
  brelse bp
  pure sb

/-- `fsinit`. -/
def fsinit (dev : Nat) : SysM Superblock := do
  let sb ← readsb dev
  if sb.magic != FSMAGIC then panic "invalid file system"
  initlog dev sb
  pure sb

/-- The machine at boot, before `fsinit`: the disk, `binit`'s cache, and the
log as static zeroed memory. -/
def bootSys (d : Disk Block) : Sys :=
  { disk := d, bufs := binit, writes := [],
    log := { start := 0, size := 0, outstanding := 0, committing := false, dev := 0, lh := [] } }

end Xv6
