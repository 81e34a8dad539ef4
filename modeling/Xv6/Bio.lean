import Xv6.Param
import Xv6.Library.Bytes
import Xv6.Library.Disk

/-!
# The buffer cache (`kernel/bio.c`, `kernel/buf.h`)

The machine state below the file system: the disk, the `NBUF` buffers of
`bcache` in the order of its LRU list, and the log of `kernel/log.c` (its
operations are in `Xv6.Log`). A kernel function is a state transformer that
may panic or sleep (`SysM`).

Modelling decisions, each checked against `bio.c`:

- `bcache.head`'s circular list is the list `bufs`, from `head.next` (most
  recently released) to `head.prev`; a buffer's identity is its index `id`
  in `bcache.buf[]`. `bget`'s first loop walks it forwards, its second loop
  backwards (`List.getLast?` of the unreferenced buffers).
- `refcnt` is a C `uint`: `UInt32`, so `refcnt--` at 0 wraps.
- The sleep-lock is the flag `locked`. A call that would sleep (`bget` on a
  locked buffer, `begin_op` while the log is busy) stops with `Stop.sleep`
  and changes nothing: the model runs it again later from the new state.
- The device writes one whole block, synchronously (`virtio_disk_rw`).
  Every write is also appended to `writes`, the history of the device; a
  crash leaves the disk after a prefix of that history (`BlockDisk.crashAt`).
-/

namespace Xv6

open BlockDisk LEBytes

/-- Contents of one disk block: `BSIZE` bytes. -/
abbrev Block := List UInt8

/-- The all-zero block. -/
def zeroBlock : Block := List.replicate BSIZE 0

/-- `struct buf`, without its list links (the order of `bufs` is the list). -/
structure Buf where
  id : Nat
  valid : Bool
  dev : Nat
  blockno : Nat
  locked : Bool
  refcnt : UInt32
  data : Block
deriving DecidableEq, Repr

/-- `struct log` (its operations are in `Xv6.Log`). `lh` is
`lh.block[0 .. lh.n)`. -/
structure Log where
  start : Nat
  size : Nat
  outstanding : Int
  committing : Bool
  dev : Nat
  lh : List Nat
deriving DecidableEq, Repr

/-- The machine below the file system. -/
structure Sys where
  disk : Disk Block
  bufs : List Buf
  log : Log
  writes : List (Nat × Block)

/-- Why a call stopped: a kernel panic with its message, or a sleep. -/
inductive Stop where
  | panic (msg : String)
  | sleep
deriving DecidableEq, Repr

/-- Kernel code over the machine: may panic or sleep. -/
abbrev SysM := StateT Sys (Except Stop)

def panic {α : Type} (msg : String) : SysM α := throw (Stop.panic msg)

/-! ## `binit` -/

/-- A buffer as static zeroed memory leaves it. -/
def freshBuf (id : Nat) : Buf :=
  { id, valid := false, dev := 0, blockno := 0, locked := false, refcnt := 0, data := zeroBlock }

/-- `binit`: each buffer of `bcache.buf[]` in turn is put at the head of the
list, so the list runs from `buf[NBUF-1]` down to `buf[0]`. -/
def binit : List Buf := (List.range NBUF).reverse.map freshBuf

/-! ## Buffer helpers -/

/-- The buffer with identity `id`. -/
def findBuf (bufs : List Buf) (id : Nat) : Option Buf := bufs.find? (·.id == id)

/-- Change buffer `id` in place (its position in the list is kept). -/
def updBuf (bufs : List Buf) (id : Nat) (f : Buf → Buf) : List Buf :=
  bufs.map fun b => if b.id = id then f b else b

/-- Move buffer `id` to the head of the list. -/
def moveToHead (bufs : List Buf) (id : Nat) : List Buf :=
  match findBuf bufs id with
  | some b => b :: bufs.filter (·.id != id)
  | none => bufs

def getBuf (id : Nat) : SysM Buf := do
  match findBuf (← get).bufs id with
  | some b => pure b
  | none => panic "no such buffer"

def modifyBuf (id : Nat) (f : Buf → Buf) : SysM Unit :=
  modify fun s => { s with bufs := updBuf s.bufs id f }

/-! ## `bget`, `bread`, `bwrite`, `brelse`, `bpin`, `bunpin` -/

/-- `bget`: the cached buffer of `(dev, blockno)`, or else the least recently
used buffer with `refcnt == 0`, recycled. Returns the buffer's identity,
locked. -/
def bget (dev blockno : Nat) : SysM Nat := do
  let s ← get
  match s.bufs.find? (fun b => b.dev == dev && b.blockno == blockno) with
  | some b =>
    if b.locked then throw Stop.sleep
    modifyBuf b.id fun b => { b with refcnt := b.refcnt + 1, locked := true }
    pure b.id
  | none =>
    match (s.bufs.filter (·.refcnt == 0)).getLast? with
    | some b =>
      modifyBuf b.id fun b =>
        { b with dev, blockno, valid := false, refcnt := 1, locked := true }
      pure b.id
    | none => panic "bget: no buffers"

/-- `virtio_disk_rw(b, 1)`: the device writes one whole block. -/
def diskWrite (blockno : Nat) (data : Block) : SysM Unit :=
  modify fun s => { s with disk := s.disk.write blockno data,
                           writes := s.writes ++ [(blockno, data)] }

/-- `bread`: a locked buffer with the contents of the block. -/
def bread (dev blockno : Nat) : SysM Nat := do
  let id ← bget dev blockno
  let b ← getBuf id
  if !b.valid then
    let s ← get
    modifyBuf id fun b => { b with data := s.disk b.blockno, valid := true }
  pure id

/-- `bwrite`: write the buffer's contents to disk. -/
def bwrite (id : Nat) : SysM Unit := do
  let b ← getBuf id
  if !b.locked then panic "bwrite"
  diskWrite b.blockno b.data

/-- `brelse`: unlock, drop a reference, and move the buffer to the head of
the list when no reference is left. -/
def brelse (id : Nat) : SysM Unit := do
  let b ← getBuf id
  if !b.locked then panic "brelse"
  modifyBuf id fun b => { b with locked := false, refcnt := b.refcnt - 1 }
  let b ← getBuf id
  if b.refcnt == 0 then
    modify fun s => { s with bufs := moveToHead s.bufs id }

def bpin (id : Nat) : SysM Unit :=
  modifyBuf id fun b => { b with refcnt := b.refcnt + 1 }

def bunpin (id : Nat) : SysM Unit :=
  modifyBuf id fun b => { b with refcnt := b.refcnt - 1 }

/-- `memmove(b->data, src, BSIZE)` and the other whole-block changes callers
make to a buffer they hold. -/
def setData (id : Nat) (data : Block) : SysM Unit :=
  modifyBuf id fun b => { b with data }

end Xv6
