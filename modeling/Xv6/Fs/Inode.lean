import Xv6.Fs.State

/-!
# Blocks and inodes (`kernel/fs.c`, first half)

The block allocator (`balloc`, `bfree`, `bzero`), the inode cache (`iget`,
`idup`, `ilock`, `iunlock`, `iput`), inode allocation and write-back
(`ialloc`, `iupdate`), and inode contents (`bmap`, `itrunc`, `readi`,
`writei`), over the view of `Xv6.Fs.State`.

The loops of the source are recursive functions over the list of values
their index takes, or over a fuel bounded by the byte count (`readi`'s and
`writei`'s loops advance by at least one byte per turn). Where a loop body
reads a buffer through a pointer that stays valid across the turns (`a` in
`itrunc`, `bmap`), the model reads the block again in each turn, as the C
code does.

User copies (`either_copyin`, `either_copyout`) are parameters. A source
answers, for an offset into it and a length, either the bytes or the bytes
it copied before failing (`copyin` moves whole pages until one is
unmapped); a destination answers whether a copy succeeds.
-/

namespace Xv6

namespace Fs

open LEBytes

/-- The source of `either_copyin`: for an offset into the source and a
length, the bytes, or (`error`) the bytes copied before the copy failed. -/
abbrev CopySrc := Nat → Nat → Except (List UInt8) (List UInt8)

/-- A kernel source (`user_src == 0`): `memmove` never fails. -/
def kernelSrc (bytes : List UInt8) : CopySrc := fun i m => .ok ((bytes.drop i).take m)

/-! ## Blocks -/

/-- `bzero`. -/
def bzero (bno : Nat) : FsM Unit := do
  putBlock bno zeroBlock
  logWrite bno

/-- The inner loop of `balloc`, over the bits `bi` of the bitmap block `d`
of the blocks from `b` on, while `bi < BPB && b + bi < size`: the first
clear bit. `fuel` is the number of bits left below `BPB`. -/
def freeBit (d : Block) (b size : Nat) : Nat → Nat → Option Nat
  | 0, _ => none
  | fuel + 1, bi =>
    if b + bi < size then
      if bitSet d bi then freeBit d b size fuel (bi + 1) else some bi
    else none

/-- The outer loop of `balloc` over the bitmap blocks: `b` runs over
`0, BPB, 2*BPB, ...` below `sb.size`. -/
def ballocScan : List Nat → FsM Nat
  | [] => panic "balloc: out of blocks"
  | b :: bs => do
    let sb := (← get).sb
    let d ← bread (BBLOCK b sb)
    match freeBit d b sb.size BPB 0 with
    | some bi =>
      putBlock (BBLOCK b sb) (setBit d bi)
      logWrite (BBLOCK b sb)
      bzero (b + bi)
      pure (b + bi)
    | none => ballocScan bs

/-- The starts `b` of the bitmap blocks below `size`. -/
def bitmapStarts (size : Nat) : List Nat :=
  (List.range ((size + BPB - 1) / BPB)).map (· * BPB)

/-- `balloc`: allocate a zeroed disk block. -/
def balloc : FsM Nat := do
  ballocScan (bitmapStarts (← get).sb.size)

/-- `bfree`. -/
def bfree (b : Nat) : FsM Unit := do
  let sb := (← get).sb
  let d ← bread (BBLOCK b sb)
  let bi := b % BPB
  if !bitSet d bi then panic "freeing free block"
  putBlock (BBLOCK b sb) (clearBit d bi)
  logWrite (BBLOCK b sb)

/-! ## The inode cache -/

/-- `iget`: the cached entry of `(dev, inum)`, else the first free entry. -/
def iget (dev inum : Nat) : FsM Nat := do
  let ic := (← get).inodes
  match ic.findIdx? (fun ip => ip.ref > 0 && ip.dev == dev && ip.inum == inum) with
  | some i =>
    modifyInode i fun ip => { ip with ref := ip.ref + 1 }
    pure i
  | none =>
    match ic.findIdx? (fun ip => ip.ref == 0) with
    | some i =>
      modifyInode i fun ip => { ip with dev, inum, ref := 1, valid := false }
      pure i
    | none => panic "iget: no inodes"

/-- `idup`. -/
def idup (i : Nat) : FsM Nat := do
  modifyInode i fun ip => { ip with ref := ip.ref + 1 }
  pure i

/-- `iupdate`: copy the in-memory inode to its disk block. -/
def iupdate (i : Nat) : FsM Unit := do
  let ip ← getInode i
  let sb := (← get).sb
  let d ← bread (IBLOCK ip.inum sb)
  putBlock (IBLOCK ip.inum sb) (setDinode d (dinodeOff ip.inum) ip.dinode)
  logWrite (IBLOCK ip.inum sb)

/-- The loop of `ialloc` over `inum = 1 .. sb.ninodes - 1`. -/
def iallocScan (dev : Nat) (type : Int) : List Nat → FsM Nat
  | [] => panic "ialloc: no inodes"
  | inum :: rest => do
    let sb := (← get).sb
    let d ← bread (IBLOCK inum sb)
    if (getDinode d (dinodeOff inum)).type == 0 then
      putBlock (IBLOCK inum sb) (setDinode d (dinodeOff inum) { Dinode.zero with type })
      logWrite (IBLOCK inum sb)
      iget dev inum
    else iallocScan dev type rest

/-- `ialloc`: allocate an inode of the given type; it comes back referenced
and unlocked. -/
def ialloc (dev : Nat) (type : Int) : FsM Nat := do
  iallocScan dev type (List.range' 1 ((← get).sb.ninodes - 1))

/-- `ilock`: lock the inode, reading it from disk if the entry is not
valid. -/
def ilock (i : Nat) : FsM Unit := do
  let ip ← getInode i
  if ip.ref < 1 then panic "ilock"
  if ip.locked then throw Stop.sleep
  modifyInode i fun ip => { ip with locked := true }
  if !ip.valid then
    let sb := (← get).sb
    let d ← bread (IBLOCK ip.inum sb)
    let din := getDinode d (dinodeOff ip.inum)
    modifyInode i fun ip =>
      { ip with type := din.type, major := din.major, minor := din.minor, nlink := din.nlink,
                size := din.size, addrs := din.addrs, valid := true }
    if din.type == 0 then panic "ilock: no type"

/-- `iunlock`. -/
def iunlock (i : Nat) : FsM Unit := do
  let ip ← getInode i
  if !ip.locked || ip.ref < 1 then panic "iunlock"
  modifyInode i fun ip => { ip with locked := false }

/-! ## Inode contents -/

/-- `bmap`: the disk block of the `bn`-th block of the inode, allocated if
there is none. -/
def bmap (i bn : Nat) : FsM Nat := do
  let ip ← getInode i
  if bn < NDIRECT then
    let addr := ip.addrs.getD bn 0
    if addr == 0 then
      let addr ← balloc
      modifyInode i fun ip => { ip with addrs := ip.addrs.set bn addr }
      pure addr
    else pure addr
  else if bn - NDIRECT < NINDIRECT then
    let bn := bn - NDIRECT
    -- load the indirect block, allocating it if necessary
    let ind ← do
      let a := ip.addrs.getD NDIRECT 0
      if a == 0 then
        let a ← balloc
        modifyInode i fun ip => { ip with addrs := ip.addrs.set NDIRECT a }
        pure a
      else pure a
    let addr := getAddr (← bread ind) bn
    if addr == 0 then
      let addr ← balloc
      putBlock ind (setAddr (← bread ind) bn addr)
      logWrite ind
      pure addr
    else pure addr
  else panic "bmap: out of range"

/-- `itrunc`: free every block of the inode and set its size to 0. -/
def itrunc (i : Nat) : FsM Unit := do
  (List.range NDIRECT).forM fun j => do
    let ip ← getInode i
    if ip.addrs.getD j 0 != 0 then
      bfree (ip.addrs.getD j 0)
      modifyInode i fun ip => { ip with addrs := ip.addrs.set j 0 }
  let ind := (← getInode i).addrs.getD NDIRECT 0
  if ind != 0 then
    (List.range NINDIRECT).forM fun j => do
      let a := getAddr (← bread ind) j
      if a != 0 then bfree a
    bfree ind
    modifyInode i fun ip => { ip with addrs := ip.addrs.set NDIRECT 0 }
  modifyInode i fun ip => { ip with size := 0 }
  iupdate i

/-- `iput`: drop a reference; the last reference to an inode without links
frees it. -/
def iput (i : Nat) : FsM Unit := do
  let ip ← getInode i
  if ip.ref == 1 && ip.valid && ip.nlink == 0 then
    if ip.locked then throw Stop.sleep
    modifyInode i fun ip => { ip with locked := true }
    itrunc i
    modifyInode i fun ip => { ip with type := 0 }
    iupdate i
    modifyInode i fun ip => { ip with valid := false, locked := false }
  modifyInode i fun ip => { ip with ref := ip.ref - 1 }

/-- `iunlockput`. -/
def iunlockput (i : Nat) : FsM Unit := do
  iunlock i
  iput i

/-- The loop of `readi`: the bytes delivered to the destination. -/
def readiLoop (i : Nat) (dstOk : Nat → Nat → Bool) : Nat → Nat → Nat → Nat → FsM (List UInt8)
  | 0, _, _, _ => pure []
  | fuel + 1, off, tot, n => do
    if tot < n then
      let addr ← bmap i (off / BSIZE)
      let d ← bread addr
      let m := min (n - tot) (BSIZE - off % BSIZE)
      if dstOk tot m then
        let rest ← readiLoop i dstOk fuel (off + m) (tot + m) n
        pure (getBytes d (off % BSIZE) m ++ rest)
      else pure []
    else pure []

/-- `readi`: the bytes read (their number is `readi`'s result). -/
def readi (i : Nat) (dstOk : Nat → Nat → Bool) (off n : Nat) : FsM (List UInt8) := do
  let ip ← getInode i
  if off > ip.size || (off + n) % 2 ^ 32 < off then return []
  let n := if off + n > ip.size then ip.size - off else n
  readiLoop i dstOk n off 0 n

/-- The loop of `writei`: the offset reached. A failed copy leaves the bytes
it did copy in the buffer, unlogged, and ends the loop. -/
def writeiLoop (i : Nat) (src : CopySrc) : Nat → Nat → Nat → Nat → FsM Nat
  | 0, off, _, _ => pure off
  | fuel + 1, off, tot, n => do
    if tot < n then
      let addr ← bmap i (off / BSIZE)
      let d ← bread addr
      let m := min (n - tot) (BSIZE - off % BSIZE)
      match src tot m with
      | .ok bytes =>
        putBlock addr (setBytes d (off % BSIZE) bytes)
        logWrite addr
        writeiLoop i src fuel (off + m) (tot + m) n
      | .error part =>
        putBlock addr (setBytes d (off % BSIZE) part)
        pure off
    else pure off

/-- `writei`. Its result is `n` whenever the arguments are accepted. -/
def writei (i : Nat) (src : CopySrc) (off n : Nat) : FsM Int := do
  let ip ← getInode i
  if off > ip.size || (off + n) % 2 ^ 32 < off then return -1
  if off + n > MAXFILE * BSIZE then return -1
  let off ← writeiLoop i src n off 0 n
  if n > 0 then
    if off > (← getInode i).size then
      modifyInode i fun ip => { ip with size := off }
    iupdate i
  return n

end Fs

end Xv6
