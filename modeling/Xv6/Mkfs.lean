import Xv6.Fs.State
import Xv6.Library.StateExcept

/-!
# `mkfs`: building the file-system image (`mkfs/mkfs.c`)

`mkfs fs.img files...` runs on the build host. It zeroes `FSSIZE` blocks,
writes the superblock, allocates the root directory and one inode per input
file (sequentially: `freeinode`, `freeblock`), appends each file's bytes with
its own `iappend`, rounds the root directory's size, and writes the bitmap.

The image file is a list of blocks. A write past its end extends it (the
blocks skipped read as zeros); `rsect` past the end fails (`read` returns
fewer than `BSIZE` bytes and `mkfs` exits). A failed `assert` or a failed `read` stops `mkfs`; the model
returns the reason. The host is little-endian, so `xint` and `xshort` leave
values unchanged and a `struct dinode` in memory has the bytes it has on
disk.

An input file is its `argv` string and its bytes; `read` on a regular file
returns the bytes in chunks of `BSIZE`, the last one shorter.
-/

namespace Xv6

open BlockDisk LEBytes

/-- The state of `mkfs`: the image file's blocks and the two allocation
counters. -/
structure MkfsState where
  img : List Block
  freeinode : Nat
  freeblock : Nat

/-- `mkfs` code: may stop with a message. -/
abbrev MkfsM := StateT MkfsState (Except String)

namespace Mkfs

/-- The image file after writing block `sec`. -/
def writeSect (img : List Block) (sec : Nat) (buf : Block) : List Block :=
  if sec < img.length then img.set sec buf
  else img ++ List.replicate (sec - img.length) zeroBlock ++ [buf]

/-- `wsect`. -/
def wsect (sec : Nat) (buf : Block) : MkfsM Unit :=
  modify fun m => { m with img := writeSect m.img sec buf }

/-- `rsect`: past the end of the file the read is short. -/
def rsect (sec : Nat) : MkfsM Block := do
  match (← get).img[sec]? with
  | some buf => pure buf
  | none => throw "read"

/-- `winode`. -/
def winode (inum : Nat) (din : Dinode) : MkfsM Unit := do
  let bn := IBLOCK inum mkfsSuperblock
  let buf ← rsect bn
  wsect bn (setDinode buf (dinodeOff inum) din)

/-- `rinode`. -/
def rinode (inum : Nat) : MkfsM Dinode := do
  pure (getDinode (← rsect (IBLOCK inum mkfsSuperblock)) (dinodeOff inum))

/-- `freeblock++`. -/
def nextFreeblock : MkfsM Nat :=
  modifyGet fun m => (m.freeblock, { m with freeblock := m.freeblock + 1 })

/-- `ialloc`: the next inode number, with a fresh dinode of one link. -/
def ialloc (type : Int) : MkfsM Nat := do
  let inum ← modifyGet fun m => (m.freeinode, { m with freeinode := m.freeinode + 1 })
  winode inum { Dinode.zero with type, nlink := 1, size := 0 }
  pure inum

/-- The block of `iappend`'s turn at file block `fbn`, allocating it (and
the indirect block) from `freeblock` when its address is 0. -/
def appendBlock (din : Dinode) (fbn : Nat) : MkfsM (Dinode × Nat) := do
  if fbn < NDIRECT then
    let din ← if din.addrs.getD fbn 0 == 0 then do
        let b ← nextFreeblock
        pure { din with addrs := din.addrs.set fbn b }
      else pure din
    pure (din, din.addrs.getD fbn 0)
  else
    let din ← if din.addrs.getD NDIRECT 0 == 0 then do
        let b ← nextFreeblock
        pure { din with addrs := din.addrs.set NDIRECT b }
      else pure din
    let ind := din.addrs.getD NDIRECT 0
    let indirect ← rsect ind
    let indirect ← if getAddr indirect (fbn - NDIRECT) == 0 then do
        let b ← nextFreeblock
        let indirect := setAddr indirect (fbn - NDIRECT) b
        wsect ind indirect
        pure indirect
      else pure indirect
    pure (din, getAddr indirect (fbn - NDIRECT))

/-- The loop of `iappend`: copy `p` into the inode from byte `off` on, one
block at a time; the dinode and the offset reached. Each turn copies at least
one byte, so `p.length` turns suffice. -/
def iappendLoop : Nat → Dinode → Nat → List UInt8 → MkfsM (Dinode × Nat)
  | 0, din, off, _ => pure (din, off)
  | fuel + 1, din, off, p => do
    if p.length = 0 then return (din, off)
    let fbn := off / BSIZE
    if fbn ≥ MAXFILE then throw "assert fbn < MAXFILE"
    let (din, x) ← appendBlock din fbn
    let n1 := min p.length ((fbn + 1) * BSIZE - off)
    let buf ← rsect x
    wsect x (setBytes buf (off - fbn * BSIZE) (p.take n1))
    iappendLoop fuel din (off + n1) (p.drop n1)

/-- `iappend`: append the bytes `p` to inode `inum`. -/
def iappend (inum : Nat) (p : List UInt8) : MkfsM Unit := do
  let din ← rinode inum
  let (din, off) ← iappendLoop p.length din din.size p
  winode inum { din with size := off }

/-- `balloc`: mark the first `used` blocks in the bitmap. -/
def balloc (used : Nat) : MkfsM Unit := do
  if used ≥ BSIZE * 8 then throw "assert used < BSIZE * 8"
  wsect mkfsSuperblock.bmapstart ((List.range used).foldl setBit zeroBlock)

/-- The `read` loop over an input file: `iappend` each chunk of `BSIZE`
bytes. -/
def appendChunks (inum : Nat) : Nat → List UInt8 → MkfsM Unit
  | 0, _ => pure ()
  | fuel + 1, bytes => do
    if bytes.length = 0 then return
    iappend inum (bytes.take BSIZE)
    appendChunks inum fuel (bytes.drop BSIZE)

/-- The name a file gets in the root directory: its `argv` string without
`user/` and then without a leading `_`; `none` when it holds a `/` (the
`assert` on `index(shortname, '/')`). -/
def shortname (argv : List UInt8) : Option (List UInt8) :=
  let argv := argv.takeWhile (· != 0)
  let name := if argv.take 5 == Fs.cbytes "user/" then argv.drop 5 else argv
  if name.contains '/'.toNat.toUInt8 then none
  else some (if name.headD 0 == '_'.toNat.toUInt8 then name.drop 1 else name)

/-- One turn of `main`'s loop over the input files. -/
def addFile (rootino : Nat) (file : List UInt8 × List UInt8) : MkfsM Unit := do
  match shortname file.1 with
  | none => throw "assert index(shortname, '/') == 0"
  | some name =>
    let inum ← ialloc T_FILE
    iappend rootino ({ inum, name := Fs.strncpy name DIRSIZ } : Dirent).bytes
    appendChunks inum file.2.length file.2

/-- The size `main` gives the root directory: "fix size of root inode
dir". -/
def rootSize (off : Nat) : Nat := (off / BSIZE + 1) * BSIZE

/-- The first part of `main`: zero `FSSIZE` blocks, then write the
superblock. -/
def zeroImage : MkfsM Unit := do
  (List.range FSSIZE).forM fun i => wsect i zeroBlock
  wsect 1 (writeSuperblock mkfsSuperblock zeroBlock)

/-- The rest of `main`: the root directory, the files, the root's size and
the bitmap. -/
def populate (files : List (List UInt8 × List UInt8)) : MkfsM Unit := do
  let rootino ← ialloc T_DIR
  if rootino != ROOTINO then throw "assert rootino == ROOTINO"
  iappend rootino ({ inum := rootino, name := Fs.strncpy Fs.dot DIRSIZ } : Dirent).bytes
  iappend rootino ({ inum := rootino, name := Fs.strncpy Fs.dotdot DIRSIZ } : Dirent).bytes
  files.forM (addFile rootino)
  let din ← rinode rootino
  winode rootino { din with size := rootSize din.size }
  balloc (← get).freeblock

/-- `main`, after the image file is opened (with `O_TRUNC`: empty). -/
def main (files : List (List UInt8 × List UInt8)) : MkfsM Unit := do
  zeroImage
  populate files

/-- The state `mkfs` starts from: an empty file, `freeinode = 1` and
`freeblock = nmeta`. -/
def start : MkfsState where
  img := []
  freeinode := 1
  freeblock := nmeta

/-! ## The zeroed image

The first `FSSIZE` writes grow the empty file one block at a time; after the
superblock is written the image is known exactly, and every later step
reads and writes blocks of it. -/

/-- The zeroing loop of `main` on an empty file writes `n` zero blocks. -/
theorem run_zeroLoop (n : Nat) (m : MkfsState) (h : m.img = []) :
    ((List.range n).forM fun i => wsect i zeroBlock).run m =
      .ok ((), { m with img := List.replicate n zeroBlock }) := by
  induction n with
  | zero => cases m; cases h; rfl
  | succ n ih =>
    -- the loop over `range (n + 1)` is the loop over `range n`, then block `n`
    simp only [List.forM_eq_forM] at ih ⊢
    rw [List.range_succ, List.forM_append, StateT.run_bind, ih]
    simp [wsect, writeSect, List.replicate_succ']

/-- The image after `zeroImage`: `FSSIZE` zero blocks, but for the
superblock in block 1. -/
def zeroedImage : List Block :=
  (List.replicate FSSIZE zeroBlock).set 1 (writeSuperblock mkfsSuperblock zeroBlock)

theorem run_zeroImage (m : MkfsState) (h : m.img = []) :
    zeroImage.run m = .ok ((), { m with img := zeroedImage }) := by
  have h1 : 1 < (List.replicate FSSIZE zeroBlock).length := by
    rw [List.length_replicate]; decide
  rw [zeroImage, StateT.run_bind, run_zeroLoop FSSIZE m h]
  show (wsect 1 _).run _ = _
  simp only [wsect, writeSect, StateT.run_modify]
  rw [if_pos h1]
  rfl

/-- `mkfs` is `populate` on the zeroed image. -/
theorem main_run_start (files : List (List UInt8 × List UInt8)) :
    (main files).run start = (populate files).run { start with img := zeroedImage } := by
  rw [main, StateExcept.run_bind_of_run (run_zeroImage start rfl)]

end Mkfs

/-- The image `mkfs` writes for the input files, or why it stopped. -/
def mkfsImage (files : List (List UInt8 × List UInt8)) : Except String (List Block) :=
  ((Mkfs.main files).run Mkfs.start).map (·.2.img)

/-- The disk holding an image: its blocks, then zeros. -/
def imageDisk (img : List Block) : Disk Block := fun b => img.getD b zeroBlock

theorem mkfsImage_eq (files : List (List UInt8 × List UInt8)) :
    mkfsImage files =
      ((Mkfs.populate files).run { Mkfs.start with img := Mkfs.zeroedImage }).map (·.2.img) := by
  rw [mkfsImage, Mkfs.main_run_start]

end Xv6
