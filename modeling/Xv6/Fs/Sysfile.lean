import Xv6.Fs.Tree
import Xv6.Mkfs

/-!
# File-system system calls (`kernel/sysfile.c`, `kernel/file.c`)

The system calls that change the name space and the descriptor tables:
`open`, `mkdir`, `mknod`, `link`, `unlink`, `chdir` and `close`, with
`create`, `isdirempty`, and the parts of `file.c` they use (`filealloc`,
`fileclose`, `fdalloc`). Each takes the calling process's index `p` and its
arguments as `argstr`/`argint` fetched them; `return -1` on a failed fetch
happens before any change and is not repeated here.

Every path through a system call body is the source's: each `goto bad`,
each early `end_op(); return -1`, in the source's order.
-/

namespace Xv6

namespace Fs

open BlockDisk

/-! ## Descriptor tables -/

def getFile (f : Nat) : FsM File := do
  match (← get).files[f]? with
  | some fl => pure fl
  | none => panic "no such file"

def modifyFile (f : Nat) (g : File → File) : FsM Unit :=
  modify fun s => { s with files := s.files.modify f g }

def modifyProc (p : Nat) (g : Proc → Proc) : FsM Unit :=
  modify fun s => { s with procs := s.procs.modify p g }

/-- `filealloc`: the first free `struct file`, with one reference. -/
def filealloc : FsM (Option Nat) := do
  match (← get).files.findIdx? (·.ref == 0) with
  | some f =>
    modifyFile f fun fl => { fl with ref := 1 }
    pure (some f)
  | none => pure none

/-- `fdalloc`: the first free descriptor of process `p`, now naming `f`. -/
def fdalloc (p f : Nat) : FsM (Option Nat) := do
  match (← get).procs[p]? with
  | none => pure none
  | some pr =>
    match (List.range NOFILE).find? (fun fd => pr.ofile.getD fd none == none) with
    | some fd =>
      modifyProc p fun pr => { pr with ofile := pr.ofile.set fd (some f) }
      pure (some fd)
    | none => pure none

/-- `fileclose`: drop a reference; the last one releases the inode of an
inode or device file, in a transaction of its own. (Pipes are not part of
this model: no `FD_PIPE` file is ever created here.) -/
def fileclose (f : Nat) : FsM Unit := do
  let fl ← getFile f
  if fl.ref < 1 then panic "fileclose"
  if fl.ref - 1 > 0 then
    modifyFile f fun fl => { fl with ref := fl.ref - 1 }
  else
    modifyFile f fun fl => { fl with ref := 0, type := .FD_NONE }
    match fl.type, fl.ip with
    | .FD_INODE, some ip | .FD_DEVICE, some ip =>
      beginOp
      iput ip
      endOp
    | _, _ => pure ()

/-! ## `create`, `isdirempty` -/

/-- `create`: the new (or, for `T_FILE`, existing) inode, locked and
referenced. -/
def create (p : Nat) (path : List UInt8) (type major minor : Int) : FsM (Option Nat) := do
  match ← nameiparent p path with
  | (none, _) => pure none
  | (some dp, name) =>
    ilock dp
    match ← dirlookup dp name with
    | some (ip, _) =>
      iunlockput dp
      ilock ip
      let t := (← getInode ip).type
      if type == T_FILE && (t == T_FILE || t == T_DEVICE) then return some ip
      iunlockput ip
      pure none
    | none =>
      let ip ← ialloc (← getInode dp).dev type
      ilock ip
      modifyInode ip fun x => { x with major, minor, nlink := 1 }
      iupdate ip
      if type == T_DIR then
        -- for ".."
        modifyInode dp fun x => { x with nlink := toShort (x.nlink + 1) }
        iupdate dp
        -- no ip->nlink++ for ".": avoid cyclic ref count
        if (← dirlink ip dot (← getInode ip).inum) < 0 then panic "create dots"
        if (← dirlink ip dotdot (← getInode dp).inum) < 0 then panic "create dots"
      if (← dirlink dp name (← getInode ip).inum) < 0 then panic "create: dirlink"
      iunlockput dp
      pure (some ip)

/-- `isdirempty`: no live entry past `"."` and `".."`. -/
def isdirempty (dp : Nat) : FsM Bool := do
  let rec scan : List Nat → FsM Bool
    | [] => pure true
    | off :: offs => do
      match ← readDirent dp off with
      | none => panic "isdirempty: readi"
      | some de => if de.inum != 0 then pure false else scan offs
  scan ((direntOffsets (← getInode dp).size).drop 2)

/-! ## System calls -/

/-- `sys_link`. -/
def sysLink (p : Nat) (old new : List UInt8) : FsM Int := do
  beginOp
  match ← namei p old with
  | none =>
    endOp
    pure (-1)
  | some ip =>
    ilock ip
    if (← getInode ip).type == T_DIR then
      iunlockput ip
      endOp
      return -1
    modifyInode ip fun x => { x with nlink := toShort (x.nlink + 1) }
    iupdate ip
    iunlock ip
    let bad : FsM Int := do
      ilock ip
      modifyInode ip fun x => { x with nlink := toShort (x.nlink - 1) }
      iupdate ip
      iunlockput ip
      endOp
      pure (-1)
    match ← nameiparent p new with
    | (none, _) => bad
    | (some dp, name) =>
      ilock dp
      if (← getInode dp).dev != (← getInode ip).dev then
        iunlockput dp
        bad
      else if (← dirlink dp name (← getInode ip).inum) < 0 then
        iunlockput dp
        bad
      else
        iunlockput dp
        iput ip
        endOp
        pure 0

/-- `sys_unlink`. -/
def sysUnlink (p : Nat) (path : List UInt8) : FsM Int := do
  beginOp
  match ← nameiparent p path with
  | (none, _) =>
    endOp
    pure (-1)
  | (some dp, name) =>
    ilock dp
    let bad : FsM Int := do
      iunlockput dp
      endOp
      pure (-1)
    -- cannot unlink "." or ".."
    if namecmp name dot == 0 || namecmp name dotdot == 0 then return ← bad
    match ← dirlookup dp name with
    | none => bad
    | some (ip, off) =>
      ilock ip
      if (← getInode ip).nlink < 1 then panic "unlink: nlink < 1"
      if (← getInode ip).type == T_DIR then
        if !(← isdirempty ip) then
          iunlockput ip
          return ← bad
      let zero : Dirent := { inum := 0, name := List.replicate DIRSIZ 0 }
      if (← writei dp (kernelSrc zero.bytes) off DIRENTSIZE) != DIRENTSIZE then
        panic "unlink: writei"
      if (← getInode ip).type == T_DIR then
        modifyInode dp fun x => { x with nlink := toShort (x.nlink - 1) }
        iupdate dp
      iunlockput dp
      modifyInode ip fun x => { x with nlink := toShort (x.nlink - 1) }
      iupdate ip
      iunlockput ip
      endOp
      pure 0

/-- The first part of `sys_open`: the inode to open, locked, or `none` for
the paths that end in `end_op(); return -1`. -/
def openInode (p : Nat) (path : List UInt8) (omode : Nat) : FsM (Option Nat) := do
  if omode &&& O_CREATE != 0 then
    create p path T_FILE 0 0
  else
    match ← namei p path with
    | none => pure none
    | some ip =>
      ilock ip
      if (← getInode ip).type == T_DIR && omode != O_RDONLY then
        iunlockput ip
        pure none
      else pure (some ip)

/-- `sys_open`. -/
def sysOpen (p : Nat) (path : List UInt8) (omode : Nat) : FsM Int := do
  beginOp
  match ← openInode p path omode with
  | none =>
    endOp
    pure (-1)
  | some ip =>
    let x ← getInode ip
    if x.type == T_DEVICE && (x.major < 0 || x.major ≥ NDEV) then
      iunlockput ip
      endOp
      return -1
    match ← filealloc with
    | none =>
      iunlockput ip
      endOp
      pure (-1)
    | some f =>
      match ← fdalloc p f with
      | none =>
        fileclose f
        iunlockput ip
        endOp
        pure (-1)
      | some fd =>
        if x.type == T_DEVICE then
          modifyFile f fun fl => { fl with type := .FD_DEVICE, major := x.major }
        else
          modifyFile f fun fl => { fl with type := .FD_INODE, off := 0 }
        modifyFile f fun fl =>
          { fl with ip := some ip, readable := omode &&& O_WRONLY == 0,
                    writable := omode &&& O_WRONLY != 0 || omode &&& O_RDWR != 0 }
        if omode &&& O_TRUNC != 0 && x.type == T_FILE then itrunc ip
        iunlock ip
        endOp
        pure fd

/-- `sys_mkdir`. -/
def sysMkdir (p : Nat) (path : List UInt8) : FsM Int := do
  beginOp
  match ← create p path T_DIR 0 0 with
  | none =>
    endOp
    pure (-1)
  | some ip =>
    iunlockput ip
    endOp
    pure 0

/-- `sys_mknod`. -/
def sysMknod (p : Nat) (path : List UInt8) (major minor : Int) : FsM Int := do
  beginOp
  match ← create p path T_DEVICE (toShort major) (toShort minor) with
  | none =>
    endOp
    pure (-1)
  | some ip =>
    iunlockput ip
    endOp
    pure 0

/-- `sys_chdir`. -/
def sysChdir (p : Nat) (path : List UInt8) : FsM Int := do
  beginOp
  match ← namei p path with
  | none =>
    endOp
    pure (-1)
  | some ip =>
    ilock ip
    if (← getInode ip).type != T_DIR then
      iunlockput ip
      endOp
      return -1
    iunlock ip
    match (← get).procs[p]? >>= Proc.cwd with
    | some cwd => iput cwd
    | none => panic "null cwd"
    endOp
    modifyProc p fun pr => { pr with cwd := some ip }
    pure 0

/-! ## Descriptors and reads and writes -/

/-- `argfd`: the open file of descriptor `fd` of process `p`. -/
def argfd (p : Nat) (fd : Int) : FsM (Option Nat) := do
  if fd < 0 || fd ≥ NOFILE then return none
  match (← get).procs[p]? with
  | some pr => pure (pr.ofile.getD fd.toNat none)
  | none => pure none

/-- `filedup`. -/
def filedup (f : Nat) : FsM Unit := do
  if (← getFile f).ref < 1 then panic "filedup"
  modifyFile f fun fl => { fl with ref := fl.ref + 1 }

/-- `sys_dup`. -/
def sysDup (p : Nat) (fd : Int) : FsM Int := do
  match ← argfd p fd with
  | none => pure (-1)
  | some f =>
    match ← fdalloc p f with
    | none => pure (-1)
    | some fd =>
      filedup f
      pure fd

/-- `sys_close`. -/
def sysClose (p : Nat) (fd : Int) : FsM Int := do
  match ← argfd p fd with
  | none => pure (-1)
  | some f =>
    modifyProc p fun pr => { pr with ofile := pr.ofile.set fd.toNat none }
    fileclose f
    pure 0

/-- `fileread`, for a destination that accepts the copies `dstOk` allows.
`n` is the C `int`; `readi` takes it as a `uint`. Pipes and the console are
read by code outside the file system (`piperead`, `consoleread`): their
result is the parameter `devRead`. -/
def fileread (f : Nat) (dstOk : Nat → Nat → Bool) (n : Int) (devRead : FsM Int) : FsM Int := do
  let fl ← getFile f
  if !fl.readable then return -1
  match fl.type, fl.ip with
  | .FD_PIPE, _ => devRead
  | .FD_DEVICE, _ =>
    if fl.major < 0 || fl.major ≥ NDEV || fl.major != CONSOLE then pure (-1) else devRead
  | .FD_INODE, some ip =>
    ilock ip
    let r : Int := (← readi ip dstOk fl.off (n % 2 ^ 32).toNat).length
    if r > 0 then modifyFile f fun fl => { fl with off := fl.off + r.toNat }
    iunlock ip
    pure r
  | _, _ => panic "fileread"

/-- The largest chunk `filewrite` writes in one transaction. -/
def maxChunk : Nat := (MAXOPBLOCKS - 1 - 1 - 2) / 2 * BSIZE

/-- The chunk loop of `filewrite` on inode `ip`: the bytes written, `i`.
Each chunk is a transaction of its own; each turn writes at least one byte,
so `n` turns suffice. -/
def filewriteLoop (f ip : Nat) (src : CopySrc) (n : Nat) : Nat → Nat → FsM Nat
  | 0, i => pure i
  | fuel + 1, i => do
    if i < n then
      let n1 := min (n - i) maxChunk
      beginOp
      ilock ip
      let r ← writei ip (fun j m => src (i + j) m) (← getFile f).off n1
      if r > 0 then modifyFile f fun fl => { fl with off := fl.off + r.toNat }
      iunlock ip
      endOp
      if r < 0 then return i
      if r != n1 then panic "short filewrite"
      filewriteLoop f ip src n fuel (i + r.toNat)
    else pure i

/-- `filewrite`; as for `fileread`, pipes and the console are the parameter
`devWrite`. -/
def filewrite (f : Nat) (src : CopySrc) (n : Int) (devWrite : FsM Int) : FsM Int := do
  let fl ← getFile f
  if !fl.writable then return -1
  match fl.type, fl.ip with
  | .FD_PIPE, _ => devWrite
  | .FD_DEVICE, _ =>
    if fl.major < 0 || fl.major ≥ NDEV || fl.major != CONSOLE then pure (-1) else devWrite
  | .FD_INODE, some ip =>
    let i ← filewriteLoop f ip src n.toNat n.toNat 0
    pure (if (i : Int) = n then n else -1)
  | _, _ => panic "filewrite"

/-- `sys_read`. -/
def sysRead (p : Nat) (fd : Int) (dstOk : Nat → Nat → Bool) (n : Int) (devRead : FsM Int) :
    FsM Int := do
  match ← argfd p fd with
  | none => pure (-1)
  | some f => fileread f dstOk n devRead

/-- `sys_write`. -/
def sysWrite (p : Nat) (fd : Int) (src : CopySrc) (n : Int) (devWrite : FsM Int) : FsM Int := do
  match ← argfd p fd with
  | none => pure (-1)
  | some f => filewrite f src n devWrite

/-! ## Boot -/

/-- An unused `icache` entry (the table is zeroed static memory). -/
def Inode.free : Inode :=
  { dev := 0, inum := 0, ref := 0, locked := false, valid := false, type := 0, major := 0,
    minor := 0, nlink := 0, size := 0, addrs := List.replicate (NDIRECT + 1) 0 }

/-- An unused `ftable` entry. -/
def File.free : File :=
  { type := .FD_NONE, ref := 0, readable := false, writable := false, ip := none, off := 0,
    major := 0 }

/-- The file system after `fsinit` on a disk whose log header is empty (as
`mkfs` leaves it, so recovery installs nothing): the superblock from block 1,
no transaction, empty caches, and the first process, with no current
directory yet. -/
def bootFs (disk : Disk Block) : FsState where
  blocks := disk
  sb := readSuperblock (disk 1)
  lh := []
  outstanding := 0
  committing := false
  logsize := (readSuperblock (disk 1)).nlog
  inodes := List.replicate NINODE Inode.free
  files := List.replicate NFILE File.free
  procs := [{ cwd := none, ofile := List.replicate NOFILE none }]

/-- The file-system part of `userinit`: `p->cwd = namei("/")`. -/
def userinit : FsM Unit := do
  let ip ← namei 0 (cbytes "/")
  modifyProc 0 fun pr => { pr with cwd := ip }

/-- Boot on the image `mkfs` builds from `files` and run `m` as the first
process (process 0); or why `mkfs` stopped. -/
def runOnImage {α : Type} (files : List (List UInt8 × List UInt8)) (m : FsM α) :
    Except String (Except Stop (α × FsState)) :=
  (mkfsImage files).map fun img => (do userinit; m).run (bootFs (imageDisk img))

end Fs

end Xv6
