import Xv6.Fs.Inode

/-!
# Directories and path names (`kernel/fs.c`, second half)

A directory is an inode whose contents are `struct dirent`s; `dirlookup`
and `dirlink` walk them with `readi` and `writei` in steps of
`DIRENTSIZE` bytes. `namex` resolves a path one element at a time, taking
and dropping a reference and the lock of each directory it passes.
-/

namespace Xv6

namespace Fs

open LEBytes

/-- `namecmp`. -/
def namecmp (s t : List UInt8) : Int := strncmp s t DIRSIZ

/-- The offsets `off = 0, 16, 32, ...` below `size` that the directory loops
visit. -/
def direntOffsets (size : Nat) : List Nat :=
  (List.range ((size + DIRENTSIZE - 1) / DIRENTSIZE)).map (· * DIRENTSIZE)

/-- Read the `struct dirent` at `off`, as `readi(dp, 0, &de, off,
sizeof(de))` does; `none` when fewer bytes come back. -/
def readDirent (dp off : Nat) : FsM (Option Dirent) := do
  let bytes ← readi dp (fun _ _ => true) off DIRENTSIZE
  if bytes.length != DIRENTSIZE then pure none
  else pure (some (getDirent bytes 0))

/-- The loop of `dirlookup`: the first live entry named `name`, as a
referenced inode and the entry's offset. -/
def dirlookupScan (dp : Nat) (name : List UInt8) : List Nat → FsM (Option (Nat × Nat))
  | [] => pure none
  | off :: offs => do
    match ← readDirent dp off with
    | none => panic "dirlookup read"
    | some de =>
      if de.inum == 0 then dirlookupScan dp name offs
      else if namecmp name de.name == 0 then
        let ip ← iget (← getInode dp).dev de.inum
        pure (some (ip, off))
      else dirlookupScan dp name offs

/-- `dirlookup`: look for an entry in a directory; the inode comes back
referenced (and unlocked), with the entry's offset (`*poff`). -/
def dirlookup (dp : Nat) (name : List UInt8) : FsM (Option (Nat × Nat)) := do
  let ip ← getInode dp
  if ip.type != T_DIR then panic "dirlookup not DIR"
  dirlookupScan dp name (direntOffsets ip.size)

/-- The loop of `dirlink` looking for a free entry: the offset of the first
entry with `inum == 0`, or the first offset past the last entry. -/
def dirlinkScan (dp : Nat) : List Nat → Nat → FsM Nat
  | [], off => pure off
  | o :: offs, _ => do
    match ← readDirent dp o with
    | none => panic "dirlink read"
    | some de => if de.inum == 0 then pure o else dirlinkScan dp offs (o + DIRENTSIZE)

/-- `dirlink`: write a new entry `(name, inum)` into the directory. -/
def dirlink (dp : Nat) (name : List UInt8) (inum : Nat) : FsM Int := do
  -- check that name is not present
  match ← dirlookup dp name with
  | some (ip, _) =>
    iput ip
    pure (-1)
  | none =>
    let off ← dirlinkScan dp (direntOffsets (← getInode dp).size) 0
    let de : Dirent := { inum, name := strncpy name DIRSIZ }
    if (← writei dp (kernelSrc de.bytes) off DIRENTSIZE) != DIRENTSIZE then panic "dirlink"
    pure 0

/-! ## Paths -/

/-- `skipelem`: the path after the next element, and the element as it is
copied to `name` (cut to `DIRSIZ` bytes); `none` when no element is left. -/
def skipelem (path : List UInt8) : Option (List UInt8 × List UInt8) :=
  let path := path.dropWhile (· == '/'.toNat.toUInt8)
  if path.headD 0 == 0 then none
  else
    let elem := path.takeWhile (fun c => c != '/'.toNat.toUInt8 && c != 0)
    let rest := (path.drop elem.length).dropWhile (· == '/'.toNat.toUInt8)
    some (rest, if elem.length ≥ DIRSIZ then elem.take DIRSIZ else elem)

/-- The loop of `namex`, from the referenced inode `ip`: the inode reached
(or the parent, for `nameiparent`) and the last element. Each turn removes
at least one byte of the path, so `path.length + 1` turns suffice. -/
def namexLoop (nameiparent : Bool) : Nat → Nat → List UInt8 → List UInt8 →
    FsM (Option Nat × List UInt8)
  | 0, ip, _, name => pure (some ip, name)
  | fuel + 1, ip, path, name => do
    match skipelem path with
    | none =>
      if nameiparent then
        iput ip
        pure (none, name)
      else pure (some ip, name)
    | some (path, name) =>
      ilock ip
      if (← getInode ip).type != T_DIR then
        iunlockput ip
        return (none, name)
      if nameiparent && path.headD 0 == 0 then
        -- stop one level early
        iunlock ip
        return (some ip, name)
      match ← dirlookup ip name with
      | none =>
        iunlockput ip
        pure (none, name)
      | some (next, _) =>
        iunlockput ip
        namexLoop nameiparent fuel next path name

/-- `namex`, for process `p`. -/
def namex (p : Nat) (path : List UInt8) (nameiparent : Bool) : FsM (Option Nat × List UInt8) := do
  let ip ← if path.headD 0 == '/'.toNat.toUInt8 then iget ROOTDEV ROOTINO
    else match (← get).procs[p]? >>= Proc.cwd with
      | some cwd => idup cwd
      | none => panic "namex: no cwd"
  namexLoop nameiparent (path.length + 1) ip path []

/-- `namei`. -/
def namei (p : Nat) (path : List UInt8) : FsM (Option Nat) := do
  pure (← namex p path false).1

/-- `nameiparent`: the parent directory and the last element. -/
def nameiparent (p : Nat) (path : List UInt8) : FsM (Option Nat × List UInt8) :=
  namex p path true

end Fs

end Xv6
