import Xv6.Fs.Dir
import Xv6.Proc

/-!
# `exec` (`kernel/exec.c`)

`exec` reads an ELF image through the file system, inside one transaction,
and builds the new user image with the page-table code of `vm.c`. The
page-table code is not part of this model: its operations are the fields of
`Vm V`, over whatever machine state `V` they act on, and `exec` threads that
state through. What the model keeps is `exec`'s own control flow, every
`goto bad`, its arithmetic on `uint` and `uint64`, and the inode `ip` used
as a flag: `bad` releases the inode and ends the transaction only while
`ip != 0`, that is before `exec`'s own `end_op`.
-/

namespace Xv6

namespace Fs

open LEBytes

/-- `ELF_MAGIC`: `"\x7FELF"` in little endian. -/
def ELF_MAGIC : Nat := 0x464C457F

def ELF_PROG_LOAD : Nat := 1

/-- `sizeof(struct elfhdr)`. -/
def ELFHDRSIZE : Nat := 64

/-- `sizeof(struct proghdr)`. -/
def PROGHDRSIZE : Nat := 56

/-- The fields of `struct elfhdr` that `exec` reads. -/
structure Elfhdr where
  magic : Nat
  entry : Nat
  phoff : Nat
  phnum : Nat
deriving DecidableEq, Repr

/-- The header at its offsets in `struct elfhdr`. -/
def getElfhdr (bs : List UInt8) : Elfhdr where
  magic := getLE bs 0 4
  entry := getLE bs 24 8
  phoff := getLE bs 32 8
  phnum := getLE bs 56 2

/-- The fields of `struct proghdr` that `exec` reads. -/
structure Proghdr where
  type : Nat
  off : Nat
  vaddr : Nat
  filesz : Nat
  memsz : Nat
deriving DecidableEq, Repr

def getProghdr (bs : List UInt8) : Proghdr where
  type := getLE bs 0 4
  off := getLE bs 8 8
  vaddr := getLE bs 16 8
  filesz := getLE bs 32 8
  memsz := getLE bs 40 8

/-- `uint64` subtraction. -/
def sub64 (a b : Nat) : Nat := (a + 2 ^ 64 - b % 2 ^ 64) % 2 ^ 64

/-- `PGROUNDUP`. -/
def pgroundup (sz : Nat) : Nat := (sz + PGSIZE - 1) % 2 ^ 64 / PGSIZE * PGSIZE

/-- The operations of `vm.c` and `proc.c` that `exec` calls, over a machine
state `V`, with the C results: a page table, a size or an address is `0` on
failure, `copyout` returns `0` or `-1`. -/
structure Vm (V : Type) where
  procPagetable : V → Nat × V
  uvmalloc : V → Nat → Nat → Nat → Nat × V
  walkaddr : V → Nat → Nat → Nat
  /-- The copy `readi` makes to the physical address `pa` (`either_copyout`
  with `user_dst = 0`). -/
  memmove : V → Nat → List UInt8 → V
  uvmclear : V → Nat → Nat → V
  copyout : V → Nat → Nat → List UInt8 → Int × V
  procFreepagetable : V → Nat → Nat → V

/-- The fields of `struct proc` that `exec` replaces. -/
structure Image where
  pagetable : Nat
  sz : Nat
  /-- `trapframe->epc`, `trapframe->sp` and `trapframe->a1`. -/
  epc : Nat
  sp : Nat
  a1 : Nat
  name : List UInt8
deriving DecidableEq, Repr

variable {V : Type}

/-- The loop of `loadseg` from `i` on; `i` is a `uint`. A lap of the counter
is `2^20` turns; the C loop would start a second lap only if every read of
the first had returned its `n` bytes, at `2^20` offsets `PGSIZE` apart,
which no file of fewer than `2^32 - PGSIZE` bytes allows. -/
def loadsegLoop (vm : Vm V) (pt va ip offset sz : Nat) : Nat → Nat → V → FsM (Int × V)
  | 0, _, v => pure (-1, v)
  | fuel + 1, i, v => do
    if i < sz then
      let pa := vm.walkaddr v pt ((va + i) % 2 ^ 64)
      if pa == 0 then panic "loadseg: address should exist"
      let n := if sz - i < PGSIZE then sz - i else PGSIZE
      let bytes ← readi ip (fun _ _ => true) ((offset + i) % 2 ^ 32) n
      let v := vm.memmove v pa bytes
      if bytes.length != n then return (-1, v)
      loadsegLoop vm pt va ip offset sz fuel ((i + PGSIZE) % 2 ^ 32) v
    else pure (0, v)

/-- `loadseg`: load `sz` bytes of the inode from `offset` to the pages
mapped at `va`. -/
def loadseg (vm : Vm V) (pt va ip offset sz : Nat) (v : V) : FsM (Int × V) := do
  if va % PGSIZE != 0 then panic "loadseg: va must be page aligned"
  loadsegLoop vm pt va ip offset sz (2 ^ 20) 0 v

/-- The loop of `exec` over the program headers, from offset `off` (an
`int`, passed to `readi` as a `uint`): the size mapped so far, or at `goto
bad` the size mapped by then. -/
def loadLoop (vm : Vm V) (ip pt : Nat) : Nat → Nat → Nat → V → FsM (Except (Nat × V) (Nat × V))
  | 0, _, sz, v => pure (.ok (sz, v))
  | fuel + 1, off, sz, v => do
    let bytes ← readi ip (fun _ _ => true) off PROGHDRSIZE
    if bytes.length != PROGHDRSIZE then return .error (sz, v)
    let ph := getProghdr bytes
    let off' := (off + PROGHDRSIZE) % 2 ^ 32
    if ph.type != ELF_PROG_LOAD then return ← loadLoop vm ip pt fuel off' sz v
    if ph.memsz < ph.filesz then return .error (sz, v)
    if (ph.vaddr + ph.memsz) % 2 ^ 64 < ph.vaddr then return .error (sz, v)
    let (sz1, v) := vm.uvmalloc v pt sz ((ph.vaddr + ph.memsz) % 2 ^ 64)
    if sz1 == 0 then return .error (sz, v)
    let sz := sz1
    if ph.vaddr % PGSIZE != 0 then return .error (sz, v)
    let (r, v) ← loadseg vm pt ph.vaddr ip (ph.off % 2 ^ 32) (ph.filesz % 2 ^ 32) v
    if r < 0 then return .error (sz, v)
    loadLoop vm ip pt fuel off' sz v

/-- The loop of `exec` pushing the argument strings below `sp`, with the
pointers `ustack` pushed so far: the last `sp` and the pointers, or at `goto
bad` the machine as it is then. -/
def pushArgs (vm : Vm V) (pt stackbase : Nat) :
    List (List UInt8) → Nat → List Nat → V → Except V (Nat × List Nat × V)
  | [], sp, ustack, v => .ok (sp, ustack, v)
  | a :: argv, sp, ustack, v =>
    if ustack.length ≥ MAXARG then .error v
    else
      let sp := sub64 sp (a.length + 1)
      -- riscv sp must be 16-byte aligned
      let sp := sp - sp % 16
      if sp < stackbase then .error v
      else
        let (r, v) := vm.copyout v pt sp (a ++ [0])
        if r < 0 then .error v else pushArgs vm pt stackbase argv sp (ustack ++ [sp]) v

/-- The part of `path` after its last `'/'`, as `exec`'s loop over `path`
moves `last`. -/
def lastElem : List UInt8 → List UInt8 → List UInt8
  | last, [] => last
  | last, c :: s => if c == '/'.toNat.toUInt8 then lastElem s s else lastElem last s

/-- The `bad` label: free the new page table if there is one, and release
the inode and end the transaction if `ip` is still set. -/
def execBad (vm : Vm V) (ip : Option Nat) (pt sz : Nat) (old : Image) (v : V) :
    FsM (Int × Image × V) := do
  let v := if pt != 0 then vm.procFreepagetable v pt sz else v
  match ip with
  | some ip =>
    iunlockput ip
    endOp
  | none => pure ()
  pure (-1, old, v)

/-- `exec`, for process `p` whose image is `old`: `argc` and the new image,
or `-1` and the old one. -/
def exec (vm : Vm V) (p : Nat) (path : List UInt8) (argv : List (List UInt8)) (old : Image)
    (v : V) : FsM (Int × Image × V) := do
  beginOp
  match ← namei p path with
  | none =>
    endOp
    pure (-1, old, v)
  | some ip =>
    ilock ip
    -- check ELF header
    let hdr ← readi ip (fun _ _ => true) 0 ELFHDRSIZE
    if hdr.length != ELFHDRSIZE then return ← execBad vm (some ip) 0 0 old v
    let elf := getElfhdr hdr
    if elf.magic != ELF_MAGIC then return ← execBad vm (some ip) 0 0 old v
    let (pt, v) := vm.procPagetable v
    if pt == 0 then return ← execBad vm (some ip) 0 0 old v
    -- load program into memory
    match ← loadLoop vm ip pt elf.phnum (elf.phoff % 2 ^ 32) 0 v with
    | .error (sz, v) => execBad vm (some ip) pt sz old v
    | .ok (sz, v) =>
      iunlockput ip
      endOp
      -- `ip = 0`: from here on `bad` leaves the inode and the log alone
      let sz := pgroundup sz
      let (sz1, v) := vm.uvmalloc v pt sz ((sz + 2 * PGSIZE) % 2 ^ 64)
      if sz1 == 0 then return ← execBad vm none pt sz old v
      let sz := sz1
      let v := vm.uvmclear v pt (sub64 sz (2 * PGSIZE))
      let stackbase := sub64 sz PGSIZE
      match pushArgs vm pt stackbase argv sz [] v with
      | .error v => execBad vm none pt sz old v
      | .ok (sp, ustack, v) =>
        let argc := ustack.length
        -- push the array of argv[] pointers
        let sp := sub64 sp ((argc + 1) * 8)
        let sp := sp - sp % 16
        if sp < stackbase then return ← execBad vm none pt sz old v
        let (r, v) := vm.copyout v pt sp ((ustack ++ [0]).flatMap (leBytes 8))
        if r < 0 then return ← execBad vm none pt sz old v
        -- commit to the user image
        let new : Image :=
          { pagetable := pt, sz, epc := elf.entry, sp, a1 := sp,
            name := (lastElem path path).take 15 }
        pure (argc, new, vm.procFreepagetable v old.pagetable old.sz)

end Fs

end Xv6
