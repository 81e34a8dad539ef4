import Mathlib

/-!
# Constants of the kernel and of the on-disk format

`kernel/param.h`, `kernel/fs.h`, `kernel/stat.h`, `kernel/fcntl.h` and the
layout constants of `mkfs/mkfs.c`, under their C names. The sizes of the C
structs that the code reads and writes through casts (`struct dinode`,
`struct dirent`, `struct logheader`, `struct superblock`) are spelled out
here once, as the byte layouts of the later files use them.
-/

namespace Xv6

/-! ## `param.h` -/

def NPROC : Nat := 64
def NOFILE : Nat := 16
def NFILE : Nat := 100
def NINODE : Nat := 50
def NDEV : Nat := 10
def ROOTDEV : Nat := 1
def MAXARG : Nat := 32
def MAXOPBLOCKS : Nat := 10
def LOGSIZE : Nat := MAXOPBLOCKS * 3
def NBUF : Nat := MAXOPBLOCKS * 3
def FSSIZE : Nat := 1000

/-! ## `fs.h` -/

def ROOTINO : Nat := 1
def BSIZE : Nat := 1024
def FSMAGIC : Nat := 0x10203040
def NDIRECT : Nat := 12
/-- `BSIZE / sizeof(uint)`. -/
def NINDIRECT : Nat := BSIZE / 4
def MAXFILE : Nat := NDIRECT + NINDIRECT
/-- `sizeof(struct dinode)`: four shorts, a uint and `NDIRECT+1` uints. -/
def DINODESIZE : Nat := 2 * 4 + 4 + 4 * (NDIRECT + 1)
def IPB : Nat := BSIZE / DINODESIZE
def BPB : Nat := BSIZE * 8
def DIRSIZ : Nat := 14
/-- `sizeof(struct dirent)`: a ushort and `DIRSIZ` chars. -/
def DIRENTSIZE : Nat := 2 + DIRSIZ
/-- `sizeof(struct logheader)`: `int n` and `int block[LOGSIZE]`. -/
def LOGHEADERSIZE : Nat := 4 + 4 * LOGSIZE

/-! ## `stat.h` and `fcntl.h` -/

def T_DIR : Int := 1
def T_FILE : Int := 2
def T_DEVICE : Int := 3

def O_RDONLY : Nat := 0x000
def O_WRONLY : Nat := 0x001
def O_RDWR : Nat := 0x002
def O_CREATE : Nat := 0x200
def O_TRUNC : Nat := 0x400

/-- `file.h`: the console's major device number, the one `devsw` entry
with read and write functions. -/
def CONSOLE : Int := 1

/-! ## `mkfs.c` -/

def NINODES : Nat := 200
def nbitmap : Nat := FSSIZE / (BSIZE * 8) + 1
def ninodeblocks : Nat := NINODES / IPB + 1
def nlog : Nat := LOGSIZE
/-- Number of meta blocks: boot, superblock, log, inode and bitmap blocks. -/
def nmeta : Nat := 2 + nlog + ninodeblocks + nbitmap
/-- Number of data blocks. -/
def nblocks : Nat := FSSIZE - nmeta

end Xv6
