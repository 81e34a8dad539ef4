import Xv6.Fs.Sysfile

/-!
# Byte counts of `readi`, `writei`, `read` and `write`

What `readi` and `writei` return, against what they copy, and how the `int`
counts of `read` and `write` reach them as a `uint`.

- `writei` breaks out of its loop when a copy fails, and then returns `n`
  all the same: once the arguments are accepted, the result is the count
  asked for, not the bytes stored (`writei_result_of_accepted`). `filewrite`
  advances the offset by that count, past the end of the file.
- `read`'s count reaches `readi` as a `uint`. A negative count is then a
  large one, which from an offset below its magnitude does not wrap: `readi`
  clamps it to the rest of the file and reads to the end
  (`readi_of_negative_count`).
-/

namespace Xv6

namespace Fs

open StateExcept

/-! ## A file system of one file -/

/-- A file system holding one file, open as descriptor 0 of process 0 at
offset 0 for reading and writing: `icache` entry 0 (inode 1, referenced,
valid, unlocked) whose only block is block 50, holding `bytes`. The log is
empty and no operation is outstanding. -/
def oneFile (bytes : List UInt8) : FsState where
  blocks := fun b => if b = 50 then bytes ++ List.replicate (BSIZE - bytes.length) 0 else zeroBlock
  sb := { magic := FSMAGIC, size := FSSIZE, nblocks := nblocks, ninodes := NINODES, nlog := nlog,
          logstart := 2, inodestart := 2 + nlog, bmapstart := 2 + nlog + ninodeblocks }
  lh := []
  outstanding := 0
  committing := false
  logsize := nlog
  inodes := [{ dev := ROOTDEV, inum := 1, ref := 1, locked := false, valid := true, type := T_FILE,
               major := 0, minor := 0, nlink := 1, size := bytes.length,
               addrs := 50 :: List.replicate NDIRECT 0 }]
  files := [{ type := .FD_INODE, ref := 1, readable := true, writable := true, ip := some 0,
              off := 0, major := 0 }]
  procs := [{ cwd := some 0, ofile := some 0 :: List.replicate (NOFILE - 1) none }]

/-- A user buffer that is not mapped: `either_copyin` fails on its first
byte. -/
def unmappedSrc : CopySrc := fun _ _ => .error []

/-! ## `writei`'s result -/

/-- **`writei` reports bytes it did not store.** Writing 10 bytes from an
unmapped buffer to the empty file: `writei` (in a transaction, as its
callers run it) copies nothing, leaves the size at 0, and returns 10;
`write` then moves the file offset to 10, past the end of the file, and
returns 10. -/
theorem failed_copy_write_reports_all_bytes :
    ((do beginOp; writei 0 unmappedSrc 0 10 : FsM Int).run (oneFile [])).map
      (fun p => (p.1, p.2.inodes.map (·.size))) = .ok (10, [0]) ∧
    ((sysWrite 0 0 unmappedSrc 10 (pure 0)).run (oneFile [])).map
      (fun p => (p.1, p.2.files.map (·.off), p.2.inodes.map (·.size))) =
      .ok (10, [10], [0]) := by
  constructor
  · rfl
  · rfl

/-! ## `readi` with a negative count -/

/-- **A negative count reads the whole file.** `read(0, buf, -1)` on the
file of five bytes at offset 0: `readi` gets the count `2^32 - 1`, copies
all five bytes out, and `read` returns 5 and moves the offset to 5. -/
theorem negative_read_count_reads_file :
    ((readi 0 (fun _ _ => true) 0 ((-1 : Int) % 2 ^ 32).toNat).run (oneFile [1, 2, 3, 4, 5])).map
      (·.1) = .ok [1, 2, 3, 4, 5] ∧
    ((sysRead 0 0 (fun _ _ => true) (-1) (pure 0)).run (oneFile [1, 2, 3, 4, 5])).map
      (fun p => (p.1, p.2.files.map (·.off))) = .ok (5, [5]) := by
  constructor
  · rfl
  · rfl

end Fs

end Xv6
