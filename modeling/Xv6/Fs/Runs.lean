import Xv6.Fs.Sysfile
import Xv6.Mkfs.EmptyFiles

/-!
# Runs from the image

System-call sequences of process 0 from the image `mkfs` builds: the image of
no input files, and the image of 62 empty files named `aa`, `ab`, ... (two
lowercase letters each), in whose root the entries fill exactly one block.
Both images are in closed form (`mkfsImage_plainEmpty`), and each run is
evaluated from there.

`EmptyImageRuns` and `Image62Runs` record what the runs observe, one field
per run, each run evaluated once; the theorems after them read the file
system's failures off those observations.
-/

namespace Xv6

namespace Fs

open BlockDisk

/-- `k` empty input files with distinct two-letter names. -/
def emptyFiles (k : Nat) : List (List UInt8 × List UInt8) :=
  (List.range k).map fun i => ([97 + (i / 26).toUInt8, 97 + (i % 26).toUInt8], [])

/-- The image of 62 empty files, in closed form. -/
theorem mkfsImage_emptyFiles_62 :
    mkfsImage (emptyFiles 62) = .ok (Mkfs.emptyImage ((emptyFiles 62).map Prod.fst)) :=
  mkfsImage_plainEmpty (by decide) (by decide)

/-- The image of no input files, in closed form. -/
theorem mkfsImage_nil : mkfsImage [] = .ok (Mkfs.emptyImage []) :=
  mkfsImage_plainEmpty (by decide) (by decide)

/-! ## The runs -/

/- The kernel decides `l = l'` on lists by `List.hasDecEq`, which recurses
once per element in non-tail position; on whole blocks that is a recursion
a thousand levels deep. `List.beq` decides the same without it, so the runs
that compare blocks are evaluated through these two rewrites. -/

theorem decide_forall_lt_eq_all_range (n : Nat) (P : Nat → Prop) [DecidablePred P] :
    decide (∀ q < n, P q) = (List.range n).all fun q => decide (P q) := by
  rw [Bool.eq_iff_iff, decide_eq_true_iff, List.all_eq_true]
  simp only [List.mem_range, decide_eq_true_eq]

theorem decide_eq_eq_beq {α : Type} [DecidableEq α] [BEq α] [LawfulBEq α] (a b : α) :
    decide (a = b) = (a == b) := by
  rw [Bool.eq_iff_iff, decide_eq_true_iff, beq_iff_eq]

/-- A process makes `/d`, moves into it and unlinks it; then creates `f`
there, closes it, and moves back to `/`. -/
def createInUnlinkedCwd : FsM (List Int) := do
  let r1 ← sysMkdir 0 (cbytes "/d")
  let r2 ← sysChdir 0 (cbytes "/d")
  let r3 ← sysUnlink 0 (cbytes "/d")
  let fd ← sysOpen 0 (cbytes "f") (O_CREATE ||| O_RDWR)
  let r5 ← sysClose 0 fd
  let r6 ← sysChdir 0 (cbytes "/")
  pure [r1, r2, r3, fd, r5, r6]

/-- A process makes `/a/b`, moves into it, and unlinks `/a/b` and then
`/a`, both empty by then. -/
def unlinkCwdAncestors : FsM (List Int) := do
  let r1 ← sysMkdir 0 (cbytes "/a")
  let r2 ← sysMkdir 0 (cbytes "/a/b")
  let r3 ← sysChdir 0 (cbytes "/a/b")
  let r4 ← sysUnlink 0 (cbytes "/a/b")
  let r5 ← sysUnlink 0 (cbytes "/a")
  pure [r1, r2, r3, r4, r5]

/-- `ls /`: open the root and read 2048 bytes of it. -/
def lsRoot : FsM Int := do
  let fd ← sysOpen 0 (cbytes "/") O_RDONLY
  sysRead 0 fd (fun _ _ => true) 2048 (pure 0)

/-- The kernel reading the whole root directory through `iget`, `ilock` and
`readi`, inside a transaction or not: the number of bytes `readi` returns. -/
def readRoot (inTrans : Bool) : FsM Nat := do
  if inTrans then beginOp
  let ip ← iget ROOTDEV ROOTINO
  ilock ip
  let bytes ← readi ip (fun _ _ => true) 0 (← getInode ip).size
  pure bytes.length

/-- `open` of a name the root does not hold. -/
def lookupMissing : FsM Int := sysOpen 0 (cbytes "/zz") O_RDONLY

/-- A process fills its descriptor table: it opens `/` and duplicates that
descriptor until all `NOFILE` are in use. Then it calls
`open("x", O_CREATE|O_RDWR)`. The results of all the calls, and inode 2's
on-disk type and the number of entries naming it just before the last. -/
def createWithFullOfile : FsM (List Int × Int × Nat) := do
  let fd ← sysOpen 0 (cbytes "/") O_RDONLY
  let dups ← (List.range (NOFILE - 1)).mapM fun _ => sysDup 0 fd
  let s ← get
  let before := ((dinodeAt s 2).type, linkCount s 2)
  let r ← sysOpen 0 (cbytes "x") (O_CREATE ||| O_RDWR)
  pure (fd :: dups ++ [r], before)

/-- What the runs from the image of no files observe, each run once. -/
structure EmptyImageRuns : Prop where
  /-- Every call of `createInUnlinkedCwd` succeeds; afterwards the link
  counts are inconsistent, `f` (inode 3) is an allocated file with one link
  and no entry naming it, and `/d` (inode 2) is free. -/
  createInUnlinkedCwd_result :
    (runOnImage [] createInUnlinkedCwd).map (fun r => r.map fun p =>
      (p.1, decide (LinkCountsConsistent p.2), (dinodeAt p.2 3).type, (dinodeAt p.2 3).nlink,
        linkCount p.2 3, (dinodeAt p.2 2).type)) =
      .ok (.ok ([0, 0, 0, 0, 0, 0], false, T_FILE, 1, 0, 0))
  /-- Every call of `unlinkCwdAncestors` succeeds; afterwards an entry names
  a free inode: `b` (inode 3) is a directory whose `..` names `a` (inode 2),
  which is free. -/
  unlinkCwdAncestors_result :
    (runOnImage [] unlinkCwdAncestors).map (fun r => r.map fun p =>
      (p.1, decide (EntriesAllocated p.2), (dinodeAt p.2 3).type,
        (entries p.2 (dinodeAt p.2 3)).map (·.inum), (dinodeAt p.2 2).type)) =
      .ok (.ok ([0, 0, 0, 0, 0], false, T_DIR, [3, 2], 0))
  /-- `chdir("..")` after `unlinkCwdAncestors` panics in `ilock`. -/
  unlinkCwdAncestors_chdir :
    (runOnImage [] (do let _ ← unlinkCwdAncestors; sysChdir 0 (cbytes ".."))).map
      (fun r => r.map (·.1)) = .ok (.error (.panic "ilock: no type"))
  /-- With the descriptor table full, the last `open` returns `-1`, yet inode
  2, free before the call, is now a file with one link and one entry in the
  root naming it. -/
  createWithFullOfile_result :
    (runOnImage [] createWithFullOfile).map (fun r => r.map fun p =>
      (p.1, (dinodeAt p.2 2).type, (dinodeAt p.2 2).nlink, linkCount p.2 2)) =
      .ok (.ok (([0, 1, 2, 3, 4, 5, 6, 7, 8, 9, 10, 11, 12, 13, 14, 15, -1], 0, 0), T_FILE, 1, 1))

set_option synthInstance.maxSize 256 in
/-- The runs from the image of no files, evaluated one after the other. -/
theorem emptyImageRuns : EmptyImageRuns where
  createInUnlinkedCwd_result := by rw [runOnImage, mkfsImage_nil]; decide +kernel
  unlinkCwdAncestors_result := by rw [runOnImage, mkfsImage_nil]; decide +kernel
  unlinkCwdAncestors_chdir := by rw [runOnImage, mkfsImage_nil]; decide +kernel
  createWithFullOfile_result := by rw [runOnImage, mkfsImage_nil]; decide +kernel

/-- What the runs from the image of 62 files observe, each run once. -/
structure Image62Runs : Prop where
  /-- The root's entries fill exactly one block, `mkfs` rounds its size up
  to two, and block 47 is free. -/
  image_result :
    (runOnImage (emptyFiles 62) (pure ())).map (fun r => r.map fun p =>
      ((dinodeAt p.2 ROOTINO).size, decide (Mapped p.2 (dinodeAt p.2 ROOTINO)),
        bitSet (p.2.blocks (BBLOCK 47 p.2.sb)) 47)) =
      .ok (.ok (2048, false, false))
  /-- `ls /` panics in `log_write`. -/
  lsRoot_panics :
    (runOnImage (emptyFiles 62) lsRoot).map (fun r => r.map (·.1)) =
      .ok (.error (.panic "log_write outside of trans"))
  /-- So does `readi` of the whole root outside a transaction... -/
  readRoot_panics :
    (runOnImage (emptyFiles 62) (readRoot false)).map (fun r => r.map (·.1)) =
      .ok (.error (.panic "log_write outside of trans"))
  /-- ... and inside one it returns 2048 bytes, having allocated block 47. -/
  readRoot_allocates :
    (runOnImage (emptyFiles 62) (readRoot true)).map (fun r => r.map fun p =>
      (p.1, bitSet (p.2.blocks (BBLOCK 47 p.2.sb)) 47)) = .ok (.ok (2048, true))
  /-- After the failed `open` of `lookupMissing`: the call returned `-1` and
  its transaction committed, block 47 is marked, and the superblock and the
  inode blocks are the image's. -/
  lookupMissing_result :
    (runOnImage (emptyFiles 62) lookupMissing).map (fun r => r.map fun p =>
      ((p.1, p.2.outstanding, p.2.lh), bitSet (p.2.blocks (BBLOCK 47 p.2.sb)) (47 % BPB),
        decide (p.2.sb = mkfsSuperblock),
        decide (∀ q < ninodeblocks, p.2.blocks (mkfsSuperblock.inodestart + q) =
          imageDisk (Mkfs.emptyImage ((emptyFiles 62).map Prod.fst))
            (mkfsSuperblock.inodestart + q)))) =
      .ok (.ok ((-1, 0, []), true, true, true))

set_option synthInstance.maxSize 256 in
/-- The runs from the image of 62 files, evaluated one after the other. -/
theorem image62Runs : Image62Runs where
  image_result := by rw [runOnImage, mkfsImage_emptyFiles_62]; decide +kernel
  lsRoot_panics := by rw [runOnImage, mkfsImage_emptyFiles_62]; decide +kernel
  readRoot_panics := by rw [runOnImage, mkfsImage_emptyFiles_62]; decide +kernel
  readRoot_allocates := by rw [runOnImage, mkfsImage_emptyFiles_62]; decide +kernel
  lookupMissing_result := by
    rw [runOnImage, mkfsImage_emptyFiles_62]
    simp only [decide_forall_lt_eq_all_range, decide_eq_eq_beq]
    decide +kernel

/-! ## What the runs show -/

/-- **Creating in an unlinked directory leaks an inode.** Every call
succeeds; afterwards `f` (inode 3) is an allocated file with one link that no
entry names (its only entry was in `/d`, inode 2, freed when the process
left it), so the link counts are inconsistent for good. -/
theorem create_in_unlinked_cwd_leaks_inode :
    (runOnImage [] createInUnlinkedCwd).map (fun r => r.map fun p =>
      (p.1, decide (LinkCountsConsistent p.2))) = .ok (.ok ([0, 0, 0, 0, 0, 0], false)) ∧
    (runOnImage [] createInUnlinkedCwd).map (fun r => r.map fun p =>
      ((dinodeAt p.2 3).type, (dinodeAt p.2 3).nlink, linkCount p.2 3, (dinodeAt p.2 2).type)) =
      .ok (.ok (T_FILE, 1, 0, 0)) :=
  have h := emptyImageRuns.createInUnlinkedCwd_result
  ⟨StateExcept.map_map_of_eq h fun t => (t.1, t.2.1),
    StateExcept.map_map_of_eq h fun t => t.2.2⟩

/-- **`..` of an orphaned cwd reaches a freed inode.** After the unlinks,
`b` (inode 3, still the process's cwd) is an allocated directory whose `..`
entry names `a` (inode 2), already freed; `chdir("..")` then hands that inode
to `ilock`, which panics. -/
theorem chdir_dotdot_after_ancestor_unlink_panics :
    (runOnImage [] unlinkCwdAncestors).map (fun r => r.map fun p =>
      (p.1, decide (EntriesAllocated p.2))) = .ok (.ok ([0, 0, 0, 0, 0], false)) ∧
    (runOnImage [] unlinkCwdAncestors).map (fun r => r.map fun p =>
      ((dinodeAt p.2 3).type, (entries p.2 (dinodeAt p.2 3)).map (·.inum), (dinodeAt p.2 2).type)) =
      .ok (.ok (T_DIR, [3, 2], 0)) ∧
    (runOnImage [] (do let _ ← unlinkCwdAncestors; sysChdir 0 (cbytes ".."))).map
      (fun r => r.map (·.1)) = .ok (.error (.panic "ilock: no type")) :=
  have h := emptyImageRuns.unlinkCwdAncestors_result
  ⟨StateExcept.map_map_of_eq h fun t => (t.1, t.2.1),
    StateExcept.map_map_of_eq h fun t => t.2.2, emptyImageRuns.unlinkCwdAncestors_chdir⟩

/-- **`open` with `O_CREATE` fails after creating.** With the descriptor
table full, `sys_open` first runs `create`, which allocates inode 2 and links
it into the root, and only then finds no free descriptor: it closes the file
it allocated and returns `-1`, but the new inode and its entry stay. -/
theorem open_create_full_ofile_keeps_file :
    (runOnImage [] createWithFullOfile).map (fun r => r.map fun p =>
      (p.1, (dinodeAt p.2 2).type, (dinodeAt p.2 2).nlink, linkCount p.2 2)) =
      .ok (.ok (([0, 1, 2, 3, 4, 5, 6, 7, 8, 9, 10, 11, 12, 13, 14, 15, -1], 0, 0), T_FILE, 1, 1)) :=
  emptyImageRuns.createWithFullOfile_result

/-- With 62 files the root's entries fill exactly one block, and `mkfs`
rounds its size up to two. -/
theorem mkfs_root_hole :
    (runOnImage (emptyFiles 62) (pure ())).map (fun r => r.map fun p =>
      ((dinodeAt p.2 ROOTINO).size, decide (Mapped p.2 (dinodeAt p.2 ROOTINO)))) =
      .ok (.ok (2048, false)) :=
  StateExcept.map_map_of_eq image62Runs.image_result fun t => (t.1, t.2.1)

/-- **A read allocates, outside any transaction.** On the image of 62
files the root has size 2048 and no block 1; reading it (as `ls` does) makes
`bmap` call `balloc`, whose `log_write` panics. -/
theorem ls_root_of_mkfs_hole_panics :
    (runOnImage (emptyFiles 62) (pure ())).map (fun r => r.map fun p =>
      ((dinodeAt p.2 ROOTINO).size, decide (Mapped p.2 (dinodeAt p.2 ROOTINO)))) =
      .ok (.ok (2048, false)) ∧
    (runOnImage (emptyFiles 62) lsRoot).map (fun r => r.map (·.1)) =
      .ok (.error (.panic "log_write outside of trans")) :=
  ⟨mkfs_root_hole, image62Runs.lsRoot_panics⟩

/-- **The kernel cannot read the root `mkfs` wrote for 62 files.** The
root's size says two blocks and its addresses give one. `readi` over the
whole directory panics outside a transaction; inside one it returns the 2048
bytes only by allocating block 47 (free in the image) to fill the gap. -/
theorem mkfs_root_unreadable_by_readi :
    (runOnImage (emptyFiles 62) (pure ())).map (fun r => r.map fun p =>
      ((dinodeAt p.2 ROOTINO).size, decide (Mapped p.2 (dinodeAt p.2 ROOTINO)))) =
      .ok (.ok (2048, false)) ∧
    (runOnImage (emptyFiles 62) (readRoot false)).map (fun r => r.map (·.1)) =
      .ok (.error (.panic "log_write outside of trans")) ∧
    (runOnImage (emptyFiles 62) (pure ())).map (fun r => r.map fun p =>
      bitSet (p.2.blocks (BBLOCK 47 p.2.sb)) 47) = .ok (.ok false) ∧
    (runOnImage (emptyFiles 62) (readRoot true)).map (fun r => r.map fun p =>
      (p.1, bitSet (p.2.blocks (BBLOCK 47 p.2.sb)) 47)) = .ok (.ok (2048, true)) :=
  ⟨mkfs_root_hole, image62Runs.readRoot_panics,
    StateExcept.map_map_of_eq image62Runs.image_result fun t => t.2.2,
    image62Runs.readRoot_allocates⟩

/-- **A failed lookup leaks a block.** On the image of 62 files, `open` of a
name the root does not hold fails; but its `dirlookup` reads the root up to
its size, and `bmap` fills the hole with block 47, which `balloc` marks in
the bitmap. Only the cached root inode records the new address: `readi`
never writes the inode back. The committed state has a marked data block that
no allocated inode refers to. -/
theorem failed_lookup_leaks_block :
    ∃ r, runOnImage (emptyFiles 62) lookupMissing = .ok (.ok r) ∧
      r.1 = -1 ∧ r.2.outstanding = 0 ∧ r.2.lh = [] ∧ ¬ BlocksOwned r.2 := by
  have hrun := image62Runs.lookupMissing_result
  -- the run succeeds; the facts are read off its result
  cases hr : runOnImage (emptyFiles 62) lookupMissing with
  | error e => rw [hr] at hrun; cases hrun
  | ok res =>
    rw [hr] at hrun
    cases res with
    | error e => cases hrun
    | ok r =>
      simp only [Except.map, Except.ok.injEq, Prod.mk.injEq, decide_eq_true_eq] at hrun
      obtain ⟨⟨hret, hout, hlh⟩, hmark, hsb, hblocks⟩ := hrun
      -- no allocated inode refers to block 47: only the root's block 46 is referenced
      have hrefs : blockRefs r.2 47 = 0 := by
        rw [Mkfs.blockRefs_emptyImage (by decide) hsb
            fun q hq => (hblocks q hq).trans (Mkfs.imageDisk_emptyImage_inode hq),
          if_neg (by decide)]
      exact ⟨r, rfl, hret, hout, hlh,
        not_blocksOwned_of_leak r.2 (by rw [hsb]; decide) hmark (by rw [hsb]; decide) hrefs⟩

end Fs

end Xv6
