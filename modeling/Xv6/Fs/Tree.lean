import Xv6.Fs.Dir

/-!
# The file system as a tree of inodes

What the file-system state means, read off the disk without running any
kernel code: the on-disk inode of each number, the bytes of an inode's
contents block by block, the live entries of a directory, and two
invariants of the directory tree, on link counts and on lookups:

- `LinkCountsConsistent`: an allocated inode's `nlink` is the number of live
  entries naming it, `"."` entries aside, in directories with `nlink ≥ 1`;
- `EntriesAllocated`: every live entry of an allocated directory names an
  allocated inode;

and the invariant of the block allocator, `BlocksOwned`: a block is marked in
the bitmap exactly when it is metadata or one allocated inode refers to it.

Reading a block index with no address (a hole) gives zeros here: it is what
`bmap` would hand `readi` after allocating a fresh zeroed block. Whether a
hole can be met at all is its own question (`Mapped`).
-/

namespace Xv6

namespace Fs

open LEBytes

variable (st : FsState)

/-- The on-disk inode `inum`. -/
def dinodeAt (inum : Nat) : Dinode :=
  getDinode (st.blocks (IBLOCK inum st.sb)) (dinodeOff inum)

/-- The disk block of file block `bn` of an inode, as `bmap` finds it
without allocating (`0` when there is none). -/
def blockOf (din : Dinode) (bn : Nat) : Nat :=
  if bn < NDIRECT then din.addrs.getD bn 0
  else if bn - NDIRECT < NINDIRECT then
    let ind := din.addrs.getD NDIRECT 0
    if ind = 0 then 0 else getAddr (st.blocks ind) (bn - NDIRECT)
  else 0

/-- The data of file block `bn` (zeros for a hole). -/
def blockData (din : Dinode) (bn : Nat) : Block :=
  if blockOf st din bn = 0 then zeroBlock else st.blocks (blockOf st din bn)

/-- The number of blocks `size` bytes cover. -/
def sizeBlocks (size : Nat) : Nat := (size + BSIZE - 1) / BSIZE

/-- Every block below the size has an address: `readi` never makes `bmap`
allocate. -/
def Mapped (din : Dinode) : Prop := ∀ bn < sizeBlocks din.size, blockOf st din bn ≠ 0

instance (din : Dinode) : Decidable (Mapped st din) :=
  inferInstanceAs (Decidable (∀ bn < sizeBlocks din.size, blockOf st din bn ≠ 0))

/-- The entries of a directory, in order. -/
def entries (din : Dinode) : List Dirent :=
  (direntOffsets din.size).map fun off => getDirent (blockData st din (off / BSIZE)) (off % BSIZE)

/-- The number of live entries naming `inum` (which is not 0), other than
`"."` entries, in the directories with `nlink ≥ 1`. -/
def linkCount (inum : Nat) : Nat :=
  ((List.range st.sb.ninodes).map fun d =>
    if (dinodeAt st d).type = T_DIR ∧ (dinodeAt st d).nlink ≥ 1 then
      ((entries st (dinodeAt st d)).filter fun e => e.inum == inum && namecmp e.name dot != 0).length
    else 0).sum

/-- Every allocated inode's `nlink` counts the entries naming it. -/
def LinkCountsConsistent : Prop :=
  ∀ inum < st.sb.ninodes, 0 < inum → (dinodeAt st inum).type ≠ 0 →
    (dinodeAt st inum).nlink = linkCount st inum

instance : Decidable (LinkCountsConsistent st) :=
  inferInstanceAs (Decidable (∀ inum < st.sb.ninodes, 0 < inum → (dinodeAt st inum).type ≠ 0 →
    (dinodeAt st inum).nlink = linkCount st inum))

/-- Every live entry of an allocated directory names an allocated inode. -/
def EntriesAllocated : Prop :=
  ∀ d < st.sb.ninodes, (dinodeAt st d).type = T_DIR →
    ∀ e ∈ entries st (dinodeAt st d), e.inum ≠ 0 → (dinodeAt st e.inum).type ≠ 0

instance : Decidable (EntriesAllocated st) :=
  inferInstanceAs (Decidable (∀ d < st.sb.ninodes, (dinodeAt st d).type = T_DIR →
    ∀ e ∈ entries st (dinodeAt st d), e.inum ≠ 0 → (dinodeAt st e.inum).type ≠ 0))

/-! ## Block ownership -/

/-- The blocks an inode refers to: its direct addresses, its indirect block
and the indirect block's entries (an address of `0` is no block). -/
def inodeBlocks (din : Dinode) : List Nat :=
  let ind := din.addrs.getD NDIRECT 0
  let indirect := if ind = 0 then [] else ind :: (List.range NINDIRECT).map (getAddr (st.blocks ind))
  (din.addrs.take NDIRECT ++ indirect).filter (· != 0)

/-- The references to block `b` from allocated inodes. -/
def blockRefs (b : Nat) : Nat :=
  ((List.range st.sb.ninodes).map fun inum =>
    if (dinodeAt st inum).type ≠ 0 then (inodeBlocks st (dinodeAt st inum)).count b else 0).sum

/-- Every block is referred to at most once, and is marked in the bitmap
exactly when it is metadata (boot, superblock, log, inodes, bitmap: the
blocks below `size - nblocks`) or an allocated inode refers to it. -/
def BlocksOwned : Prop :=
  ∀ b < st.sb.size, blockRefs st b ≤ 1 ∧
    (bitSet (st.blocks (BBLOCK b st.sb)) (b % BPB) = true ↔
      (b < st.sb.size - st.sb.nblocks ∨ blockRefs st b = 1))

/-- A marked data block that no inode refers to breaks ownership. -/
theorem not_blocksOwned_of_leak {b : Nat} (hb : b < st.sb.size)
    (hmark : bitSet (st.blocks (BBLOCK b st.sb)) (b % BPB) = true)
    (hdata : st.sb.size - st.sb.nblocks ≤ b) (hrefs : blockRefs st b = 0) :
    ¬ BlocksOwned st := by
  intro hown
  rcases ((hown b hb).2.mp hmark) with hmeta | hone
  · omega
  · omega

end Fs

end Xv6
