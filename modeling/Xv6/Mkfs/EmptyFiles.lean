import Xv6.Mkfs
import Xv6.Fs.Tree
import Mathlib

/-!
# The image `mkfs` writes for empty files

`mkfsImage_plainEmpty`: on at most 62 empty input files whose names are
their own short names, `mkfs` writes `emptyImage`, a closed form of the
image. The run is followed step by step: the image is kept as a function of
the block number (`imageOf`), the inode blocks as functions of the inode
number (`inodeBlock`), and each of `rsect`, `wsect`, `rinode`, `winode`,
`ialloc` and `iappend` is a lemma about one step on them (`*_run`). With at
most 62 files the root's entries (`.`, `..` and one per file, 16 bytes each)
fit in its first block, so each append to the root is one turn of
`iappend`'s loop. `forM_addFile_run` is the loop over the files, by
induction on them.
-/

namespace Xv6

namespace Mkfs

open BlockDisk LEBytes

/-! ## The image of empty files

What `main` writes when no input file has contents: each file gets an inode
with one link and no block; the root's entries fill blocks `nmeta, nmeta + 1,
...` in order; the root's size is `rootSize` of its entries' bytes; the bitmap
marks every block below the first free one. A closed form, read off `main`,
that the image of a given list of files can be compared with. -/

/-- The root's entries for files with these short names: `.` and `..`,
then one per file, whose inode numbers count from 2. -/
def rootDirents (names : List (List UInt8)) : List Dirent :=
  { inum := ROOTINO, name := Fs.strncpy Fs.dot DIRSIZ } ::
    { inum := ROOTINO, name := Fs.strncpy Fs.dotdot DIRSIZ } ::
    names.zipIdx.map fun (name, i) => { inum := i + 2, name := Fs.strncpy name DIRSIZ }

/-- The root directory's bytes. -/
def rootBytes (names : List (List UInt8)) : List UInt8 :=
  (rootDirents names).flatMap Dirent.bytes

/-- The number of blocks the root's bytes take. -/
def rootBlocks (names : List (List UInt8)) : Nat :=
  ((rootBytes names).length + BSIZE - 1) / BSIZE

/-- Inode `inum` of the image. -/
def emptyDinode (names : List (List UInt8)) (inum : Nat) : Dinode :=
  if inum = ROOTINO then
    { type := T_DIR, major := 0, minor := 0, nlink := 1, size := rootSize (rootBytes names).length,
      addrs := (List.range (NDIRECT + 1)).map fun j => if j < rootBlocks names then nmeta + j else 0 }
  else if 2 ≤ inum ∧ inum < names.length + 2 then { Dinode.zero with type := T_FILE, nlink := 1 }
  else Dinode.zero

/-- The image of empty files with these short names. -/
def emptyImage (names : List (List UInt8)) : List Block :=
  (List.range FSSIZE).map fun b =>
    if b = 1 then writeSuperblock mkfsSuperblock zeroBlock
    else if mkfsSuperblock.inodestart ≤ b ∧
        b ≤ mkfsSuperblock.inodestart + (names.length + 1) / IPB then
      (List.range IPB).flatMap fun r =>
        (emptyDinode names (IPB * (b - mkfsSuperblock.inodestart) + r)).bytes
    else if b = mkfsSuperblock.bmapstart then
      (List.range (nmeta + rootBlocks names)).foldl setBit zeroBlock
    else if nmeta ≤ b ∧ b < nmeta + rootBlocks names then
      setBytes zeroBlock 0 (((rootBytes names).drop ((b - nmeta) * BSIZE)).take BSIZE)
    else zeroBlock

/-! ## Images as functions of the block number -/

/-- The image whose block `b` is `f b`. -/
def imageOf (f : Nat → Block) : List Block := (List.range FSSIZE).map f

theorem writeSect_imageOf (f : Nat → Block) {sec : Nat} (buf : Block) (h : sec < FSSIZE) :
    writeSect (imageOf f) sec buf = imageOf (Function.update f sec buf) := by
  rw [writeSect, if_pos (by simpa [imageOf] using h)]
  apply List.ext_getElem (by simp [imageOf])
  intro i h1 _
  simp only [imageOf, List.getElem_set, List.getElem_map, List.getElem_range]
  by_cases hi : i = sec
  · subst hi; simp
  · rw [if_neg (Ne.symm hi), Function.update_of_ne hi]

theorem rsect_imageOf {m : MkfsState} {f : Nat → Block} {sec : Nat} (hm : m.img = imageOf f)
    (h : sec < FSSIZE) : (rsect sec).run m = .ok (f sec, m) := by
  simp [rsect, hm, imageOf, h]
  rfl

theorem wsect_imageOf {m : MkfsState} {f : Nat → Block} {sec : Nat} (buf : Block)
    (hm : m.img = imageOf f) (h : sec < FSSIZE) :
    (wsect sec buf).run m = .ok ((), { m with img := imageOf (Function.update f sec buf) }) := by
  simp only [wsect, StateT.run_modify, hm, writeSect_imageOf f buf h]
  rfl

/-! ## Inode blocks -/

/-- Inode block `q` (counting from `inodestart`) holding the dinodes `din`. -/
def inodeBlock (din : Nat → Dinode) (q : Nat) : Block :=
  (List.range IPB).flatMap fun r => (din (IPB * q + r)).bytes

theorem inodeBlock_chunk (din : Nat → Dinode) (inum : Nat) :
    getBytes (inodeBlock din (inum / IPB)) (dinodeOff inum) DINODESIZE = (din inum).bytes := by
  rw [inodeBlock, dinodeOff, Nat.mul_comm (inum % IPB),
    getBytes_flatMap_chunk (fun _ => length_Dinode_bytes _) (Nat.mod_lt _ (by decide)),
    Nat.div_add_mod]

/-- `rinode`'s read: the dinode is read back from its chunk. -/
theorem getDinode_inodeBlock {din : Nat → Dinode} {inum : Nat} (h : (din inum).Fits) :
    getDinode (inodeBlock din (inum / IPB)) (dinodeOff inum) = din inum := by
  rw [← getDinode_getBytes, inodeBlock_chunk, getDinode_bytes h]

/-- `winode`'s write: the chunk of `inum` is replaced. -/
theorem setDinode_inodeBlock (din : Nat → Dinode) (inum : Nat) (d : Dinode) :
    setDinode (inodeBlock din (inum / IPB)) (dinodeOff inum) d =
      inodeBlock (Function.update din inum d) (inum / IPB) := by
  have hr : inum % IPB < IPB := Nat.mod_lt _ (by decide)
  rw [setDinode, inodeBlock, dinodeOff, Nat.mul_comm (inum % IPB),
    setBytes_flatMap_chunk (fun _ => length_Dinode_bytes _) (length_Dinode_bytes d) hr, inodeBlock]
  apply List.flatMap_congr
  intro r hr'
  rw [List.mem_range] at hr'
  by_cases he : r = inum % IPB
  · subst he
    rw [Function.update_self, Nat.div_add_mod, Function.update_self]
  · have hne : IPB * (inum / IPB) + r ≠ inum := by
      intro h; apply he; rw [← h, Nat.mul_add_mod, Nat.mod_eq_of_lt hr']
    rw [Function.update_of_ne he, Function.update_of_ne hne]

theorem inodeBlock_update_of_ne {din : Nat → Dinode} {inum q : Nat} (d : Dinode)
    (h : q ≠ inum / IPB) : inodeBlock (Function.update din inum d) q = inodeBlock din q := by
  apply List.flatMap_congr
  intro r hr
  rw [List.mem_range] at hr
  have hne : IPB * q + r ≠ inum := by
    intro he; apply h
    rw [← he, Nat.mul_add_div (by decide), Nat.div_eq_of_lt hr, Nat.add_zero]
  rw [Function.update_of_ne hne]

/-! ## The image while `populate` runs -/

/-- Block `b` of the image while `populate` runs on empty files: the
superblock, the inode blocks holding `din`, the root's entries `root` at the
start of block `nmeta`, zeros elsewhere (the bitmap is written last). -/
def stageBlock (din : Nat → Dinode) (root : List UInt8) (b : Nat) : Block :=
  if b = 1 then writeSuperblock mkfsSuperblock zeroBlock
  else if mkfsSuperblock.inodestart ≤ b ∧ b < mkfsSuperblock.bmapstart then
    inodeBlock din (b - mkfsSuperblock.inodestart)
  else if b = nmeta then setBytes zeroBlock 0 root
  else zeroBlock

theorem inodestart_eq : mkfsSuperblock.inodestart = 32 := rfl

theorem bmapstart_eq : mkfsSuperblock.bmapstart = 45 := rfl

theorem nmeta_eq : nmeta = 46 := by decide

theorem ipb_eq : IPB = 16 := rfl

theorem iblock_eq (inum : Nat) : IBLOCK inum mkfsSuperblock = inum / 16 + 32 := rfl

/-- The block of an inode `mkfs` writes is an inode block. -/
theorem iblock_inode {inum : Nat} (h : inum < NINODES) :
    ¬ IBLOCK inum mkfsSuperblock = 1 ∧
      (mkfsSuperblock.inodestart ≤ IBLOCK inum mkfsSuperblock ∧
        IBLOCK inum mkfsSuperblock < mkfsSuperblock.bmapstart) := by
  rw [iblock_eq, inodestart_eq, bmapstart_eq]
  simp only [NINODES] at h
  omega

theorem iblock_sub_inodestart (inum : Nat) :
    IBLOCK inum mkfsSuperblock - mkfsSuperblock.inodestart = inum / IPB := by
  rw [iblock_eq, inodestart_eq, Nat.add_sub_cancel]; rfl

theorem iblock_lt {inum : Nat} (h : inum < NINODES) : IBLOCK inum mkfsSuperblock < FSSIZE := by
  rw [iblock_eq]; simp only [NINODES] at h; simp only [FSSIZE]; omega

/-- `winode`'s block write, on the blocks as a function. -/
theorem update_stageBlock_inode (din : Nat → Dinode) (root : List UInt8) {inum : Nat}
    (h : inum < NINODES) (d : Dinode) :
    Function.update (stageBlock din root) (IBLOCK inum mkfsSuperblock)
        (setDinode (stageBlock din root (IBLOCK inum mkfsSuperblock)) (dinodeOff inum) d) =
      stageBlock (Function.update din inum d) root := by
  have hin := iblock_inode h
  have hq := iblock_sub_inodestart inum
  funext b
  by_cases hb : b = IBLOCK inum mkfsSuperblock
  · subst hb
    rw [Function.update_self]
    simp only [stageBlock, if_neg hin.1, if_pos hin.2]
    rw [hq, setDinode_inodeBlock]
  · rw [Function.update_of_ne hb]
    unfold stageBlock
    split_ifs with h1 h2
    · rfl
    · -- another inode block: none of its dinodes changes
      rw [inodeBlock_update_of_ne d]
      rw [iblock_eq] at hb
      rw [inodestart_eq] at h2 ⊢
      show b - 32 ≠ inum / 16
      omega
    · rfl
    · rfl

theorem winode_run {m : MkfsState} {din : Nat → Dinode} {root : List UInt8} {inum : Nat}
    (hm : m.img = imageOf (stageBlock din root)) (h : inum < NINODES) (d : Dinode) :
    (winode inum d).run m =
      .ok ((), { m with img := imageOf (stageBlock (Function.update din inum d) root) }) := by
  unfold winode
  rw [StateExcept.run_bind_of_run (rsect_imageOf hm (iblock_lt h)), wsect_imageOf _ hm (iblock_lt h),
    update_stageBlock_inode din root h]

theorem rinode_run {m : MkfsState} {din : Nat → Dinode} {root : List UInt8} {inum : Nat}
    (hm : m.img = imageOf (stageBlock din root)) (h : inum < NINODES) (hfits : (din inum).Fits) :
    (rinode inum).run m = .ok (din inum, m) := by
  have hin := iblock_inode h
  unfold rinode
  rw [StateExcept.run_bind_of_run (rsect_imageOf hm (iblock_lt h))]
  simp only [stageBlock, if_neg hin.1, if_pos hin.2, iblock_sub_inodestart,
    getDinode_inodeBlock hfits]
  rfl

theorem ialloc_run {m : MkfsState} {din : Nat → Dinode} {root : List UInt8} (type : Int)
    (hm : m.img = imageOf (stageBlock din root)) (h : m.freeinode < NINODES) :
    (ialloc type).run m = .ok (m.freeinode, { m with
      freeinode := m.freeinode + 1,
      img := imageOf (stageBlock (Function.update din m.freeinode
        { Dinode.zero with type, nlink := 1, size := 0 }) root) }) := by
  have hnext : (modifyGet fun m : MkfsState => (m.freeinode, { m with freeinode := m.freeinode + 1 }) :
      MkfsM Nat).run m = .ok (m.freeinode, { m with freeinode := m.freeinode + 1 }) := rfl
  unfold ialloc
  rw [StateExcept.run_bind_of_run hnext,
    StateExcept.run_bind_of_run (winode_run (m := { m with freeinode := m.freeinode + 1 }) hm h _)]
  rfl

theorem nextFreeblock_run (m : MkfsState) :
    nextFreeblock.run m = .ok (m.freeblock, { m with freeblock := m.freeblock + 1 }) := rfl

/-! ## The root directory -/

/-- The root's dinode while its entries take `n` bytes: a directory with one
link whose blocks are allocated in order from `nmeta`. -/
def rootDin (n : Nat) : Dinode where
  type := T_DIR
  major := 0
  minor := 0
  nlink := 1
  size := n
  addrs := (List.range (NDIRECT + 1)).map fun j =>
    if j < (n + BSIZE - 1) / BSIZE then nmeta + j else 0

theorem rootDin_fits {n : Nat} (h : n < 2 ^ 32) : (rootDin n).Fits := by
  simp only [Dinode.Fits, rootDin]
  refine ⟨by decide, by decide, by decide, by decide, h, by simp, ?_⟩
  intro a ha
  simp only [List.mem_map, List.mem_range] at ha
  obtain ⟨j, hj, rfl⟩ := ha
  rw [nmeta_eq]
  simp only [NDIRECT] at hj
  split <;> omega

/-- While the root's entries fit in one block, its addresses are those of
a full block. -/
theorem rootDin_addrs {n : Nat} (h0 : 0 < n) (h : n ≤ BSIZE) :
    (rootDin n).addrs = (rootDin BSIZE).addrs := by
  have hone : (n + BSIZE - 1) / BSIZE = 1 := by
    simp only [BSIZE] at h ⊢; omega
  have hfull : (BSIZE + BSIZE - 1) / BSIZE = 1 := by decide
  simp only [rootDin, hone, hfull]

/-- The root block's write, on the blocks as a function: bytes written right
after the entries extend them. -/
theorem update_stageBlock_root (din : Nat → Dinode) (root p : List UInt8) :
    Function.update (stageBlock din root) nmeta
        (setBytes (stageBlock din root nmeta) root.length p) =
      stageBlock din (root ++ p) := by
  have hmeta : ¬ nmeta = 1 ∧
      ¬ (mkfsSuperblock.inodestart ≤ nmeta ∧ nmeta < mkfsSuperblock.bmapstart) := by
    rw [nmeta_eq, inodestart_eq, bmapstart_eq]; omega
  funext b
  by_cases hb : b = nmeta
  · subst hb
    have happ := setBytes_setBytes_append zeroBlock 0 root p
    rw [Nat.zero_add] at happ
    rw [Function.update_self]
    simp only [stageBlock, if_neg hmeta.1, if_neg hmeta.2, if_true, happ]
  · rw [Function.update_of_ne hb]
    simp only [stageBlock, if_neg hb]

theorem appendBlock_root_run {m : MkfsState} {n : Nat} (hn : n < BSIZE)
    (hfree : m.freeblock = nmeta + (n + BSIZE - 1) / BSIZE) :
    (appendBlock (rootDin n) 0).run m =
      .ok (({ rootDin n with addrs := (rootDin BSIZE).addrs }, nmeta),
        { m with freeblock := nmeta + 1 }) := by
  unfold appendBlock
  simp only [if_pos (show 0 < NDIRECT by decide)]
  rcases Nat.eq_zero_or_pos n with rfl | h0
  · -- the first append allocates block `nmeta`
    have hfb : m.freeblock = nmeta := by rw [hfree]; decide
    have hset : (rootDin 0).addrs.set 0 nmeta = (rootDin BSIZE).addrs := by decide
    rw [if_pos (by decide), StateExcept.run_bind_of_run (nextFreeblock_run m), hfb, hset]
    rfl
  · -- a later one finds it
    have hget : (rootDin n).addrs.getD 0 0 = nmeta := by rw [rootDin_addrs h0 (Nat.le_of_lt hn)]; decide
    have hfb : m.freeblock = nmeta + 1 := by
      rw [hfree, show (n + BSIZE - 1) / BSIZE = 1 by simp only [BSIZE] at hn ⊢; omega]
    rw [if_neg (by rw [hget, nmeta_eq]; decide), ← rootDin_addrs h0 (Nat.le_of_lt hn), ← hfb]
    simp only [pure_bind, StateT.run_pure, hget]
    rfl

/-- The loop of `iappend` once nothing is left to copy. -/
theorem iappendLoop_nil (fuel : Nat) (din : Dinode) (off : Nat) (m : MkfsState) :
    (iappendLoop fuel din off []).run m = .ok ((din, off), m) := by
  cases fuel <;> rfl

/-- `iappend`'s loop on the root while its entries fit in block `nmeta`: one
turn copies all of `p` after the `root.length` bytes there. -/
theorem iappendLoop_root_run {m : MkfsState} {din : Nat → Dinode} {root p : List UInt8}
    (fuel : Nat) (hm : m.img = imageOf (stageBlock din root))
    (hfree : m.freeblock = nmeta + (root.length + BSIZE - 1) / BSIZE)
    (hp : 0 < p.length) (hfit : root.length + p.length ≤ BSIZE) :
    (iappendLoop (fuel + 1) (rootDin root.length) root.length p).run m =
      .ok (({ rootDin root.length with addrs := (rootDin BSIZE).addrs },
          root.length + p.length),
        { m with img := imageOf (stageBlock din (root ++ p)), freeblock := nmeta + 1 }) := by
  have hn : root.length < BSIZE := by omega
  have hfbn : root.length / BSIZE = 0 := Nat.div_eq_of_lt hn
  have hn1 : min p.length ((0 + 1) * BSIZE - root.length) = p.length := by omega
  have hm' : ({ m with freeblock := nmeta + 1 } : MkfsState).img = imageOf (stageBlock din root) := hm
  unfold iappendLoop
  simp only [if_neg (Nat.pos_iff_ne_zero.mp hp), hfbn, if_neg (show ¬ 0 ≥ MAXFILE by decide)]
  rw [StateExcept.run_bind_of_run (appendBlock_root_run hn hfree)]
  simp only [hn1]
  have hmeta : nmeta < FSSIZE := by rw [nmeta_eq]; decide
  rw [StateExcept.run_bind_of_run (rsect_imageOf hm' hmeta), Nat.zero_mul, Nat.sub_zero,
    List.take_length, List.drop_length,
    StateExcept.run_bind_of_run (wsect_imageOf _ hm' hmeta), update_stageBlock_root,
    iappendLoop_nil]

/-- What `iappend` writes back to the root after a turn in block `nmeta`. -/
theorem rootDin_resize {n n' : Nat} (h0 : 0 < n') (h : n' ≤ BSIZE) :
    { rootDin n with addrs := (rootDin BSIZE).addrs, size := n' } = rootDin n' := by
  rw [← rootDin_addrs h0 h]
  rfl

/-- `iappend` to the root while its entries fit in block `nmeta`. -/
theorem iappend_root_run {m : MkfsState} {din : Nat → Dinode} {root p : List UInt8}
    (hm : m.img = imageOf (stageBlock din root)) (hdin : din ROOTINO = rootDin root.length)
    (hfree : m.freeblock = nmeta + (root.length + BSIZE - 1) / BSIZE)
    (hp : 0 < p.length) (hfit : root.length + p.length ≤ BSIZE) :
    (iappend ROOTINO p).run m = .ok ((), { m with
      img := imageOf (stageBlock (Function.update din ROOTINO (rootDin (root ++ p).length))
        (root ++ p)),
      freeblock := nmeta + 1 }) := by
  have hroot : ROOTINO < NINODES := by decide
  have hfits : (din ROOTINO).Fits := by
    rw [hdin]; exact rootDin_fits (by simp only [BSIZE] at hfit; omega)
  obtain ⟨fuel, hfuel⟩ : ∃ fuel, p.length = fuel + 1 := ⟨p.length - 1, by omega⟩
  have hloop := iappendLoop_root_run fuel hm hfree hp hfit
  rw [← hfuel] at hloop
  unfold iappend
  rw [StateExcept.run_bind_of_run (rinode_run hm hroot hfits), hdin,
    show (rootDin root.length).size = root.length from rfl, StateExcept.run_bind_of_run hloop]
  dsimp only
  have hw := @winode_run { m with img := imageOf (stageBlock din (root ++ p)), freeblock := nmeta + 1 }
    din (root ++ p) ROOTINO (by with_reducible rfl) hroot
  rw [hw, List.length_append, rootDin_resize (by omega) hfit]

/-! ## The files, one by one -/

theorem rootBytes_append (names : List (List UInt8)) (name : List UInt8) :
    rootBytes (names ++ [name]) =
      rootBytes names ++ ({ inum := names.length + 2, name := Fs.strncpy name DIRSIZ } : Dirent).bytes := by
  simp [rootBytes, rootDirents, List.zipIdx_append]

theorem length_rootBytes (names : List (List UInt8)) :
    (rootBytes names).length = DIRENTSIZE * (names.length + 2) := by
  induction names using List.reverseRecOn with
  | nil =>
    simp only [rootBytes, rootDirents, List.zipIdx_nil, List.map_nil, List.flatMap_cons,
      List.flatMap_nil, List.append_nil, List.length_append, length_Dirent_bytes]
    rfl
  | append_singleton names name ih =>
    rw [rootBytes_append, List.length_append, ih, length_Dirent_bytes, List.length_append,
      List.length_singleton]
    rw [show DIRENTSIZE = 16 from rfl]
    omega

/-- The dinodes once the root holds the entries of `names`: the root's size
is still the length of its entries. -/
def stageDinode (names : List (List UInt8)) (inum : Nat) : Dinode :=
  if inum = ROOTINO then rootDin (rootBytes names).length else emptyDinode names inum

/-- The state of `populate` on empty files once the root holds the entries
of `names`. -/
def stageState (names : List (List UInt8)) : MkfsState where
  img := imageOf (stageBlock (stageDinode names) (rootBytes names))
  freeinode := names.length + 2
  freeblock := nmeta + 1

theorem stageState_img (names : List (List UInt8)) :
    (stageState names).img = imageOf (stageBlock (stageDinode names) (rootBytes names)) := by
  unfold stageState
  with_reducible rfl

theorem stageState_freeinode (names : List (List UInt8)) :
    (stageState names).freeinode = names.length + 2 := rfl

theorem stageState_freeblock (names : List (List UInt8)) :
    (stageState names).freeblock = nmeta + 1 := rfl

theorem appendChunks_nil (inum fuel : Nat) (m : MkfsState) :
    (appendChunks inum fuel []).run m = .ok ((), m) := by
  cases fuel <;> rfl

/-- The dinode `ialloc` gives a file. -/
abbrev fileDin : Dinode := { Dinode.zero with type := T_FILE, nlink := 1, size := 0 }

/-- One more file: its dinode, then the root's grown size. -/
theorem stageDinode_append (names : List (List UInt8)) (name : List UInt8) :
    Function.update (Function.update (stageDinode names) (names.length + 2) fileDin) ROOTINO
        (rootDin (rootBytes (names ++ [name])).length) =
      stageDinode (names ++ [name]) := by
  funext inum
  by_cases h1 : inum = ROOTINO
  · subst h1
    rw [Function.update_self, stageDinode, if_pos rfl]
  · rw [Function.update_of_ne h1, stageDinode, if_neg h1, emptyDinode, if_neg h1,
      List.length_append, List.length_singleton]
    by_cases hn : inum = names.length + 2
    · subst hn
      rw [Function.update_self, if_pos ⟨by omega, by omega⟩]
      rfl
    · rw [Function.update_of_ne hn, stageDinode, if_neg h1, emptyDinode, if_neg h1]
      by_cases hr : 2 ≤ inum ∧ inum < names.length + 2
      · rw [if_pos hr, if_pos ⟨hr.1, by omega⟩]
      · rw [if_neg hr, if_neg (by omega)]

/-- `main`'s turn for an empty file whose name is its own short name. -/
theorem addFile_run {names : List (List UInt8)} {argv : List UInt8}
    (hname : shortname argv = some argv) (hlen : names.length + 1 ≤ 62) :
    (addFile ROOTINO (argv, [])).run (stageState names) = .ok ((), stageState (names ++ [argv])) := by
  have hinum : names.length + 2 < NINODES := by simp only [NINODES]; omega
  have hroot : Function.update (stageDinode names) (names.length + 2) fileDin ROOTINO =
      rootDin (rootBytes names).length := by
    rw [Function.update_of_ne (by rw [show ROOTINO = 1 from rfl]; omega), stageDinode, if_pos rfl]
  have hlenR := length_rootBytes names
  have hfree : nmeta + 1 = nmeta + ((rootBytes names).length + BSIZE - 1) / BSIZE := by
    rw [hlenR, show DIRENTSIZE = 16 from rfl, show BSIZE = 1024 from rfl]; omega
  have hfit : (rootBytes names).length +
      ({ inum := names.length + 2, name := Fs.strncpy argv DIRSIZ } : Dirent).bytes.length ≤ BSIZE := by
    rw [hlenR, length_Dirent_bytes, show DIRENTSIZE = 16 from rfl, show BSIZE = 1024 from rfl]; omega
  unfold addFile
  rw [hname]
  dsimp only
  rw [StateExcept.run_bind_of_run (ialloc_run T_FILE (stageState_img names) hinum),
    stageState_freeinode, stageState_freeblock, StateExcept.run_bind_of_run
      (iappend_root_run (by with_reducible rfl) hroot hfree (by rw [length_Dirent_bytes]; decide) hfit),
    ← rootBytes_append, stageDinode_append, appendChunks_nil, stageState, List.length_append,
    List.length_singleton]

/-- The empty files whose names are their own short names (no `user/`, no
leading `_`, no `/`). -/
def PlainEmpty (files : List (List UInt8 × List UInt8)) : Prop :=
  ∀ f ∈ files, shortname f.1 = some f.1 ∧ f.2 = []

instance : DecidablePred PlainEmpty := fun _ => by unfold PlainEmpty; infer_instance

/-- `main`'s loop over such files: each adds its inode and its entry. -/
theorem forM_addFile_run : ∀ (files : List (List UInt8 × List UInt8)) (names : List (List UInt8)),
    PlainEmpty files → names.length + files.length ≤ 62 →
    (files.forM (addFile ROOTINO)).run (stageState names) =
      .ok ((), stageState (names ++ files.map Prod.fst))
  | [], names, _, _ => by
    rw [List.map_nil, List.append_nil]
    rfl
  | (argv, bytes) :: files, names, hfiles, hlen => by
    obtain ⟨hname, hbytes⟩ := hfiles (argv, bytes) List.mem_cons_self
    have hrest : PlainEmpty files := fun f hf => hfiles f (List.mem_cons_of_mem _ hf)
    rw [List.length_cons] at hlen
    dsimp only at hname hbytes
    subst hbytes
    rw [List.forM_eq_forM, List.forM_cons, StateExcept.run_bind_of_run (addFile_run hname (by omega)),
      ← List.forM_eq_forM,
      forM_addFile_run files (names ++ [argv]) hrest
        (by rw [List.length_append, List.length_singleton]; omega),
      List.map_cons, List.append_assoc, List.singleton_append]

/-! ## The whole run -/

/-- An inode block of zero dinodes is a zero block. -/
theorem inodeBlock_zero {din : Nat → Dinode} {q : Nat}
    (h : ∀ r < IPB, din (IPB * q + r) = Dinode.zero) : inodeBlock din q = zeroBlock := by
  have hz : (List.range IPB).flatMap (fun _ => Dinode.zero.bytes) = zeroBlock := by
    have h64 : Dinode.zero.bytes = List.replicate 64 0 := by decide
    rw [List.flatMap_def, List.map_const', h64, List.length_range,
      List.flatten_replicate_replicate]
    rfl
  rw [← hz, inodeBlock]
  apply List.flatMap_congr
  intro r hr
  rw [h r (List.mem_range.mp hr)]

theorem zeroedImage_eq : zeroedImage = imageOf (stageBlock (fun _ => Dinode.zero) []) := by
  apply List.ext_getElem (by simp [zeroedImage, imageOf])
  intro b h1 _
  simp only [zeroedImage, imageOf, List.getElem_set, List.getElem_replicate, List.getElem_map,
    List.getElem_range, stageBlock]
  by_cases hb : b = 1
  · subst hb; simp
  · rw [if_neg (Ne.symm hb), if_neg hb]
    split_ifs
    · exact (inodeBlock_zero fun _ _ => rfl).symm
    · exact (setBytes_nil zeroBlock).symm
    · rfl

/-- The root's dinode as `ialloc` writes it. -/
theorem rootDin_zero : { Dinode.zero with type := T_DIR, nlink := 1, size := 0 } = rootDin 0 := by
  decide

/-- The entries `.` and `..`. -/
abbrev dotEntry : Dirent := { inum := ROOTINO, name := Fs.strncpy Fs.dot DIRSIZ }

abbrev dotdotEntry : Dirent := { inum := ROOTINO, name := Fs.strncpy Fs.dotdot DIRSIZ }

theorem stageState_nil : stageState [] =
    { img := imageOf (stageBlock (Function.update (fun _ => Dinode.zero) ROOTINO
        (rootDin (dotEntry.bytes ++ dotdotEntry.bytes).length)) (dotEntry.bytes ++ dotdotEntry.bytes)),
      freeinode := ROOTINO + 1, freeblock := nmeta + 1 } := by
  have hroot : rootBytes [] = dotEntry.bytes ++ dotdotEntry.bytes := by
    simp [rootBytes, rootDirents]
  have hdin : stageDinode [] =
      Function.update (fun _ => Dinode.zero) ROOTINO (rootDin (rootBytes []).length) := by
    funext inum
    by_cases h : inum = ROOTINO
    · subst h
      rw [Function.update_self, stageDinode, if_pos rfl]
    · rw [Function.update_of_ne h, stageDinode, if_neg h, emptyDinode, if_neg h,
        if_neg (by rw [List.length_nil]; omega)]
  unfold stageState
  rw [hdin, hroot]
  rfl

/-- After `ialloc` of the root: `.` and `..` are its first entries. -/
theorem rootEntries_run :
    (do iappend ROOTINO dotEntry.bytes; iappend ROOTINO dotdotEntry.bytes : MkfsM Unit).run
      { img := imageOf (stageBlock (Function.update (fun _ => Dinode.zero) ROOTINO (rootDin 0)) []),
        freeinode := ROOTINO + 1, freeblock := nmeta } = .ok ((), stageState []) := by
  have hlen : ∀ de : Dirent, de.bytes.length = 16 := length_Dirent_bytes
  rw [StateExcept.run_bind_of_run (@iappend_root_run _ (Function.update (fun _ => Dinode.zero)
      ROOTINO (rootDin 0)) [] _ (by with_reducible rfl) (by rw [Function.update_self]; rfl)
      (by decide) (by rw [hlen]; decide) (by rw [hlen]; decide))]
  simp only [List.nil_append, Function.update_idem]
  rw [iappend_root_run (by with_reducible rfl) (by rw [Function.update_self]) (by rw [hlen]; decide)
    (by rw [hlen]; decide) (by rw [hlen, hlen]; decide), Function.update_idem, stageState_nil]

/-- "fix size of root inode dir": the root gets its final size. -/
theorem stageDinode_final (names : List (List UInt8)) :
    Function.update (stageDinode names) ROOTINO
        { stageDinode names ROOTINO with size := rootSize (stageDinode names ROOTINO).size } =
      emptyDinode names := by
  funext inum
  by_cases h : inum = ROOTINO
  · subst h
    rw [Function.update_self]
    simp only [stageDinode, emptyDinode]
    rfl
  · rw [Function.update_of_ne h, stageDinode, if_neg h]

theorem balloc_run {m : MkfsState} {f : Nat → Block} {used : Nat} (hm : m.img = imageOf f)
    (h : used < BSIZE * 8) :
    (balloc used).run m = .ok ((), { m with img := imageOf (Function.update f
      mkfsSuperblock.bmapstart ((List.range used).foldl setBit zeroBlock)) }) := by
  unfold balloc
  rw [if_neg (Nat.not_le_of_lt h)]
  exact wsect_imageOf _ hm (by decide)

/-- `populate` on empty files whose names are their own short names. -/
theorem populate_run {files : List (List UInt8 × List UInt8)} (hfiles : PlainEmpty files)
    (hlen : files.length ≤ 62) :
    (populate files).run { start with img := zeroedImage } = .ok ((), {
      img := imageOf (Function.update (stageBlock (emptyDinode (files.map Prod.fst))
        (rootBytes (files.map Prod.fst))) mkfsSuperblock.bmapstart
          ((List.range (nmeta + 1)).foldl setBit zeroBlock)),
      freeinode := (files.map Prod.fst).length + 2,
      freeblock := nmeta + 1 }) := by
  have hstart : ({ start with img := zeroedImage } : MkfsState) =
      { img := imageOf (stageBlock (fun _ => Dinode.zero) []), freeinode := ROOTINO,
        freeblock := nmeta } := by
    rw [zeroedImage_eq]; rfl
  have hsize : (rootBytes (files.map Prod.fst)).length < 2 ^ 32 := by
    rw [length_rootBytes, List.length_map, show DIRENTSIZE = 16 from rfl]; omega
  rw [hstart]
  unfold populate
  rw [StateExcept.run_bind_of_run (ialloc_run T_DIR (by with_reducible rfl) (by decide))]
  simp only
  rw [if_neg (by decide), rootDin_zero, ← bind_assoc, StateExcept.run_bind_of_run rootEntries_run,
    StateExcept.run_bind_of_run (forM_addFile_run files [] hfiles (by rw [List.length_nil]; omega)),
    List.nil_append, StateExcept.run_bind_of_run (rinode_run (stageState_img _) (by decide)
      (by rw [stageDinode, if_pos rfl]; exact rootDin_fits hsize)),
    StateExcept.run_bind_of_run (winode_run (stageState_img _) (by decide) _), stageDinode_final,
    stageState_freeinode, stageState_freeblock, StateExcept.run_bind_of_run rfl,
    balloc_run (by with_reducible rfl) (show nmeta + 1 < BSIZE * 8 by decide)]

theorem imageOf_congr {f g : Nat → Block} (h : ∀ b < FSSIZE, f b = g b) :
    imageOf f = imageOf g := by
  unfold imageOf
  apply List.map_congr_left
  intro b hb
  exact h b (List.mem_range.mp hb)

theorem emptyDinode_of_le {names : List (List UInt8)} {inum : Nat} (h1 : inum ≠ ROOTINO)
    (h : names.length + 2 ≤ inum) : emptyDinode names inum = Dinode.zero := by
  rw [emptyDinode, if_neg h1, if_neg (by omega)]

/-- The image `populate` leaves is the closed form, block by block. -/
theorem emptyImage_eq {names : List (List UInt8)} (hlen : names.length ≤ 62) :
    imageOf (Function.update (stageBlock (emptyDinode names) (rootBytes names))
      mkfsSuperblock.bmapstart ((List.range (nmeta + 1)).foldl setBit zeroBlock)) =
      emptyImage names := by
  have hR := length_rootBytes names
  rw [show DIRENTSIZE = 16 from rfl] at hR
  have hblocks : rootBlocks names = 1 := by
    rw [rootBlocks, hR, show BSIZE = 1024 from rfl]; omega
  have hfit : (rootBytes names).length ≤ BSIZE := by rw [hR, show BSIZE = 1024 from rfl]; omega
  rw [show emptyImage names = imageOf _ from rfl]
  apply imageOf_congr
  intro b _
  rw [hblocks]
  by_cases h45 : b = mkfsSuperblock.bmapstart
  · subst h45
    rw [Function.update_self, if_neg (by decide),
      if_neg (by rw [inodestart_eq, bmapstart_eq, ipb_eq]; omega), if_pos rfl]
  · rw [Function.update_of_ne h45]
    rw [bmapstart_eq] at h45
    unfold stageBlock
    by_cases h1 : b = 1
    · rw [if_pos h1, if_pos h1]
    · rw [if_neg h1, if_neg h1]
      simp only [inodestart_eq, bmapstart_eq, nmeta_eq, ipb_eq]
      by_cases hin : 32 ≤ b ∧ b < 45
      · rw [if_pos hin]
        by_cases hused : b ≤ 32 + (names.length + 1) / 16
        · rw [if_pos ⟨hin.1, hused⟩]
          rfl
        · -- an inode block past the last file's inode: all its dinodes are zero
          rw [if_neg (fun h => hused h.2), if_neg h45, if_neg (by omega)]
          apply inodeBlock_zero
          intro r _
          apply emptyDinode_of_le
          · rw [show ROOTINO = 1 from rfl, ipb_eq]; omega
          · rw [ipb_eq]; omega
      · rw [if_neg hin,
          if_neg (show ¬ (32 ≤ b ∧ b ≤ 32 + (names.length + 1) / 16) by omega), if_neg h45]
        by_cases h46 : b = 46
        · subst h46
          rw [if_pos rfl, if_pos ⟨Nat.le_refl _, by omega⟩, Nat.sub_self, Nat.zero_mul, List.drop_zero,
            List.take_of_length_le hfit]
        · rw [if_neg h46, if_neg (show ¬ (46 ≤ b ∧ b < 46 + 1) by omega)]

end Mkfs

/-- `mkfs` on at most 62 empty files whose names are their own short names
writes the closed form. -/
theorem mkfsImage_plainEmpty {files : List (List UInt8 × List UInt8)}
    (hfiles : Mkfs.PlainEmpty files) (hlen : files.length ≤ 62) :
    mkfsImage files = .ok (Mkfs.emptyImage (files.map Prod.fst)) := by
  rw [mkfsImage_eq, Mkfs.populate_run hfiles hlen]
  simp only [Except.map]
  rw [Mkfs.emptyImage_eq (by rw [List.length_map]; exact hlen)]

/-! ## Ownership in the image

In a state whose inode blocks hold the image's dinodes, the only block an
allocated inode refers to is the root's directory block. -/

namespace Mkfs

theorem rootBlocks_eq_one {names : List (List UInt8)} (hlen : names.length ≤ 62) :
    rootBlocks names = 1 := by
  rw [rootBlocks, length_rootBytes, show DIRENTSIZE = 16 from rfl, show BSIZE = 1024 from rfl]
  omega

theorem emptyDinode_fits {names : List (List UInt8)} (hlen : names.length ≤ 62) (inum : Nat) :
    (emptyDinode names inum).Fits := by
  unfold emptyDinode
  split_ifs
  · have hR := length_rootBytes names
    simp only [Dinode.Fits]
    refine ⟨by decide, by decide, by decide, by decide, ?_, by simp, ?_⟩
    · rw [rootSize, hR, show DIRENTSIZE = 16 from rfl, show BSIZE = 1024 from rfl]; omega
    · intro a ha
      simp only [List.mem_map, List.mem_range] at ha
      obtain ⟨j, hj, rfl⟩ := ha
      rw [nmeta_eq]
      simp only [NDIRECT] at hj
      split <;> omega
  · decide
  · decide

theorem inodeBlocks_emptyDinode (st : FsState) {names : List (List UInt8)}
    (hlen : names.length ≤ 62) (inum : Nat) :
    Fs.inodeBlocks st (emptyDinode names inum) = if inum = ROOTINO then [nmeta] else [] := by
  unfold emptyDinode
  split_ifs
  · have hind : ((List.range (NDIRECT + 1)).map fun j =>
        if j < 1 then nmeta + j else 0).getD NDIRECT 0 = 0 := by decide
    rw [rootBlocks_eq_one hlen]
    unfold Fs.inodeBlocks
    dsimp only
    rw [hind, if_pos rfl]
    decide
  · rfl
  · rfl

/-- The image's inode blocks hold the dinodes of the files. -/
theorem imageDisk_emptyImage_inode {names : List (List UInt8)} {q : Nat} (hq : q < ninodeblocks) :
    imageDisk (emptyImage names) (mkfsSuperblock.inodestart + q) =
      inodeBlock (emptyDinode names) q := by
  have h13 : q < 13 := hq
  have hb : mkfsSuperblock.inodestart + q < FSSIZE := by
    rw [inodestart_eq, show FSSIZE = 1000 from rfl]; omega
  rw [imageDisk, emptyImage, List.getD_eq_getElem?_getD, List.getElem?_map, List.getElem?_range hb,
    Option.map_some, Option.getD_some, if_neg (by rw [inodestart_eq]; omega)]
  by_cases hused : q ≤ (names.length + 1) / IPB
  · rw [if_pos ⟨Nat.le_add_right _ _, Nat.add_le_add_left hused _⟩, Nat.add_sub_cancel_left]
    rfl
  · -- an inode block past the last file's inode: all its dinodes are zero
    rw [if_neg (fun h => hused (Nat.le_of_add_le_add_left h.2)),
      if_neg (by rw [inodestart_eq, bmapstart_eq]; omega),
      if_neg (by rw [inodestart_eq, nmeta_eq]; omega)]
    refine (inodeBlock_zero fun r hr => emptyDinode_of_le ?_ ?_).symm
    · rw [show ROOTINO = 1 from rfl]; rw [ipb_eq] at hr hused ⊢; omega
    · rw [ipb_eq] at hused hr ⊢; omega

/-- In a state whose inode blocks are those of the image of empty files, the
only block an allocated inode refers to is the root's one block, `nmeta`. -/
theorem blockRefs_emptyImage {st : FsState} {names : List (List UInt8)}
    (hlen : names.length ≤ 62) (hsb : st.sb = mkfsSuperblock)
    (hblocks : ∀ q < ninodeblocks,
      st.blocks (mkfsSuperblock.inodestart + q) = inodeBlock (emptyDinode names) q)
    (b : Nat) : Fs.blockRefs st b = if b = nmeta then 1 else 0 := by
  have hdin : ∀ inum < NINODES, Fs.dinodeAt st inum = emptyDinode names inum := by
    intro inum h
    have hq : inum / IPB < ninodeblocks := by
      rw [ipb_eq, show ninodeblocks = 13 from rfl]; simp only [NINODES] at h; omega
    have hib : IBLOCK inum mkfsSuperblock = mkfsSuperblock.inodestart + inum / IPB := by
      rw [iblock_eq, inodestart_eq, ipb_eq, Nat.add_comm]
    rw [Fs.dinodeAt, hsb, hib, hblocks _ hq, getDinode_inodeBlock (emptyDinode_fits hlen inum)]
  have hroot : ROOTINO ∈ List.range NINODES := List.mem_range.mpr (by decide)
  unfold Fs.blockRefs
  rw [hsb, show mkfsSuperblock.ninodes = NINODES from rfl, List.sum_map_eq_nsmul_single ROOTINO]
  · -- the root's one block
    rw [List.nodup_range.count, if_pos hroot, one_nsmul, hdin _ (List.mem_range.mp hroot),
      inodeBlocks_emptyDinode st hlen, if_pos rfl, emptyDinode, if_pos rfl,
      if_pos (show T_DIR ≠ 0 by decide), List.count_singleton]
    by_cases hb : b = nmeta
    · rw [if_pos (beq_iff_eq.mpr hb.symm), if_pos hb]
    · rw [if_neg (fun h => hb (beq_iff_eq.mp h).symm), if_neg hb]
  · -- no other inode refers to a block
    intro inum hne hmem
    rw [hdin _ (List.mem_range.mp hmem), inodeBlocks_emptyDinode st hlen, if_neg hne,
      List.count_nil, ite_self]

end Mkfs

end Xv6
