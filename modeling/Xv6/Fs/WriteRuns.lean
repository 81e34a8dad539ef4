import Xv6.Fs.ReadWrite

/-!
# Exact runs of the write path, and a write past the budget

With room in the log and a transaction open, `putBlock`, `log_write`,
`bzero`, `balloc`, `bmap`, a turn of `writei`'s loop and `iupdate` each have
one exact run (`logWrite_run_room`, `balloc_run_first`, `bmap_run_entry`,
`writeiLoop_run_turn`, ...): the state after `putBlock b d` is `s.store b d`,
after a `log_write` of `b` it is `s.logb b`. Chained, they compute a whole
`writei`.

That is how the bound of `writei_log_budget` is seen to be the right one: on a
disk of five bitmap blocks with one free block in each, a chunk of
`((MAXOPBLOCKS-1-1-2) / 2) * BSIZE` bytes written into a file that is all
hole allocates its indirect block and four blocks, each from another bitmap
block, and logs eleven blocks (`hole_write_exceeds_budget`).
-/

namespace Xv6

/-- The state after `putBlock b d`. -/
def FsState.store (s : FsState) (b : Nat) (d : Block) : FsState :=
  { s with blocks := fun x => if x = b then d else s.blocks x }

/-- The state after a `log_write` of `b` that returns: `b` listed once. -/
def FsState.logb (s : FsState) (b : Nat) : FsState :=
  { s with lh := if b ∈ s.lh then s.lh else s.lh ++ [b] }

@[simp] theorem FsState.store_blocks {s : FsState} {b x : Nat} {d : Block} :
    (s.store b d).blocks x = if x = b then d else s.blocks x := rfl

@[simp] theorem FsState.store_sb {s : FsState} {b : Nat} {d : Block} : (s.store b d).sb = s.sb := rfl

@[simp] theorem FsState.logb_blocks {s : FsState} {b : Nat} : (s.logb b).blocks = s.blocks := rfl

@[simp] theorem FsState.logb_sb {s : FsState} {b : Nat} : (s.logb b).sb = s.sb := rfl

namespace Fs
open StateExcept LEBytes

/-- Room in the log for `k` more blocks, inside a transaction. -/
def Room (k : Nat) (s : FsState) : Prop :=
  s.lh.length + k < s.logsize ∧ s.lh.length + k ≤ LOGSIZE ∧ 1 ≤ s.outstanding

instance (k : Nat) (s : FsState) : Decidable (Room k s) := inferInstanceAs (Decidable (_ ∧ _ ∧ _))

section Runs

variable {i : Nat} {s s₁ s₂ : FsState}

theorem putBlock_run (b : Nat) (d : Block) (s : FsState) :
    (putBlock b d).run s = .ok ((), s.store b d) := rfl

theorem logWrite_run_room {b : Nat} (h : Room 1 s) : (logWrite b).run s = .ok ((), s.logb b) := by
  obtain ⟨hlog, hsize, hout⟩ := h
  rw [logWrite_run, if_neg (by omega), if_neg (by omega)]
  unfold FsState.logb
  split <;> rfl

theorem Room.logb {k b : Nat} (h : Room (k + 1) s) : Room k (s.logb b) := by
  obtain ⟨hlog, hsize, hout⟩ := h
  have hlen : (s.logb b).lh.length ≤ s.lh.length + 1 := by
    unfold FsState.logb
    dsimp only
    split
    · omega
    · exact Nat.le_of_eq (List.length_append ..)
  exact ⟨show (s.logb b).lh.length + k < s.logsize by omega, by omega, hout⟩

theorem Room.store {k b : Nat} {d : Block} (h : Room k s) : Room k (s.store b d) := h

theorem Room.le {k k' : Nat} (h : Room k s) (hk : k' ≤ k) : Room k' s :=
  ⟨by have := h.1; omega, by have := h.2.1; omega, h.2.2⟩

theorem bzero_run {b : Nat} (h : Room 1 s) : (bzero b).run s = .ok ((), (s.store b zeroBlock).logb b) := by
  unfold bzero
  rw [run_bind_of_run (putBlock_run _ _ _)]
  exact logWrite_run_room h

theorem freeBit_none_of_set {d : Block} {b size : Nat} :
    ∀ {fuel bi : Nat}, (∀ j, bi ≤ j → j < bi + fuel → b + j < size → bitSet d j = true) →
      freeBit d b size fuel bi = none
  | 0, _, _ => rfl
  | fuel + 1, bi, h => by
    unfold freeBit
    split
    · rename_i hlt
      rw [if_pos (h bi (Nat.le_refl _) (by omega) hlt)]
      exact freeBit_none_of_set fun j hj hj' hjs => h j (by omega) (by omega) hjs
    · rfl

theorem freeBit_of_first {d : Block} {b size x : Nat} (hset : ∀ j < x, bitSet d j = true)
    (hx : bitSet d x = false) (hlt : b + x < size) :
    ∀ {fuel bi : Nat}, bi ≤ x → x < bi + fuel → freeBit d b size fuel bi = some x
  | 0, _, _, h => by omega
  | fuel + 1, bi, hbi, hf => by
    unfold freeBit
    rw [if_pos (by omega)]
    by_cases he : bi = x
    · subst he
      rw [hx]
      rfl
    · rw [if_pos (hset bi (by omega))]
      exact freeBit_of_first hset hx hlt (by omega) (by omega)

theorem ballocScan_run_skip {b : Nat} {bs : List Nat}
    (h : freeBit (s.blocks (BBLOCK b s.sb)) b s.sb.size BPB 0 = none) :
    (ballocScan (b :: bs)).run s = (ballocScan bs).run s := by
  rw [ballocScan_cons_run, h]

theorem ballocScan_run_found {b bi : Nat} {bs : List Nat}
    (h : freeBit (s.blocks (BBLOCK b s.sb)) b s.sb.size BPB 0 = some bi) (hroom : Room 2 s) :
    (ballocScan (b :: bs)).run s = .ok (b + bi,
      (((s.store (BBLOCK b s.sb) (setBit (s.blocks (BBLOCK b s.sb)) bi)).logb (BBLOCK b s.sb)).store
        (b + bi) zeroBlock).logb (b + bi)) := by
  rw [ballocScan_cons_run, h]
  dsimp only
  rw [run_bind_of_run (putBlock_run _ _ _), run_bind_of_run (logWrite_run_room (hroom.le (by omega)).store),
    run_bind_of_run (bzero_run hroom.store.logb)]
  rfl

theorem modifyInode_run (f : Inode → Inode) (s : FsState) :
    (modifyInode i f).run s = .ok ((), { s with inodes := s.inodes.modify i f }) := rfl

/-- `bmap` of a block past the direct ones, with no indirect block yet:
`balloc` hands out the indirect block `a`, then the block `r`, which is
recorded in `a`, and `a` is logged. -/
theorem bmap_run_new_ind {ip : Inode} {bn a r : Nat} (hin : s.inodes[i]? = some ip)
    (hbn : NDIRECT ≤ bn) (hbn' : bn - NDIRECT < NINDIRECT) (h0 : ip.addrs.getD NDIRECT 0 = 0)
    (ha : balloc.run s = .ok (a, s₁)) (hentry : getAddr (s₁.blocks a) (bn - NDIRECT) = 0)
    (hr : balloc.run { s₁ with inodes := s₁.inodes.modify i fun ip =>
      { ip with addrs := ip.addrs.set NDIRECT a } } = .ok (r, s₂)) (hroom : Room 1 s₂) :
    (bmap i bn).run s = .ok (r, (s₂.store a (setAddr (s₂.blocks a) (bn - NDIRECT) r)).logb a) := by
  unfold bmap
  rw [run_bind_of_run (getInode_run hin)]
  dsimp only
  rw [if_neg (by omega), if_pos hbn', if_pos (by simpa using h0), run_bind_of_run ha,
    run_bind_of_run (modifyInode_run _ _), pure_bind, run_bind_of_run (bread_run _ _),
    if_pos (by simpa using hentry), run_bind_of_run hr, run_bind_of_run (bread_run _ _),
    run_bind_of_run (putBlock_run _ _ _), run_bind_of_run (logWrite_run_room hroom.store)]
  rfl

/-- `bmap` of a hole past the direct ones, the indirect block there:
`balloc` hands out `r`, recorded in the indirect block, which is logged. -/
theorem bmap_run_entry {ip : Inode} {bn r : Nat} (hin : s.inodes[i]? = some ip)
    (hbn : NDIRECT ≤ bn) (hbn' : bn - NDIRECT < NINDIRECT) (hind : ip.addrs.getD NDIRECT 0 ≠ 0)
    (hentry : getAddr (s.blocks (ip.addrs.getD NDIRECT 0)) (bn - NDIRECT) = 0)
    (hr : balloc.run s = .ok (r, s₁)) (hroom : Room 1 s₁) :
    (bmap i bn).run s = .ok (r, (s₁.store (ip.addrs.getD NDIRECT 0)
      (setAddr (s₁.blocks (ip.addrs.getD NDIRECT 0)) (bn - NDIRECT) r)).logb (ip.addrs.getD NDIRECT 0)) := by
  unfold bmap
  rw [run_bind_of_run (getInode_run hin)]
  dsimp only
  rw [if_neg (by omega), if_pos hbn', if_neg (by simpa using hind), pure_bind,
    run_bind_of_run (bread_run _ _), if_pos (by simpa using hentry), run_bind_of_run hr,
    run_bind_of_run (bread_run _ _), run_bind_of_run (putBlock_run _ _ _),
    run_bind_of_run (logWrite_run_room hroom.store)]
  rfl

/-- A turn of the loop of `writei` whose copy succeeds. -/
theorem writeiLoop_run_turn {src : CopySrc} {fuel off tot n addr : Nat} {bytes : List UInt8}
    (hlt : tot < n) (hb : (bmap i (off / BSIZE)).run s = .ok (addr, s₁))
    (hsrc : src tot (min (n - tot) (BSIZE - off % BSIZE)) = .ok bytes) (hroom : Room 1 s₁) :
    (writeiLoop i src (fuel + 1) off tot n).run s =
      (writeiLoop i src fuel (off + min (n - tot) (BSIZE - off % BSIZE))
        (tot + min (n - tot) (BSIZE - off % BSIZE)) n).run
        ((s₁.store addr (setBytes (s₁.blocks addr) (off % BSIZE) bytes)).logb addr) := by
  rw [writeiLoop, if_pos hlt, run_bind_of_run hb, run_bind_of_run (bread_run _ _)]
  dsimp only
  rw [hsrc]
  dsimp only
  rw [run_bind_of_run (putBlock_run _ _ _), run_bind_of_run (logWrite_run_room hroom.store)]

theorem writeiLoop_run_done {src : CopySrc} {fuel off tot n : Nat} (hge : n ≤ tot) :
    (writeiLoop i src (fuel + 1) off tot n).run s = .ok (off, s) := by
  rw [writeiLoop, if_neg (by omega)]
  rfl

/-- `iupdate`, with room in the log. -/
theorem iupdate_run {ip : Inode} (hin : s.inodes[i]? = some ip) (hroom : Room 1 s) :
    (iupdate i).run s = .ok ((), (s.store (IBLOCK ip.inum s.sb)
      (setDinode (s.blocks (IBLOCK ip.inum s.sb)) (dinodeOff ip.inum) ip.dinode)).logb
        (IBLOCK ip.inum s.sb)) := by
  unfold iupdate
  rw [run_bind_of_run (getInode_run hin)]
  show (bread (IBLOCK ip.inum s.sb) >>= fun d => putBlock (IBLOCK ip.inum s.sb)
    (setDinode d (dinodeOff ip.inum) ip.dinode) >>= fun _ => logWrite (IBLOCK ip.inum s.sb)).run s = _
  rw [run_bind_of_run (bread_run _ _), run_bind_of_run (putBlock_run _ _ _),
    logWrite_run_room hroom.store]

/-- An accepted `writei` that writes past the end: the loop, the new size,
and the inode written back. -/
theorem writei_run_grow {src : CopySrc} {off n off' : Nat} {ip ip₁ : Inode}
    (hin : s.inodes[i]? = some ip) (hoff : off ≤ ip.size) (hwrap : off ≤ (off + n) % 2 ^ 32)
    (hend : off + n ≤ MAXFILE * BSIZE) (hn : 0 < n)
    (hloop : (writeiLoop i src n off 0 n).run s = .ok (off', s₁)) (hin₁ : s₁.inodes[i]? = some ip₁)
    (hgrow : ip₁.size < off')
    (hiup : (iupdate i).run { s₁ with inodes := s₁.inodes.modify i fun ip => { ip with size := off' } } =
      .ok ((), s₂)) :
    (writei i src off n).run s = .ok (n, s₂) := by
  unfold writei
  rw [run_bind_of_run (getInode_run hin)]
  dsimp only
  rw [if_neg (by simp only [Bool.or_eq_true, decide_eq_true_eq]; omega), if_neg (by omega),
    run_bind_of_run hloop, if_pos hn, run_bind_of_run (getInode_run hin₁), if_pos hgrow,
    run_bind_of_run (modifyInode_run _ _), run_bind_of_run hiup]
  rfl

/-- `balloc` hands out the first clear bit of the first bitmap block that has
one. -/
theorem ballocScan_run_first {pre bs : List Nat} {b bi : Nat}
    (hpre : ∀ x ∈ pre, freeBit (s.blocks (BBLOCK x s.sb)) x s.sb.size BPB 0 = none)
    (h : freeBit (s.blocks (BBLOCK b s.sb)) b s.sb.size BPB 0 = some bi) (hroom : Room 2 s) :
    (ballocScan (pre ++ b :: bs)).run s = .ok (b + bi,
      (((s.store (BBLOCK b s.sb) (setBit (s.blocks (BBLOCK b s.sb)) bi)).logb (BBLOCK b s.sb)).store
        (b + bi) zeroBlock).logb (b + bi)) := by
  induction pre with
  | nil => exact ballocScan_run_found h hroom
  | cons x pre ih =>
    rw [List.cons_append, ballocScan_run_skip (hpre x List.mem_cons_self)]
    exact ih fun y hy => hpre y (List.mem_cons_of_mem x hy)

theorem balloc_run_first {pre bs : List Nat} {b bi : Nat}
    (hstarts : bitmapStarts s.sb.size = pre ++ b :: bs)
    (hpre : ∀ x ∈ pre, freeBit (s.blocks (BBLOCK x s.sb)) x s.sb.size BPB 0 = none)
    (h : freeBit (s.blocks (BBLOCK b s.sb)) b s.sb.size BPB 0 = some bi) (hroom : Room 2 s) :
    balloc.run s = .ok (b + bi,
      (((s.store (BBLOCK b s.sb) (setBit (s.blocks (BBLOCK b s.sb)) bi)).logb (BBLOCK b s.sb)).store
        (b + bi) zeroBlock).logb (b + bi)) := by
  rw [balloc_run, hstarts]
  exact ballocScan_run_first hpre h hroom

/-! ## A write past the budget -/

/-- A bitmap block with every bit set. -/
def fullMap : Block := List.replicate BSIZE 255

/-- A bitmap block with every bit set but bit `8 * k`. -/
def oneFree (k : Nat) : Block := fullMap.set k 254

theorem bitSet_fullMap {j : Nat} (hj : j < BPB) : bitSet fullMap j = true := by
  have hk : j / 8 < BSIZE := by unfold BPB at hj; omega
  have h8 : ∀ r : Fin 8, (((255 : UInt8) &&& (1 <<< UInt8.ofNat r.val)) != 0) = true := by decide
  unfold bitSet fullMap
  rw [List.getD_eq_getElem?_getD, List.getElem?_replicate_of_lt hk, Option.getD_some]
  exact h8 ⟨j % 8, Nat.mod_lt _ (by decide)⟩

theorem bitSet_oneFree {k j : Nat} (hk : k < BSIZE) (hj : j < BPB) :
    bitSet (oneFree k) j = decide (j ≠ 8 * k) := by
  have hjk : j / 8 < BSIZE := by unfold BPB at hj; omega
  have h255 : ∀ r : Fin 8, (((255 : UInt8) &&& (1 <<< UInt8.ofNat r.val)) != 0) = true := by decide
  have h254 : ∀ r : Fin 8, (((254 : UInt8) &&& (1 <<< UInt8.ofNat r.val)) != 0) = decide (r.val ≠ 0) := by
    decide
  unfold bitSet oneFree fullMap
  rw [List.getD_eq_getElem?_getD, List.getElem?_set]
  by_cases he : k = j / 8
  · rw [if_pos he, if_pos (by rw [List.length_replicate]; omega), Option.getD_some]
    have := h254 ⟨j % 8, Nat.mod_lt _ (by decide)⟩
    rw [this]
    simp only [decide_eq_decide]
    omega
  · rw [if_neg he, List.getElem?_replicate_of_lt hjk, Option.getD_some,
      h255 ⟨j % 8, Nat.mod_lt _ (by decide)⟩]
    have hj8 : j ≠ 8 * k := by omega
    simp only [ne_eq, hj8, not_false_eq_true, decide_true]

theorem freeBit_fullMap (b size : Nat) : freeBit fullMap b size BPB 0 = none :=
  freeBit_none_of_set fun _ _ hj _ => bitSet_fullMap (by omega)

theorem freeBit_oneFree {k b size : Nat} (hk : k < BSIZE) (hlt : b + 8 * k < size) :
    freeBit (oneFree k) b size BPB 0 = some (8 * k) := by
  have hkb : 8 * k < BPB := by unfold BPB; omega
  refine freeBit_of_first (fun j hj => ?_) ?_ hlt (Nat.zero_le _) (by omega)
  · rw [bitSet_oneFree hk (by omega)]
    simp only [ne_eq, decide_eq_true_eq]
    omega
  · rw [bitSet_oneFree hk hkb]
    simp

theorem setBit_oneFree {k : Nat} (hk : k < BSIZE) : setBit (oneFree k) (8 * k) = fullMap := by
  have hlen : k < fullMap.length := by rw [fullMap, List.length_replicate]; exact hk
  have hk8 : 8 * k / 8 = k := by omega
  have hm8 : 8 * k % 8 = 0 := by omega
  unfold setBit oneFree
  rw [hk8, hm8, List.getD_eq_getElem?_getD, List.getElem?_set_self hlen, Option.getD_some,
    List.set_set]
  have h255 : fullMap[k] = (254 : UInt8) ||| 1 <<< UInt8.ofNat 0 := by
    simp only [fullMap, List.getElem_replicate]
    decide
  rw [← h255, List.set_getElem_self]

/-- `balloc` on a bitmap whose blocks before `b` are full and whose block for
`b` has the one clear bit `8 * k`. -/
theorem balloc_run_oneFree {p l : List Nat} {b k : Nat} (hstarts : bitmapStarts s.sb.size = p ++ b :: l)
    (hfull : ∀ x ∈ p, s.blocks (BBLOCK x s.sb) = fullMap) (hone : s.blocks (BBLOCK b s.sb) = oneFree k)
    (hk : k < BSIZE) (hlt : b + 8 * k < s.sb.size) (hroom : Room 2 s) :
    balloc.run s = .ok (b + 8 * k, (((s.store (BBLOCK b s.sb) fullMap).logb (BBLOCK b s.sb)).store
      (b + 8 * k) zeroBlock).logb (b + 8 * k)) := by
  have hpre : ∀ x ∈ p, freeBit (s.blocks (BBLOCK x s.sb)) x s.sb.size BPB 0 = none := by
    intro x hx
    rw [hfull x hx]
    exact freeBit_fullMap _ _
  have h := freeBit_oneFree (b := b) hk hlt
  rw [← hone] at h
  rw [balloc_run_first hstarts hpre h hroom, hone, setBit_oneFree hk]

end Runs

/-- A file of `12800` bytes with no blocks: all of it a hole. -/
def holeFile : Inode := { emptyFile with size := 12800 }

/-- A disk of `4 * BPB + 8` blocks: the boot block, the superblock, thirty
log blocks, one block of inodes, five bitmap blocks from block 33, and the
data blocks from 38. Each bitmap block has one clear bit: block 40 in the
first, the first block each other one covers. Its one inode is `holeFile`,
and a transaction is open. -/
def bigDisk : FsState where
  blocks := fun b => if b = 33 then oneFree 5 else if 33 < b ∧ b < 38 then oneFree 0 else zeroBlock
  sb := { magic := FSMAGIC, size := 4 * BPB + 8, nblocks := 4 * BPB + 8 - 38, ninodes := IPB,
          nlog := 30, logstart := 2, inodestart := 32, bmapstart := 33 }
  lh := []
  outstanding := 1
  committing := false
  logsize := 30
  inodes := [holeFile]
  files := []
  procs := []

theorem laid_bigDisk : Laid bigDisk holeFile := by
  refine Laid.of_empty (by decide) (fun j => ?_) (fun b => ?_) (by decide) (fun b hb hfree => ?_)
    (by decide)
  · unfold holeFile emptyFile
    rw [List.getD_eq_getElem?_getD, List.getElem?_replicate]
    split <;> rfl
  · have hfull : ∀ k, (oneFree k).length = BSIZE := fun k => by
      rw [oneFree, List.length_set, fullMap, List.length_replicate]
    unfold bigDisk
    dsimp only
    split
    · exact hfull 5
    · split
      · exact hfull 0
      · rw [zeroBlock, List.length_replicate]
  -- the clear bits are those of block 40 and of the blocks `BPB`, ..., `4 * BPB`
  · have hds : dataStart bigDisk.sb = 38 := by decide
    have hsz : bigDisk.sb.size = 4 * BPB + 8 := rfl
    have hmod : b % BPB < BPB := Nat.mod_lt _ (by decide)
    unfold bitOf BBLOCK at hfree
    rw [hds]
    rw [hsz] at hb
    by_cases hq : b / BPB = 0
    · rw [hq, show bigDisk.blocks (0 + bigDisk.sb.bmapstart) = oneFree 5 from rfl,
        bitSet_oneFree (by decide) hmod] at hfree
      simp only [ne_eq, decide_eq_false_iff_not, not_not] at hfree
      unfold BPB BSIZE at *
      omega
    · have hblock : bigDisk.blocks (b / BPB + bigDisk.sb.bmapstart) = oneFree 0 := by
        have h8 : 8 < BPB := by decide
        have h4 : b / BPB < 5 := Nat.div_lt_of_lt_mul (by omega)
        have hpos : 0 < b / BPB := Nat.pos_of_ne_zero hq
        have hne : b / BPB + 33 ≠ 33 := by omega
        have hin : 33 < b / BPB + 33 ∧ b / BPB + 33 < 38 := ⟨by omega, by omega⟩
        show (if b / BPB + 33 = 33 then _ else if 33 < b / BPB + 33 ∧ b / BPB + 33 < 38 then _ else _) = _
        rw [if_neg hne, if_pos hin]
      rw [hblock, bitSet_oneFree (by decide) hmod] at hfree
      simp only [ne_eq, decide_eq_false_iff_not, not_not] at hfree
      unfold BPB BSIZE at *
      omega

set_option maxRecDepth 4000 in
/-- The run of the write of 3072 bytes at the end of `holeFile`: four turns
of the loop, through blocks 12 to 15, then the inode. -/
theorem writei_run_holeFile :
    ((writei 0 (kernelSrc (List.replicate 3072 7)) 12800 3072).run bigDisk).map (fun r => (r.1, r.2.lh)) =
      .ok (3072, [33, 40, 34, 8192, 35, 16384, 36, 24576, 37, 32768, 32]) := by
  have hs : bitmapStarts bigDisk.sb.size = [0, BPB, 2 * BPB, 3 * BPB, 4 * BPB] := by decide
  -- block 12: the indirect block from the first bitmap block, the block from the second
  have h₁ : (writeiLoop 0 (kernelSrc (List.replicate 3072 7)) 3072 12800 0 3072).run bigDisk = _ :=
    writeiLoop_run_turn (by decide)
      (bmap_run_new_ind rfl (by decide) (by decide) (by decide)
        (balloc_run_oneFree (p := []) (b := 0) (k := 5) hs (by simp) (by decide) (by decide)
          (by decide) (by decide))
        (by decide)
        (balloc_run_oneFree (p := [0]) (b := BPB) (k := 0) hs
          (by decide) (by decide) (by decide) (by decide) (by decide))
        (by decide))
      rfl (by decide)
  -- blocks 13 to 15: each from the next bitmap block, recorded in the indirect block
  have h₂ := h₁.trans (writeiLoop_run_turn (by decide)
    (bmap_run_entry rfl (by decide) (by decide) (by decide) (by decide)
      (balloc_run_oneFree (p := [0, BPB]) (b := 2 * BPB) (k := 0) hs
        (by decide) (by decide) (by decide) (by decide) (by decide))
      (by decide))
    rfl (by decide))
  have h₃ := h₂.trans (writeiLoop_run_turn (by decide)
    (bmap_run_entry rfl (by decide) (by decide) (by decide) (by decide)
      (balloc_run_oneFree (p := [0, BPB, 2 * BPB]) (b := 3 * BPB) (k := 0) hs
        (by decide) (by decide) (by decide) (by decide) (by decide))
      (by decide))
    rfl (by decide))
  have h₄ := h₃.trans (writeiLoop_run_turn (by decide)
    (bmap_run_entry rfl (by decide) (by decide) (by decide) (by decide)
      (balloc_run_oneFree (p := [0, BPB, 2 * BPB, 3 * BPB]) (b := 4 * BPB) (k := 0) hs
        (by decide) (by decide) (by decide) (by decide) (by decide))
      (by decide))
    rfl (by decide))
  -- the file grows to 15872 bytes, and its inode block is logged
  rw [writei_run_grow rfl (by decide) (by decide) (by decide) (by decide)
    (h₄.trans (writeiLoop_run_done (by decide))) rfl (by decide) (iupdate_run rfl (by decide))]
  rfl
/-- **A chunk of `filewrite` can log eleven blocks.** `holeFile` is laid out
on `bigDisk`, within `MAXFILE` blocks, but all hole. Its `writei` of a full
chunk at its end (as `filewrite` passes it) logs eleven distinct blocks, one
more than `MAXOPBLOCKS`: the four blocks of the file, the indirect block, the
five bitmap blocks `balloc` updates, and the inode's block. -/
theorem hole_write_exceeds_budget :
    bigDisk.inodes[0]? = some holeFile ∧ Laid bigDisk holeFile ∧
      holeFile.size ≤ MAXFILE * BSIZE ∧ 3072 ≤ (MAXOPBLOCKS - 1 - 1 - 2) / 2 * BSIZE ∧
      ¬ Filled bigDisk.blocks holeFile holeFile.size ∧
      ((writei 0 (kernelSrc (List.replicate 3072 7)) holeFile.size 3072).run bigDisk).map
        (fun r => (r.1, r.2.lh)) = .ok (3072, [33, 40, 34, 8192, 35, 16384, 36, 24576, 37, 32768, 32]) ∧
      [33, 40, 34, 8192, 35, 16384, 36, 24576, 37, 32768, 32].Nodup ∧
      MAXOPBLOCKS < [33, 40, 34, 8192, 35, 16384, 36, 24576, 37, 32768, 32].length :=
  ⟨rfl, laid_bigDisk, by decide, by decide, fun h => h 0 (by decide) (by decide), writei_run_holeFile,
    by decide, by decide⟩

end Fs

end Xv6
