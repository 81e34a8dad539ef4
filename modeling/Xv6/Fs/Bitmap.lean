import Mathlib
import Xv6.Fs.WriteRuns
import Xv6.Fs.Sysfile

/-!
# The bitmap: `balloc`, `bfree` and the bitmap `mkfs` writes

Block `b`'s bit is bit `b % BPB` of the bitmap block `BBLOCK b sb` (`bitOf`),
that is bit `(b % BPB) % 8` of byte `(b % BPB) / 8` (`bitSet`). `balloc` scans
the bitmap blocks from `b = 0` in steps of `BPB` and, in each, the bits `bi`
with `b + bi < sb.size`. It returns the least block whose bit is clear
(`balloc_run_least`) and panics only when every bit below `sb.size` is set
(`balloc_run_full`). Setting and clearing a bit touch no other bit
(`bitSet_setBit`, `bitSet_clearBit`), so `bfree` of the block `balloc` returned
puts the bitmap back as it was (`bfree_balloc_run`). `mkfs` marks the first
`used` blocks with the same byte and bit (`bitSet_foldl_setBit`), and the
kernel booted from its image reads exactly those as in use (`bitOf_boot_mkfs`).

That `balloc` changes no bit but the one it sets rests on the bitmap blocks
being marked in use themselves (`MarksBitmap`): `balloc` zeroes the block it
returns, and a bitmap block left clear is returned and zeroed, bits and all.
-/

namespace Xv6

namespace Fs

open StateExcept LEBytes

/-! ## The bit of a block -/

/-- Block `b` is the least block of the disk whose bit is clear. -/
def LeastFree (s : FsState) (b : Nat) : Prop :=
  b < s.sb.size ∧ bitOf s b = false ∧ ∀ c < b, bitOf s c = true

instance (s : FsState) (b : Nat) : Decidable (LeastFree s b) :=
  inferInstanceAs (Decidable (_ ∧ _ ∧ _))

/-- A disk as `mkfs` writes it and `balloc` keeps it: every block `BSIZE`
bytes long, and every bitmap block of the disk marked in use. -/
structure MarksBitmap (s : FsState) : Prop where
  sized : ∀ x, (s.blocks x).length = BSIZE
  marked : ∀ c < s.sb.size, BBLOCK c s.sb < s.sb.size → bitOf s (BBLOCK c s.sb) = true

variable {s : FsState} {b c : Nat}

/-- The bitmap block that starts at a multiple `x` of `BPB` holds the bits of
the blocks `x + j`. -/
theorem bitOf_add_of_mod {x j : Nat} (hx : x % BPB = 0) (hj : j < BPB) :
    bitOf s (x + j) = bitSet (s.blocks (BBLOCK x s.sb)) j := by
  have hdiv : (x + j) / BPB = x / BPB := by unfold BPB BSIZE at *; omega
  have hmod : (x + j) % BPB = j := by unfold BPB BSIZE at *; omega
  unfold bitOf BBLOCK
  rw [hdiv, hmod]

/-- A block and its bit in its bitmap block determine it. -/
theorem eq_of_bblock_eq {sb : Superblock} (hB : BBLOCK c sb = BBLOCK b sb)
    (hbit : c % BPB = b % BPB) : c = b := by
  unfold BBLOCK at hB
  unfold BPB BSIZE at *
  omega

theorem mod_BPB_div_lt (b : Nat) : b % BPB / 8 < BSIZE := by
  unfold BPB BSIZE
  omega

theorem bitOf_store_bblock {d : Block} :
    bitOf (s.store (BBLOCK b s.sb) d) c =
      if BBLOCK c s.sb = BBLOCK b s.sb then bitSet d (c % BPB) else bitOf s c := by
  unfold bitOf
  rw [FsState.store_sb, FsState.store_blocks]
  split <;> rfl

/-- `bp->data[bi / 8] |= m` in block `b`'s bitmap block sets block `b`'s bit
and no other. -/
theorem bitOf_store_setBit (hsized : (s.blocks (BBLOCK b s.sb)).length = BSIZE) (c : Nat) :
    bitOf (s.store (BBLOCK b s.sb) (setBit (s.blocks (BBLOCK b s.sb)) (b % BPB))) c =
      (decide (c = b) || bitOf s c) := by
  rw [bitOf_store_bblock]
  split
  · rename_i hB
    rw [bitSet_setBit (by rw [hsized]; exact mod_BPB_div_lt b)]
    have hiff : c % BPB = b % BPB ↔ c = b := ⟨eq_of_bblock_eq hB, fun h => h ▸ rfl⟩
    unfold bitOf
    rw [hB, decide_eq_decide.mpr hiff]
  · rename_i hB
    have hcb : c ≠ b := fun h => hB (h ▸ rfl)
    rw [decide_eq_false hcb, Bool.false_or]

/-- `bp->data[bi / 8] &= ~m` clears block `b`'s bit and no other. -/
theorem bitOf_store_clearBit (hsized : (s.blocks (BBLOCK b s.sb)).length = BSIZE) (c : Nat) :
    bitOf (s.store (BBLOCK b s.sb) (clearBit (s.blocks (BBLOCK b s.sb)) (b % BPB))) c =
      (!decide (c = b) && bitOf s c) := by
  rw [bitOf_store_bblock]
  split
  · rename_i hB
    rw [bitSet_clearBit (by rw [hsized]; exact mod_BPB_div_lt b)]
    have hiff : c % BPB = b % BPB ↔ c = b := ⟨eq_of_bblock_eq hB, fun h => h ▸ rfl⟩
    unfold bitOf
    rw [hB, decide_eq_decide.mpr hiff]
  · rename_i hB
    have hcb : c ≠ b := fun h => hB (h ▸ rfl)
    rw [decide_eq_false hcb, Bool.not_false, Bool.true_and]

@[simp] theorem bitOf_logb {x : Nat} : bitOf (s.logb x) c = bitOf s c := rfl

/-- A block whose bit is clear is none of the disk's bitmap blocks. -/
theorem MarksBitmap.bblock_ne (h : MarksBitmap s) (hb : b < s.sb.size) (hclear : bitOf s b = false)
    (hc : c < s.sb.size) : BBLOCK c s.sb ≠ b := by
  intro heq
  have hmarked := h.marked c hc (heq ▸ hb)
  rw [heq, hclear] at hmarked
  exact Bool.false_ne_true hmarked

/-! ## `balloc` -/

/-- The starts of the bitmap blocks, split at the `k`-th. -/
theorem bitmapStarts_eq_append {size k : Nat} (hk : k * BPB < size) :
    ∃ rest, bitmapStarts size = (List.range k).map (· * BPB) ++ k * BPB :: rest := by
  obtain ⟨n, hn⟩ : ∃ n, (size + BPB - 1) / BPB = k + (n + 1) :=
    ⟨(size + BPB - 1) / BPB - k - 1, by unfold BPB BSIZE at *; omega⟩
  refine ⟨(List.range n).map fun i => (k + (i + 1)) * BPB, ?_⟩
  unfold bitmapStarts
  rw [hn, List.range_add, List.range_succ_eq_map, List.map_append]
  simp only [List.map_cons, List.map_map, Nat.add_zero]
  rfl

/-- The inner loop finds nothing in a bitmap block whose bits below the disk's
size are all set. -/
theorem freeBit_none_of_full {x : Nat} (hx : x % BPB = 0)
    (hfull : ∀ j < BPB, x + j < s.sb.size → bitOf s (x + j) = true) :
    freeBit (s.blocks (BBLOCK x s.sb)) x s.sb.size BPB 0 = none :=
  freeBit_none_of_set fun j _ hj hjs => by
    rw [← bitOf_add_of_mod hx (by omega)]
    exact hfull j (by omega) hjs

theorem ballocScan_run_full :
    ∀ {bs : List Nat}, (∀ x ∈ bs, freeBit (s.blocks (BBLOCK x s.sb)) x s.sb.size BPB 0 = none) →
      (ballocScan bs).run s = .error (.panic "balloc: out of blocks")
  | [], _ => rfl
  | x :: bs, h => by
    rw [ballocScan_run_skip (h x List.mem_cons_self)]
    exact ballocScan_run_full fun y hy => h y (List.mem_cons_of_mem x hy)

/-- With every bit below the disk's size set, `balloc` panics. -/
theorem balloc_run_full (hfull : ∀ c < s.sb.size, bitOf s c = true) :
    balloc.run s = .error (.panic "balloc: out of blocks") := by
  rw [balloc_run]
  apply ballocScan_run_full
  intro x hx
  exact freeBit_none_of_full (bitmapStarts_mod _ x hx) fun j _ hjs => hfull _ hjs

/-- `balloc` returns the least free block, marks it in its bitmap block and
zeroes it, logging both. -/
theorem balloc_run_least (hroom : Room 2 s) (hb : LeastFree s b) :
    balloc.run s = .ok (b, (((s.store (BBLOCK b s.sb) (setBit (s.blocks (BBLOCK b s.sb)) (b % BPB))).logb
      (BBLOCK b s.sb)).store b zeroBlock).logb b) := by
  obtain ⟨hlt, hclear, hbelow⟩ := hb
  -- `b` is bit `b % BPB` of the bitmap block that starts at `b / BPB * BPB`
  have hx : b / BPB * BPB % BPB = 0 := Nat.mul_mod_left _ _
  have hxb : b / BPB * BPB + b % BPB = b := Nat.div_add_mod' b BPB
  have hB : BBLOCK (b / BPB * BPB) s.sb = BBLOCK b s.sb := by
    unfold BBLOCK
    rw [Nat.mul_div_cancel _ (by decide)]
  obtain ⟨rest, hstarts⟩ := bitmapStarts_eq_append (show b / BPB * BPB < s.sb.size by omega)
  -- the bitmap blocks before it have no clear bit
  have hpre : ∀ y ∈ (List.range (b / BPB)).map (· * BPB),
      freeBit (s.blocks (BBLOCK y s.sb)) y s.sb.size BPB 0 = none := by
    intro y hy
    obtain ⟨i, hi, rfl⟩ := List.mem_map.mp hy
    have hi : i < b / BPB := List.mem_range.mp hi
    exact freeBit_none_of_full (Nat.mul_mod_left _ _) fun j hj _ =>
      hbelow _ (by unfold BPB BSIZE at *; omega)
  -- and in its own the first clear bit is `b`'s
  have hfound : freeBit (s.blocks (BBLOCK (b / BPB * BPB) s.sb)) (b / BPB * BPB) s.sb.size BPB 0 =
      some (b % BPB) := by
    refine freeBit_of_first (fun j hj => ?_) ?_ (by omega) (Nat.zero_le _)
      (by simpa using Nat.mod_lt b (show BPB > 0 by decide))
    · rw [← bitOf_add_of_mod hx (by have := Nat.mod_lt b (show BPB > 0 by decide); omega)]
      exact hbelow _ (by omega)
    · rw [← bitOf_add_of_mod hx (Nat.mod_lt b (by decide)), hxb]
      exact hclear
  rw [balloc_run_first hstarts hpre hfound hroom, hxb, hB]

/-- The effect of `balloc_run_least` is `Alloc`. -/
theorem alloc_of_leastFree (hb : LeastFree s b) :
    Alloc s b ((((s.store (BBLOCK b s.sb) (setBit (s.blocks (BBLOCK b s.sb)) (b % BPB))).logb
      (BBLOCK b s.sb)).store b zeroBlock).logb b) :=
  ⟨hb.1, hb.2.1, _, rfl⟩

/-- On a disk whose bitmap blocks are marked, `balloc`'s allocation sets the
bit of the block it returns and no other. -/
theorem MarksBitmap.bitOf_alloc {s₁ : FsState} (h : MarksBitmap s) (ha : Alloc s b s₁) :
    ∀ c < s.sb.size, bitOf s₁ c = (decide (c = b) || bitOf s c) := by
  obtain ⟨hb, hclear, l, rfl⟩ := ha
  intro c hc
  -- the zeroed block is not the bitmap block of `c`
  have hne : BBLOCK c s.sb ≠ b := h.bblock_ne hb hclear hc
  rw [← bitOf_store_setBit (h.sized _) c]
  unfold bitOf
  show bitSet (if BBLOCK c s.sb = b then zeroBlock else _) _ = _
  rw [if_neg hne]
  rfl

/-! ## `bfree` -/

theorem bfree_run_free (h : bitOf s b = false) :
    (bfree b).run s = .error (.panic "freeing free block") := by
  unfold bitOf at h
  unfold bfree
  simp only [StateT.run_bind, StateT.run_get, StateT.run_pure, bread, pure_bind, h,
    Bool.not_false, ↓reduceIte]
  rfl

theorem bfree_run_used (h : bitOf s b = true) (hroom : Room 1 s) :
    (bfree b).run s =
      .ok ((), (s.store (BBLOCK b s.sb) (clearBit (s.blocks (BBLOCK b s.sb)) (b % BPB))).logb (BBLOCK b s.sb)) := by
  unfold bitOf at h
  unfold bfree
  simp only [StateT.run_bind, StateT.run_get, StateT.run_pure, bread, pure_bind, h,
    Bool.not_true, Bool.false_eq_true, ↓reduceIte]
  rw [putBlock_run]
  exact logWrite_run_room hroom.store

/-- `bfree` of `balloc`'s block: the disk is as it was, but for the block,
which stays zeroed. -/
theorem bfree_balloc_run (h : MarksBitmap s) (hroom : Room 3 s) (hb : LeastFree s b) :
    ∃ s₁ s₂, balloc.run s = .ok (b, s₁) ∧ (bfree b).run s₁ = .ok ((), s₂) ∧
      s₂.blocks b = zeroBlock ∧ ∀ x, x ≠ b → s₂.blocks x = s.blocks x := by
  have hbits := h.bitOf_alloc (alloc_of_leastFree hb)
  have hB : BBLOCK b s.sb ≠ b := h.bblock_ne hb.1 hb.2.1 hb.1
  refine ⟨_, _, balloc_run_least (hroom.le (by omega)) hb,
    bfree_run_used (by rw [hbits b hb.1]; simp) (hroom.store.logb.store.logb), ?_, ?_⟩
  · simp [Ne.symm hB]
  · intro x hx
    by_cases hxB : x = BBLOCK b s.sb
    · -- the bitmap block: `clearBit` undoes `setBit` of a bit that was clear
      subst hxB
      simp only [FsState.logb_blocks, FsState.store_blocks, FsState.logb_sb, FsState.store_sb,
        if_pos, if_neg hB]
      exact clearBit_setBit (by rw [h.sized]; exact mod_BPB_div_lt b) hb.2.1
    · simp [hx, hxB]

/-! ## The bitmap `mkfs` writes -/

theorem length_foldl_setBit : ∀ (l : List Nat) (d : Block), (l.foldl setBit d).length = d.length
  | [], _ => rfl
  | i :: l, d => by rw [List.foldl_cons, length_foldl_setBit l, length_setBit]

theorem bitSet_zeroBlock (j : Nat) : bitSet zeroBlock j = false := by
  unfold bitSet
  rw [getD_zeroBlock, UInt8.zero_and]
  rfl

/-- `buf[i / 8] = buf[i / 8] | (0x1 << (i % 8))` for `i < used` sets the bits
below `used` and no other. -/
theorem bitSet_foldl_setBit {used : Nat} (h : used ≤ BPB) (c : Nat) :
    bitSet ((List.range used).foldl setBit zeroBlock) c = decide (c < used) := by
  induction used with
  | zero => exact bitSet_zeroBlock c
  | succ n ih =>
    have hlen : n / 8 < ((List.range n).foldl setBit zeroBlock).length := by
      rw [length_foldl_setBit, zeroBlock, List.length_replicate]
      unfold BPB at h
      omega
    rw [List.range_succ, List.foldl_append, List.foldl_cons, List.foldl_nil, bitSet_setBit hlen,
      ih (by omega)]
    by_cases hc : c = n
    · simp [hc]
    · simp only [hc, decide_false, Bool.false_or, decide_eq_decide]
      omega

/-- The disk of an image: a block written by `wsect` is read back, every other
is as it was. -/
theorem imageDisk_writeSect (img : List Block) (sec : Nat) (buf : Block) (x : Nat) :
    imageDisk (Mkfs.writeSect img sec buf) x = if x = sec then buf else imageDisk img x := by
  unfold imageDisk Mkfs.writeSect
  split
  · rename_i hsec
    rw [List.getD_eq_getElem?_getD, List.getElem?_set]
    by_cases hx : x = sec
    · subst hx
      simp [hsec]
    · rw [if_neg (Ne.symm hx), if_neg hx, ← List.getD_eq_getElem?_getD]
  · -- past the end, `wsect` pads with zero blocks
    rename_i hsec
    rw [List.append_assoc]
    by_cases hx : x < img.length
    · rw [List.getD_append _ _ _ _ hx, if_neg (by omega)]
    · rw [List.getD_append_right _ _ _ _ (by omega), List.getD_eq_default _ _ (by omega : img.length ≤ x)]
      by_cases hxs : x < sec
      · rw [List.getD_append _ _ _ _ (by rw [List.length_replicate]; omega),
          List.getD_replicate zeroBlock (by omega), if_neg (by omega)]
      · rw [List.getD_append_right _ _ _ _ (by rw [List.length_replicate]; omega)]
        by_cases hxe : x = sec
        · subst hxe
          simp
        · rw [if_neg hxe, List.getD_eq_default _ _ (by simp; omega)]

theorem balloc_run_writeSect {m : MkfsState} {used : Nat} (h : used < BSIZE * 8) :
    (Mkfs.balloc used).run m =
      .ok ((), { m with
        img := Mkfs.writeSect m.img mkfsSuperblock.bmapstart ((List.range used).foldl setBit zeroBlock) }) := by
  unfold Mkfs.balloc
  rw [if_neg (Nat.not_le_of_lt h)]
  rfl

/-- The kernel booted from an image with `mkfs`'s superblock, after `mkfs`'s
`balloc(used)`, reads blocks `0 .. used-1` as in use and no other. -/
theorem bitOf_boot_mkfs {img : List Block} {used : Nat}
    (hsb : readSuperblock (imageDisk img 1) = mkfsSuperblock) (hused : used < BSIZE * 8)
    (hc : c < FSSIZE) :
    bitOf (bootFs (imageDisk (Mkfs.writeSect img mkfsSuperblock.bmapstart
      ((List.range used).foldl setBit zeroBlock)))) c = decide (c < used) := by
  have h1 : imageDisk (Mkfs.writeSect img mkfsSuperblock.bmapstart
      ((List.range used).foldl setBit zeroBlock)) 1 = imageDisk img 1 := by
    rw [imageDisk_writeSect, if_neg (by decide)]
  -- the disk has one bitmap block, and `c` is its bit `c`
  have hcb : c < BPB := Nat.lt_of_lt_of_le hc (by decide)
  have hBB : BBLOCK c mkfsSuperblock = mkfsSuperblock.bmapstart := by
    unfold BBLOCK
    rw [Nat.div_eq_of_lt hcb, Nat.zero_add]
  unfold bitOf bootFs
  dsimp only
  rw [h1, hsb, hBB, imageDisk_writeSect, if_pos rfl, Nat.mod_eq_of_lt hcb,
    bitSet_foldl_setBit (Nat.le_of_lt hused)]

/-! ## `balloc`, `bfree` and `mkfs` agree -/

/-- `balloc`, `bfree` and `mkfs` agree on the bit of a block. `balloc` panics
exactly when no bit below the disk's size is clear. On a disk whose bitmap
blocks are marked, it otherwise returns the least free block, sets its bit and
no other, and zeroes it; `bfree` of that block then puts back every other
block. `bfree` panics on a clear bit and otherwise clears that bit and no
other. The kernel booted from `mkfs`'s image reads the bitmap `mkfs`'s
`balloc(used)` writes as blocks `0 .. used-1` in use. -/
theorem balloc_bfree_mkfs_agree :
    (∀ s : FsState, (∀ c < s.sb.size, bitOf s c = true) →
      balloc.run s = .error (.panic "balloc: out of blocks")) ∧
    (∀ (s : FsState) (b : Nat), MarksBitmap s → Room 3 s → LeastFree s b →
      ∃ s₁ s₂, balloc.run s = .ok (b, s₁) ∧ Alloc s b s₁ ∧
        (∀ c < s.sb.size, bitOf s₁ c = (decide (c = b) || bitOf s c)) ∧
        (bfree b).run s₁ = .ok ((), s₂) ∧ s₂.blocks b = zeroBlock ∧
        ∀ x, x ≠ b → s₂.blocks x = s.blocks x) ∧
    (∀ (s : FsState) (b : Nat), (∀ x, (s.blocks x).length = BSIZE) → Room 1 s →
      ((bfree b).run s = .error (.panic "freeing free block") ↔ bitOf s b = false) ∧
      (bitOf s b = true → ∃ s', (bfree b).run s = .ok ((), s') ∧
        ∀ c, bitOf s' c = (!decide (c = b) && bitOf s c))) ∧
    ∀ (m : MkfsState) (used : Nat), used < BSIZE * 8 →
      readSuperblock (imageDisk m.img 1) = mkfsSuperblock →
      ∃ m', (Mkfs.balloc used).run m = .ok ((), m') ∧
        ∀ c < FSSIZE, bitOf (bootFs (imageDisk m'.img)) c = decide (c < used) := by
  refine ⟨fun s hfull => balloc_run_full hfull, ?_, ?_, ?_⟩
  · -- `balloc`, then `bfree` of its block
    intro s b h hroom hb
    obtain ⟨s₁, s₂, hrun, hfree, hzero, hback⟩ := bfree_balloc_run h hroom hb
    have hrun' := balloc_run_least (hroom.le (by omega)) hb
    rw [hrun', Except.ok.injEq, Prod.mk.injEq] at hrun
    have ha : Alloc s b s₁ := hrun.2 ▸ alloc_of_leastFree hb
    exact ⟨s₁, s₂, by rw [hrun', hrun.2], ha, h.bitOf_alloc ha, hfree, hzero, hback⟩
  · -- `bfree` alone
    intro s b hsized hroom
    constructor
    · constructor
      · intro hpanic
        cases hbit : bitOf s b
        · rfl
        · rw [bfree_run_used hbit hroom] at hpanic
          cases hpanic
      · exact bfree_run_free
    · intro hbit
      refine ⟨_, bfree_run_used hbit hroom, fun c => ?_⟩
      rw [bitOf_logb]
      exact bitOf_store_clearBit (hsized _) c
  · -- `mkfs`
    intro m used hused hsb
    exact ⟨_, balloc_run_writeSect hused, fun c hc => bitOf_boot_mkfs hsb hused hc⟩

/-- A disk of `size` blocks whose one bitmap block, `bmapstart`, has first byte
`first` and every other zero; the inode block just before it, the log from
block 2; no block logged yet, inside a transaction. -/
def bitmapFs (size bmapstart : Nat) (first : UInt8) (logsize : Nat) : FsState where
  blocks := fun x => if x = bmapstart then first :: List.replicate (BSIZE - 1) 0 else zeroBlock
  sb := { magic := FSMAGIC, size, nblocks := size - bmapstart - 1, ninodes := IPB, nlog := logsize,
          logstart := 2, inodestart := bmapstart - 1, bmapstart }
  lh := []
  outstanding := 1
  committing := false
  logsize
  inodes := []
  files := []
  procs := []

theorem bitmapFs_sized (size bmapstart : Nat) (first : UInt8) (logsize : Nat) :
    ∀ x, ((bitmapFs size bmapstart first logsize).blocks x).length = BSIZE := by
  intro x
  unfold bitmapFs
  dsimp only
  split
  · rw [List.length_cons, List.length_replicate]
    rfl
  · exact List.length_replicate

/-- Twelve blocks, the bitmap block 7 marking blocks 0 to 7: `balloc` returns
block 8 and `bfree(8)` undoes it; `bfree(9)` panics; and `mkfs`'s bitmap of
its `nmeta` blocks reads back as those. -/
theorem balloc_bfree_mkfs_agree_small :
    balloc.run (bitmapFs 8 7 0xFF 4) = .error (.panic "balloc: out of blocks") ∧
    (∃ s₁ s₂, balloc.run (bitmapFs 12 7 0xFF 4) = .ok (8, s₁) ∧ (bfree 8).run s₁ = .ok ((), s₂) ∧
      ∀ x, x ≠ 8 → s₂.blocks x = (bitmapFs 12 7 0xFF 4).blocks x) ∧
    (bfree 9).run (bitmapFs 12 7 0xFF 4) = .error (.panic "freeing free block") ∧
    ∃ m', (Mkfs.balloc nmeta).run { Mkfs.start with img := Mkfs.zeroedImage } = .ok ((), m') ∧
      ∀ c < FSSIZE, bitOf (bootFs (imageDisk m'.img)) c = decide (c < nmeta) := by
  obtain ⟨hfull, halloc, hfree, hmkfs⟩ := balloc_bfree_mkfs_agree
  have hmarks : MarksBitmap (bitmapFs 12 7 0xFF 4) :=
    ⟨bitmapFs_sized 12 7 0xFF 4, by decide⟩
  refine ⟨hfull _ (by decide), ?_, ?_, ?_⟩
  · obtain ⟨s₁, s₂, hrun, -, -, hb, -, hback⟩ := halloc _ 8 hmarks (by decide) (by decide)
    exact ⟨s₁, s₂, hrun, hb, hback⟩
  · exact ((hfree _ 9 (bitmapFs_sized 12 7 0xFF 4) (by decide)).1).2 (by decide)
  · exact hmkfs _ nmeta (by decide) (by decide)

/-- On a disk whose bitmap block, block 6, marks blocks 0 to 5 in use but not
itself, `balloc` returns block 6 and zeroes it, bits and all: afterwards no
block is marked, where blocks 0 to 6 should be; and `bfree(6)` then finds its
bit clear and panics. -/
theorem balloc_zeroes_unmarked_bitmap :
    (List.range 10).map (bitOf (bitmapFs 10 6 0x3F 3)) =
        [true, true, true, true, true, true, false, false, false, false] ∧
      (balloc.run (bitmapFs 10 6 0x3F 3)).map (fun r => (r.1, (List.range 10).map (bitOf r.2))) =
        .ok (6, List.replicate 10 false) ∧
      ((balloc >>= bfree).run (bitmapFs 10 6 0x3F 3)).map (fun _ => ()) =
        .error (.panic "freeing free block") := by
  decide

end Fs

end Xv6
