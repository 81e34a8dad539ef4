import Xv6.Fs.Inode

/-!
# An inode's contents as a byte array

The bytes of a file are its blocks laid end to end, block `bn` being
`ip->addrs[bn]` below `NDIRECT` and entry `bn - NDIRECT` of the indirect
block above (`addrOf`, `content`). Read through that map, `readi` and
`writei` act on a byte array as `arrayRead` and `arrayWrite` say
(`Fs/ReadWrite.lean`).

That holds of an inode whose blocks lie as a file system keeps them
(`Laid`): each block of the file is its own, used in the bitmap, past the
bitmap; every block the bitmap shows free is past the bitmap too; and the
inode's own disk block lies before it. This module has the view and what
keeps it:

- `Keeps`: the inode's fields but its addresses, and every block it holds
  with its bytes, unchanged; the view below any allocated block is kept;
- `Laid.alloc`: what `balloc` does (`Alloc`) keeps the layout and hands out
  a `Fresh` block, one the file does not hold.
-/

namespace Xv6

namespace Fs

open LEBytes

/-! ## The byte array -/

/-- `readi` on a byte array, every copy succeeding: nothing when `off` is past
the end or `off + n` wraps as a `uint`, else the bytes from `off` on, at
most `n` of them. -/
def arrayRead (c : List UInt8) (off n : Nat) : List UInt8 :=
  if c.length < off ∨ (off + n) % 2 ^ 32 < off then [] else (c.drop off).take n

/-- `writei` on a byte array: the bytes from `off` on are replaced by `data`,
and the array grows to hold them. -/
def arrayWrite (c : List UInt8) (off : Nat) (data : List UInt8) : List UInt8 :=
  c.take off ++ data ++ c.drop (off + data.length)

section Array

variable {c data : List UInt8} {off : Nat}

theorem length_arrayWrite (h : off ≤ c.length) :
    (arrayWrite c off data).length = max c.length (off + data.length) := by
  simp only [arrayWrite, List.length_append, List.length_take, List.length_drop]
  omega

/-- A byte of the written array: from `data` in the written range, from `c`
elsewhere. -/
theorem getD_arrayWrite (h : off ≤ c.length) (k : Nat) :
    (arrayWrite c off data).getD k 0 =
      if off ≤ k ∧ k < off + data.length then data.getD (k - off) 0 else c.getD k 0 := by
  simp only [arrayWrite, List.getD_eq_getElem?_getD]
  split
  · rename_i hk
    rw [List.getElem?_append_left (by simp; omega), List.getElem?_append_right (by simp; omega)]
    simp only [List.length_take, Nat.min_eq_left h]
  · rename_i hk
    by_cases hlo : k < off
    · rw [List.getElem?_append_left (by simp; omega), List.getElem?_append_left (by simp; omega),
        List.getElem?_take_of_lt hlo]
    · rw [List.getElem?_append_right (by simp; omega), List.getElem?_drop]
      simp only [List.length_append, List.length_take, Nat.min_eq_left h]
      congr 2
      omega

theorem getElem?_arrayWrite_inside (h : off ≤ c.length) {i : Nat} (hi : i < data.length) :
    (arrayWrite c off data)[off + i]? = data[i]? := by
  have htake : (c.take off).length = off := by simp only [List.length_take]; omega
  rw [arrayWrite, List.append_assoc, List.getElem?_append_right (by omega), htake,
    Nat.add_sub_cancel_left, List.getElem?_append_left hi]

/-- A read after a write returns the written bytes, for every range inside
the write. -/
theorem arrayRead_arrayWrite (h : off ≤ c.length) (hw : off + data.length < 2 ^ 32)
    {j k : Nat} (hjk : j + k ≤ data.length) :
    arrayRead (arrayWrite c off data) (off + j) k = (data.drop j).take k := by
  have hlen : (arrayWrite c off data).length = max c.length (off + data.length) :=
    length_arrayWrite h
  rw [arrayRead, if_neg (by rw [Nat.mod_eq_of_lt (by omega)]; omega)]
  apply List.ext_getElem?
  intro x
  rw [List.getElem?_take, List.getElem?_take, List.getElem?_drop, List.getElem?_drop]
  split
  · rw [Nat.add_assoc, getElem?_arrayWrite_inside h (by omega)]
  · rfl

/-- Writing `tot + m` bytes is writing `tot`, then the next `m`. -/
theorem getD_arrayWrite_take (h : off ≤ c.length) {tot m : Nat} (htm : tot + m ≤ data.length)
    (k : Nat) :
    (arrayWrite c off (data.take (tot + m))).getD k 0 =
      if off + tot ≤ k ∧ k < off + tot + m then data.getD (k - off) 0
      else (arrayWrite c off (data.take tot)).getD k 0 := by
  have htake : ∀ n j, j < n → (data.take n).getD j 0 = data.getD j 0 := by
    intro n j hj
    rw [List.getD_eq_getElem?_getD, List.getD_eq_getElem?_getD, List.getElem?_take_of_lt hj]
  rw [getD_arrayWrite h, getD_arrayWrite h]
  simp only [List.length_take, Nat.min_eq_left htm, Nat.min_eq_left (show tot ≤ data.length by omega)]
  by_cases hk : off + tot ≤ k ∧ k < off + tot + m
  · rw [if_pos ⟨by omega, by omega⟩, if_pos hk, htake _ _ (by omega)]
  · rw [if_neg hk]
    by_cases hk' : off ≤ k ∧ k < off + tot
    · rw [if_pos ⟨hk'.1, by omega⟩, if_pos hk', htake _ _ (by omega), htake _ _ (by omega)]
    · rw [if_neg (by omega), if_neg hk']

end Array

/-! ## The inode's contents -/

/-- The disk block of block `bn` of the inode, as `bmap` finds it without
allocating; `0` where there is none. -/
def addrOf (blocks : Nat → Block) (ip : Inode) (bn : Nat) : Nat :=
  if bn < NDIRECT then ip.addrs.getD bn 0
  else if ip.addrs.getD NDIRECT 0 = 0 then 0
  else getAddr (blocks (ip.addrs.getD NDIRECT 0)) (bn - NDIRECT)

/-- Byte `k` of the inode's contents. -/
def byteAt (blocks : Nat → Block) (ip : Inode) (k : Nat) : UInt8 :=
  (blocks (addrOf blocks ip (k / BSIZE))).getD (k % BSIZE) 0

/-- The contents of the inode: its first `size` bytes. -/
def content (blocks : Nat → Block) (ip : Inode) : List UInt8 :=
  (List.range ip.size).map (byteAt blocks ip)

/-- The blocks the inode holds: those of its contents, and its indirect
block. -/
def Owns (blocks : Nat → Block) (ip : Inode) (b : Nat) : Prop :=
  b ≠ 0 ∧ ((∃ bn < MAXFILE, addrOf blocks ip bn = b) ∨ b = ip.addrs.getD NDIRECT 0)

/-- Every block below byte `L` is allocated. -/
def Filled (blocks : Nat → Block) (ip : Inode) (L : Nat) : Prop :=
  ∀ bn, bn * BSIZE < L → addrOf blocks ip bn ≠ 0

/-- The first block past the bitmap. -/
def dataStart (sb : Superblock) : Nat := sb.bmapstart + (sb.size + BPB - 1) / BPB

/-- The bitmap bit of block `b`. -/
def bitOf (s : FsState) (b : Nat) : Bool := bitSet (s.blocks (BBLOCK b s.sb)) (b % BPB)

/-- How a file system keeps the blocks of the inode `ip`. -/
structure Laid (s : FsState) (ip : Inode) : Prop where
  addrs_length : ip.addrs.length = NDIRECT + 1
  sized : ∀ b, (s.blocks b).length = BSIZE
  size_lt : s.sb.size < 2 ^ 32
  /-- No two blocks of the contents share a disk block. -/
  inj : ∀ bn bn', bn < MAXFILE → bn' < MAXFILE → addrOf s.blocks ip bn ≠ 0 →
    addrOf s.blocks ip bn = addrOf s.blocks ip bn' → bn = bn'
  /-- The indirect block holds no contents. -/
  ind_ne : ∀ bn < MAXFILE, addrOf s.blocks ip bn ≠ 0 →
    addrOf s.blocks ip bn ≠ ip.addrs.getD NDIRECT 0
  /-- The inode's blocks are used in the bitmap, and past it. -/
  owned : ∀ b, Owns s.blocks ip b → b < s.sb.size ∧ bitOf s b = true ∧ dataStart s.sb ≤ b
  /-- What the bitmap shows free is past it. -/
  free : ∀ b < s.sb.size, bitOf s b = false → dataStart s.sb ≤ b
  /-- The inode's own disk block lies before the bitmap. -/
  iblock : IBLOCK ip.inum s.sb < s.sb.bmapstart

/-- An inode of the byte-array view: laid out as a file system keeps it, at
most `MAXFILE` blocks long, without holes. -/
structure Sound (s : FsState) (ip : Inode) : Prop where
  laid : Laid s ip
  size_le : ip.size ≤ MAXFILE * BSIZE
  filled : Filled s.blocks ip ip.size

/-! ### Reading through the block map -/

section View

variable {blocks blocks' : Nat → Block} {ip : Inode}

theorem owns_ind (h : ip.addrs.getD NDIRECT 0 ≠ 0) : Owns blocks ip (ip.addrs.getD NDIRECT 0) :=
  ⟨h, .inr rfl⟩

theorem owns_addrOf {bn : Nat} (hbn : bn < MAXFILE) (h : addrOf blocks ip bn ≠ 0) :
    Owns blocks ip (addrOf blocks ip bn) :=
  ⟨h, .inl ⟨bn, hbn, rfl⟩⟩

/-- The block map reads the disk only at the indirect block. -/
theorem addrOf_of_ind
    (h : blocks' (ip.addrs.getD NDIRECT 0) = blocks (ip.addrs.getD NDIRECT 0)) :
    addrOf blocks' ip = addrOf blocks ip := by
  funext bn
  unfold addrOf
  rw [h]

theorem addrOf_congr (h : ∀ b, Owns blocks ip b → blocks' b = blocks b) :
    addrOf blocks' ip = addrOf blocks ip := by
  by_cases hind : ip.addrs.getD NDIRECT 0 = 0
  · funext bn
    unfold addrOf
    rw [if_pos hind, if_pos hind]
  · exact addrOf_of_ind (h _ (owns_ind hind))

theorem owns_congr (h : ∀ b, Owns blocks ip b → blocks' b = blocks b) :
    Owns blocks' ip = Owns blocks ip := by
  funext b
  simp only [Owns, addrOf_congr h]

/-- The bytes of a read within one block of the contents. -/
theorem getBytes_block {off m : Nat} (hm : m ≤ BSIZE - off % BSIZE) :
    getBytes (blocks (addrOf blocks ip (off / BSIZE))) (off % BSIZE) m =
      (List.range m).map fun j => byteAt blocks ip (off + j) := by
  unfold getBytes
  apply List.map_congr_left
  intro j hj
  rw [List.mem_range] at hj
  -- the read stays inside the block of `off`
  have hdiv : (off + j) / BSIZE = off / BSIZE := by unfold BSIZE at hm ⊢; omega
  have hmod : (off + j) % BSIZE = off % BSIZE + j := by unfold BSIZE at hm ⊢; omega
  simp only [byteAt, hdiv, hmod]

/-- A byte after `bytes` are stored at `off` into its block: the stored byte
in the range, the old one elsewhere (other blocks of the contents are other
disk blocks). -/
theorem byteAt_write {off addr k : Nat} {bytes : List UInt8}
    (haddr : addrOf blocks ip (off / BSIZE) = addr) (hsized : (blocks addr).length = BSIZE)
    (hind : addr ≠ ip.addrs.getD NDIRECT 0) (hm : bytes.length ≤ BSIZE - off % BSIZE)
    (hother : k / BSIZE ≠ off / BSIZE → addrOf blocks ip (k / BSIZE) ≠ addr) :
    byteAt (fun x => if x = addr then setBytes (blocks addr) (off % BSIZE) bytes else blocks x) ip k =
      if off ≤ k ∧ k < off + bytes.length then bytes.getD (k - off) 0 else byteAt blocks ip k := by
  have hmap : addrOf (fun x => if x = addr then setBytes (blocks addr) (off % BSIZE) bytes
      else blocks x) ip = addrOf blocks ip :=
    addrOf_of_ind (if_neg (Ne.symm hind))
  unfold byteAt
  rw [hmap]
  by_cases hk : k / BSIZE = off / BSIZE
  · -- the byte lies in the block written
    rw [hk, haddr]
    dsimp only
    rw [if_pos rfl]
    have hlt : k % BSIZE < (blocks addr).length := by
      rw [hsized]
      exact Nat.mod_lt _ (by decide)
    by_cases hr : off ≤ k ∧ k < off + bytes.length
    · rw [if_pos hr, getD_setBytes_inside _ _ _ (by unfold BSIZE at *; omega)
        (by unfold BSIZE at *; omega) hlt]
      congr 1
      unfold BSIZE at *
      omega
    · rw [if_neg hr, getD_setBytes_outside _ _ _ (by unfold BSIZE at *; omega)]
  · dsimp only
    rw [if_neg (hother hk), if_neg]
    intro hr
    exact hk (by unfold BSIZE at *; omega)

/-- The contents from `off` on, `m` bytes, as bytes of the view. -/
theorem take_drop_content {off m : Nat} (h : off + m ≤ ip.size) :
    ((content blocks ip).drop off).take m = (List.range m).map fun j => byteAt blocks ip (off + j) := by
  apply List.ext_getElem?
  intro x
  rw [List.getElem?_take, List.getElem?_map]
  split
  · rename_i hx
    rw [List.getElem?_range hx, List.getElem?_drop, content, List.getElem?_map,
      List.getElem?_range (by omega)]
    rfl
  · rw [List.getElem?_eq_none (by simp only [List.length_range]; omega)]
    rfl

/-- The contents are the list that agrees with the view at every byte. -/
theorem content_eq_of_bytes {l : List UInt8} (hlen : l.length = ip.size)
    (h : ∀ k < ip.size, byteAt blocks ip k = l.getD k 0) : content blocks ip = l := by
  apply List.ext_getElem (by simp [content, hlen])
  intro k hk hk'
  have hbyte := h k (by simpa [content] using hk)
  rw [List.getD_eq_getElem?_getD, List.getElem?_eq_getElem hk', Option.getD_some] at hbyte
  simp only [content, List.getElem_map, List.getElem_range]
  exact hbyte

end View

/-! ### What keeps the view -/

/-- From `(s, ip)` to `(s', ip')` the inode kept its fields but its address
list, and each block of its contents, in place and with its bytes. -/
structure Keeps (s : FsState) (ip : Inode) (s' : FsState) (ip' : Inode) : Prop where
  fields : ip' = { ip with addrs := ip'.addrs }
  sb : s'.sb = s.sb
  block : ∀ bn < MAXFILE, addrOf s.blocks ip bn ≠ 0 → addrOf s'.blocks ip' bn = addrOf s.blocks ip bn
  bytes : ∀ bn < MAXFILE, addrOf s.blocks ip bn ≠ 0 →
    s'.blocks (addrOf s.blocks ip bn) = s.blocks (addrOf s.blocks ip bn)

theorem Keeps.refl (s : FsState) (ip : Inode) : Keeps s ip s ip :=
  ⟨rfl, rfl, fun _ _ _ => rfl, fun _ _ _ => rfl⟩

theorem Keeps.trans {s₁ s₂ s₃ : FsState} {ip₁ ip₂ ip₃ : Inode} (h₁ : Keeps s₁ ip₁ s₂ ip₂)
    (h₂ : Keeps s₂ ip₂ s₃ ip₃) : Keeps s₁ ip₁ s₃ ip₃ where
  fields := by rw [h₂.fields, h₁.fields]
  sb := h₂.sb.trans h₁.sb
  block bn hbn h := by
    rw [h₂.block bn hbn (by rw [h₁.block bn hbn h]; exact h), h₁.block bn hbn h]
  bytes bn hbn h := by
    have h' := h₁.block bn hbn h
    rw [← h', h₂.bytes bn hbn (by rw [h']; exact h), h', h₁.bytes bn hbn h]

/-- Only the blocks and the superblock matter to what an inode holds. -/
theorem Keeps.of_blocks {s s₁ s₂ : FsState} {ip ip' : Inode} (h : Keeps s ip s₁ ip')
    (hb : s₂.blocks = s₁.blocks) (hsb : s₂.sb = s₁.sb) : Keeps s ip s₂ ip' where
  fields := h.fields
  sb := hsb.trans h.sb
  block := by rw [hb]; exact h.block
  bytes := by rw [hb]; exact h.bytes

/-- A byte in an allocated block keeps its value. -/
theorem Keeps.byteAt {s s' : FsState} {ip ip' : Inode} (h : Keeps s ip s' ip') {k : Nat}
    (hk : k / BSIZE < MAXFILE) (hb : addrOf s.blocks ip (k / BSIZE) ≠ 0) :
    byteAt s'.blocks ip' k = byteAt s.blocks ip k := by
  unfold Fs.byteAt
  rw [h.block _ hk hb, h.bytes _ hk hb]

theorem Keeps.filled {s s' : FsState} {ip ip' : Inode} (h : Keeps s ip s' ip') {L : Nat}
    (hL : L ≤ MAXFILE * BSIZE) (hf : Filled s.blocks ip L) : Filled s'.blocks ip' L := by
  intro bn hbn
  have hlt : bn < MAXFILE := by
    by_contra hc
    have : MAXFILE * BSIZE ≤ bn * BSIZE := Nat.mul_le_mul_right _ (by omega)
    omega
  rw [h.block bn hlt (hf bn hbn)]
  exact hf bn hbn

/-! ## The layout through allocation -/

section Layout

variable {s s' : FsState} {ip : Inode}

/-- The bitmap block of a block on the disk lies between the bitmap's start
and the first data block. -/
theorem bblock_lt_dataStart {sb : Superblock} {b : Nat} (hb : b < sb.size) :
    sb.bmapstart ≤ BBLOCK b sb ∧ BBLOCK b sb < dataStart sb := by
  unfold BBLOCK dataStart BPB BSIZE at *
  constructor
  · omega
  · have : b / 8192 < (sb.size + 8192 - 1) / 8192 := by omega
    omega

theorem Laid.ind_owned (h : Laid s ip) (hind : ip.addrs.getD NDIRECT 0 ≠ 0) :
    dataStart s.sb ≤ ip.addrs.getD NDIRECT 0 :=
  (h.owned _ (owns_ind hind)).2.2

/-- Nothing but the disk under the inode's blocks and the bitmap matters to
the layout: writes elsewhere keep it. -/
theorem Laid.of_agree (h : Laid s ip) (hsb : s'.sb = s.sb)
    (hsized : ∀ b, (s'.blocks b).length = BSIZE)
    (hmap : addrOf s'.blocks ip = addrOf s.blocks ip)
    (hbits : ∀ x < s.sb.size, s'.blocks (BBLOCK x s.sb) = s.blocks (BBLOCK x s.sb)) :
    Laid s' ip := by
  have hbit : ∀ b < s.sb.size, bitOf s' b = bitOf s b := by
    intro b hb
    unfold bitOf
    rw [hsb, hbits b hb]
  have howns : Owns s'.blocks ip = Owns s.blocks ip := by
    funext b
    simp only [Owns, hmap]
  refine ⟨h.addrs_length, hsized, hsb ▸ h.size_lt, ?_, ?_, ?_, ?_, hsb ▸ h.iblock⟩
  · rw [hmap]; exact h.inj
  · rw [hmap]; exact h.ind_ne
  · intro b hb
    rw [howns] at hb
    obtain ⟨hlt, hset, hdata⟩ := h.owned b hb
    exact ⟨hsb ▸ hlt, (hbit b hlt).trans hset, hsb ▸ hdata⟩
  · intro b hb hclear
    rw [hsb] at hb ⊢
    exact h.free b hb ((hbit b hb).symm.trans hclear)

theorem Laid.of_blocks (h : Laid s ip) (hb : s'.blocks = s.blocks) (hsb : s'.sb = s.sb) : Laid s' ip :=
  h.of_agree hsb (hb ▸ h.sized) (by rw [hb]) (fun x _ => by rw [hb])

/-- A block `balloc` handed out: not the inode's, below the disk's size and
past the bitmap, now used, and zeroed. -/
structure Fresh (s : FsState) (ip : Inode) (b : Nat) : Prop where
  not_owns : ¬ Owns s.blocks ip b
  lt_size : b < s.sb.size
  used : bitOf s b = true
  data : dataStart s.sb ≤ b
  zero : s.blocks b = zeroBlock

theorem Fresh.ne_zero {b : Nat} (h : Laid s ip) (hf : Fresh s ip b) : b ≠ 0 := by
  have hd := hf.data
  have hi := h.iblock
  unfold dataStart BPB BSIZE at hd
  omega

/-- `balloc`'s effect: block `b`, free and below the disk's size, is marked
used in its bitmap block and zeroed; but for the log nothing else changes. -/
def Alloc (s₀ : FsState) (b : Nat) (s : FsState) : Prop :=
  b < s₀.sb.size ∧ bitOf s₀ b = false ∧
    ∃ l, s = { s₀ with
      blocks := fun x => if x = b then zeroBlock
        else if x = BBLOCK b s₀.sb then setBit (s₀.blocks (BBLOCK b s₀.sb)) (b % BPB)
        else s₀.blocks x
      lh := l }

/-- What `balloc` hands out is fresh, and the inode's view and layout stay. -/
theorem Laid.alloc {s₀ : FsState} {b : Nat} (h : Laid s₀ ip) (ha : Alloc s₀ b s) :
    Laid s ip ∧ Fresh s ip b ∧ Keeps s₀ ip s ip ∧ s.inodes = s₀.inodes ∧
      addrOf s.blocks ip = addrOf s₀.blocks ip := by
  obtain ⟨hb, hclear, l, rfl⟩ := ha
  have hdata := h.free b hb hclear
  have hbb := bblock_lt_dataStart hb
  -- the inode's blocks are neither the new block nor a bitmap block
  have hown : ∀ u, Owns s₀.blocks ip u → u ≠ b ∧ u ≠ BBLOCK b s₀.sb := by
    intro u hu
    obtain ⟨-, hset, hu⟩ := h.owned u hu
    refine ⟨fun hub => ?_, by omega⟩
    subst hub
    rw [hset] at hclear
    cases hclear
  have hsame : ∀ u, Owns s₀.blocks ip u →
      (if u = b then zeroBlock else if u = BBLOCK b s₀.sb then
        setBit (s₀.blocks (BBLOCK b s₀.sb)) (b % BPB) else s₀.blocks u) = s₀.blocks u := by
    intro u hu
    rw [if_neg (hown u hu).1, if_neg (hown u hu).2]
  have hmap : addrOf (fun x => if x = b then zeroBlock
      else if x = BBLOCK b s₀.sb then setBit (s₀.blocks (BBLOCK b s₀.sb)) (b % BPB)
      else s₀.blocks x) ip = addrOf s₀.blocks ip :=
    addrOf_congr hsame
  -- a bit set before is set after
  have hbit : ∀ u < s₀.sb.size, bitOf s₀ u = true →
      bitSet ((fun x => if x = b then zeroBlock else if x = BBLOCK b s₀.sb then
        setBit (s₀.blocks (BBLOCK b s₀.sb)) (b % BPB) else s₀.blocks x) (BBLOCK u s₀.sb))
        (u % BPB) = true := by
    intro u hu hset
    have hub := bblock_lt_dataStart hu
    dsimp only
    rw [if_neg (by omega)]
    split
    · rename_i heq
      rw [← heq]
      exact bitSet_setBit_of_bitSet hset
    · exact hset
  refine ⟨⟨h.addrs_length, ?_, h.size_lt, ?_, ?_, ?_, ?_, h.iblock⟩, ⟨?_, hb, ?_, hdata, ?_⟩,
    ⟨rfl, rfl, fun bn _ _ => congrFun hmap bn, fun bn hbn hne => hsame _ (owns_addrOf hbn hne)⟩,
    rfl, hmap⟩
  · intro x
    dsimp only
    split
    · exact List.length_replicate ..
    · split
      · rw [length_setBit]; exact h.sized _
      · exact h.sized _
  · rw [hmap]; exact h.inj
  · rw [hmap]; exact h.ind_ne
  · intro u hu
    rw [owns_congr hsame] at hu
    obtain ⟨hlt, hset, hd⟩ := h.owned u hu
    exact ⟨hlt, hbit u hlt hset, hd⟩
  · intro u hu hclear'
    by_contra hlt
    have hset : bitOf s₀ u = false := by
      cases hu' : bitOf s₀ u
      · rfl
      · have := hbit u hu hu'
        simp only [bitOf] at hclear'
        rw [this] at hclear'
        cases hclear'
    exact hlt (h.free u hu hset)
  · rw [owns_congr hsame]
    intro hu
    obtain ⟨-, hset, -⟩ := h.owned b hu
    rw [hset] at hclear
    cases hclear
  · show bitSet (if BBLOCK b s₀.sb = b then zeroBlock else _) (b % BPB) = true
    rw [if_neg (by omega), if_pos rfl]
    apply bitSet_setBit_self
    rw [h.sized]
    unfold BPB BSIZE
    omega
  · show (if b = b then zeroBlock else _) = zeroBlock
    rw [if_pos rfl]

end Layout

end Fs

end Xv6
