import Xv6.Param
import Xv6.Library.Bytes

/-!
# The on-disk format (`kernel/fs.h`, the structs `log.c` lays over a block)

Block contents are byte strings. The kernel reads and writes its structs by
casting a buffer's `data` (`(struct dinode *)bp->data + inum % IPB`,
`memmove(sb, bp->data, sizeof(*sb))`), and RISC-V is little-endian, so each
field is a little-endian word at a fixed offset. `mkfs` writes the same
fields through `xint`/`xshort`, which make the host's word little-endian;
on a little-endian host both sides therefore go through the same codecs
below.

C's `short` fields (`type`, `major`, `minor`, `nlink`) are kept as `Int`;
`toShort` is the conversion C performs when a value is stored in a short,
so `ip->nlink++` at 32767 gives -32768.
-/

namespace Xv6

open LEBytes

/-! ## Signed words -/

/-- Read a two-byte word as a C `short`. -/
def sext16 (v : Nat) : Int := if v < 32768 then v else (v : Int) - 65536

/-- Read a four-byte word as a C `int`. -/
def sext32 (v : Nat) : Int := if v < 2147483648 then v else (v : Int) - 4294967296

/-- The conversion of an `int` to `short`: the value modulo `2^16`, read
signed. -/
def toShort (x : Int) : Int := sext16 (x % 65536).toNat

/-- The two bytes a `short` is stored as. -/
def shortBits (x : Int) : Nat := (x % 65536).toNat

theorem shortBits_lt (x : Int) : shortBits x < 65536 := by
  unfold shortBits; omega

theorem sext16_shortBits (x : Int) : sext16 (shortBits x) = toShort x := rfl

theorem toShort_of_range {x : Int} (h1 : -32768 ≤ x) (h2 : x < 32768) : toShort x = x := by
  unfold toShort sext16
  split <;> omega

/-! ## The superblock -/

/-- `struct superblock`. -/
structure Superblock where
  magic : Nat
  size : Nat
  nblocks : Nat
  ninodes : Nat
  nlog : Nat
  logstart : Nat
  inodestart : Nat
  bmapstart : Nat
deriving DecidableEq, Repr

/-- `memmove(sb, bp->data, sizeof(*sb))`. -/
def readSuperblock (d : List UInt8) : Superblock where
  magic := getLE d 0 4
  size := getLE d 4 4
  nblocks := getLE d 8 4
  ninodes := getLE d 12 4
  nlog := getLE d 16 4
  logstart := getLE d 20 4
  inodestart := getLE d 24 4
  bmapstart := getLE d 28 4

/-- `memmove(buf, &sb, sizeof(sb))`. -/
def writeSuperblock (sb : Superblock) (d : List UInt8) : List UInt8 :=
  let d := setLE d 0 4 sb.magic
  let d := setLE d 4 4 sb.size
  let d := setLE d 8 4 sb.nblocks
  let d := setLE d 12 4 sb.ninodes
  let d := setLE d 16 4 sb.nlog
  let d := setLE d 20 4 sb.logstart
  let d := setLE d 24 4 sb.inodestart
  setLE d 28 4 sb.bmapstart

/-- The superblock `mkfs` computes (its `main`, before the first `wsect`). -/
def mkfsSuperblock : Superblock where
  magic := FSMAGIC
  size := FSSIZE
  nblocks := nblocks
  ninodes := NINODES
  nlog := nlog
  logstart := 2
  inodestart := 2 + nlog
  bmapstart := 2 + nlog + ninodeblocks

/-- `IBLOCK(i, sb)`: the block holding inode `i`. -/
def IBLOCK (i : Nat) (sb : Superblock) : Nat := i / IPB + sb.inodestart

/-- `BBLOCK(b, sb)`: the bitmap block holding the bit of block `b`. -/
def BBLOCK (b : Nat) (sb : Superblock) : Nat := b / BPB + sb.bmapstart

/-! ## The log header -/

/-- `((struct logheader *)data)->n`. -/
def headerN (d : List UInt8) : Int := sext32 (getLE d 0 4)

/-- `((struct logheader *)data)->block[i]`, as the `uint` `bread` is given. -/
def headerBlock (d : List UInt8) (i : Nat) : Nat := getLE d (4 + 4 * i) 4

/-- `read_head`'s view of a header block: `block[0 .. n)`, empty when `n` is
not positive. -/
def readHeader (d : List UInt8) : List Nat :=
  (List.range (headerN d).toNat).map (headerBlock d)

/-- `write_head`'s stores: `hb->n = n` and `hb->block[i]` for `i < n`; the
rest of the block is left as it was. -/
def writeHeader (lh : List Nat) (d : List UInt8) : List UInt8 :=
  lh.zipIdx.foldl (fun d (b, i) => setLE d (4 + 4 * i) 4 b) (setLE d 0 4 lh.length)

/-! ## Inodes -/

/-- `struct dinode`. -/
structure Dinode where
  type : Int
  major : Int
  minor : Int
  nlink : Int
  size : Nat
  addrs : List Nat
deriving DecidableEq, Repr

/-- Offset of inode `inum`'s `struct dinode` in its block. -/
def dinodeOff (inum : Nat) : Nat := inum % IPB * DINODESIZE

/-- The `struct dinode` at byte offset `off`. -/
def getDinode (d : List UInt8) (off : Nat) : Dinode where
  type := sext16 (getLE d off 2)
  major := sext16 (getLE d (off + 2) 2)
  minor := sext16 (getLE d (off + 4) 2)
  nlink := sext16 (getLE d (off + 6) 2)
  size := getLE d (off + 8) 4
  addrs := (List.range (NDIRECT + 1)).map fun j => getLE d (off + 12 + 4 * j) 4

/-- A `struct dinode` is read from its own `DINODESIZE` bytes. -/
theorem getDinode_getBytes (d : List UInt8) (off : Nat) :
    getDinode (getBytes d off DINODESIZE) 0 = getDinode d off := by
  have hread : ∀ {j k : Nat}, j + k ≤ DINODESIZE →
      getLE (getBytes d off DINODESIZE) j k = getLE d (off + j) k := getLE_getBytes
  simp only [getDinode, Nat.zero_add]
  -- the five fixed fields, then the addresses one by one
  rw [hread (by decide), hread (by decide), hread (by decide), hread (by decide),
    hread (by decide), Nat.add_zero, Dinode.mk.injEq]
  refine ⟨rfl, rfl, rfl, rfl, rfl, ?_⟩
  apply List.map_congr_left
  intro j hj
  rw [List.mem_range] at hj
  rw [hread (by simp only [DINODESIZE, NDIRECT] at hj ⊢; omega), Nat.add_assoc]

/-- The `DINODESIZE` bytes of a `struct dinode`. -/
def Dinode.bytes (din : Dinode) : List UInt8 :=
  leBytes 2 (shortBits din.type) ++ leBytes 2 (shortBits din.major) ++
    leBytes 2 (shortBits din.minor) ++ leBytes 2 (shortBits din.nlink) ++ leBytes 4 din.size ++
    (List.range (NDIRECT + 1)).flatMap fun j => leBytes 4 (din.addrs.getD j 0)

/-- Store a `struct dinode` at byte offset `off` (`*dip = *ip`, or the field
stores of `iupdate`, which together cover the whole struct). -/
def setDinode (d : List UInt8) (off : Nat) (din : Dinode) : List UInt8 :=
  setBytes d off din.bytes

/-- The fields of a `struct dinode` fit their C types. -/
def Dinode.Fits (din : Dinode) : Prop :=
  (-32768 ≤ din.type ∧ din.type < 32768) ∧ (-32768 ≤ din.major ∧ din.major < 32768) ∧
  (-32768 ≤ din.minor ∧ din.minor < 32768) ∧ (-32768 ≤ din.nlink ∧ din.nlink < 32768) ∧
  din.size < 2 ^ 32 ∧ din.addrs.length = NDIRECT + 1 ∧ ∀ a ∈ din.addrs, a < 2 ^ 32

instance : DecidablePred Dinode.Fits := fun _ => by unfold Dinode.Fits; infer_instance

theorem length_Dinode_bytes (din : Dinode) : din.bytes.length = DINODESIZE := by
  simp [Dinode.bytes, DINODESIZE, NDIRECT, List.length_flatMap]

/-- A dinode whose fields fit is read back from its bytes. -/
theorem getDinode_bytes {din : Dinode} (h : din.Fits) : getDinode din.bytes 0 = din := by
  obtain ⟨type, major, minor, nlink, size, addrs⟩ := din
  simp only [Dinode.Fits] at h
  obtain ⟨⟨ht1, ht2⟩, ⟨hm1, hm2⟩, ⟨hn1, hn2⟩, ⟨hl1, hl2⟩, hsize, hlen, haddrs⟩ := h
  have hpow2 : (256 : Nat) ^ 2 = 65536 := by decide
  have hpow4 : (256 : Nat) ^ 4 = 2 ^ 32 := by decide
  have hshort : ∀ x : Int, -32768 ≤ x → x < 32768 → sext16 (shortBits x % 256 ^ 2) = x := by
    intro x h1 h2
    rw [hpow2, Nat.mod_eq_of_lt (shortBits_lt x), sext16_shortBits, toShort_of_range h1 h2]
  -- the addresses are the 4-byte chunks of the tail
  have haddr : ∀ j < NDIRECT + 1, getLE ((List.range (NDIRECT + 1)).flatMap
      fun j => leBytes 4 (addrs.getD j 0)) (4 * j) 4 = addrs.getD j 0 := by
    intro j hj
    rw [getLE, getBytes_flatMap_chunk (fun _ => length_leBytes 4 _) hj, leValue_leBytes, hpow4,
      Nat.mod_eq_of_lt]
    rw [← List.getElem_eq_getD 0 (h := by omega)]
    exact haddrs _ (List.getElem_mem _)
  simp only [getDinode, Dinode.bytes, List.append_assoc, Nat.zero_add, Dinode.mk.injEq]
  refine ⟨?_, ?_, ?_, ?_, ?_, ?_⟩
  · rw [getLE_leBytes_append, hshort _ ht1 ht2]
  · rw [getLE_leBytes_append_shift, getLE_leBytes_append, hshort _ hm1 hm2]
  · rw [getLE_leBytes_append_shift, getLE_leBytes_append_shift, getLE_leBytes_append,
      hshort _ hn1 hn2]
  · rw [getLE_leBytes_append_shift, getLE_leBytes_append_shift, getLE_leBytes_append_shift,
      getLE_leBytes_append, hshort _ hl1 hl2]
  · rw [getLE_leBytes_append_shift, getLE_leBytes_append_shift, getLE_leBytes_append_shift,
      getLE_leBytes_append_shift, getLE_leBytes_append, hpow4, Nat.mod_eq_of_lt hsize]
  · apply List.ext_getElem (by simp [hlen])
    intro j h1 h2
    rw [List.getElem_map, List.getElem_range,
      show 12 + 4 * j = 4 * j + 4 + 2 + 2 + 2 + 2 by omega, getLE_leBytes_append_shift,
      getLE_leBytes_append_shift, getLE_leBytes_append_shift, getLE_leBytes_append_shift,
      getLE_leBytes_append_shift, haddr j (by simpa using h1), ← List.getElem_eq_getD 0]

/-- The all-zero `struct dinode` (`memset(dip, 0, sizeof(*dip))`). -/
def Dinode.zero : Dinode :=
  { type := 0, major := 0, minor := 0, nlink := 0, size := 0,
    addrs := List.replicate (NDIRECT + 1) 0 }

/-! ## Directory entries -/

/-- `struct dirent`: `ushort inum` and `char name[DIRSIZ]`. -/
structure Dirent where
  inum : Nat
  name : List UInt8
deriving DecidableEq, Repr

def getDirent (d : List UInt8) (off : Nat) : Dirent where
  inum := getLE d off 2
  name := getBytes d (off + 2) DIRSIZ

def setDirent (d : List UInt8) (off : Nat) (de : Dirent) : List UInt8 :=
  setBytes (setLE d off 2 de.inum) (off + 2) de.name

/-- The bytes of a `struct dirent`. -/
def Dirent.bytes (de : Dirent) : List UInt8 := setDirent (List.replicate DIRENTSIZE 0) 0 de

theorem length_Dirent_bytes (de : Dirent) : de.bytes.length = DIRENTSIZE := by
  simp [Dirent.bytes, setDirent]

/-! ## Bitmap and indirect blocks -/

/-- Bit `bi % 8` of byte `bi / 8`: the bitmap bit of the `bi`-th block a
bitmap block covers. -/
def bitSet (d : List UInt8) (bi : Nat) : Bool :=
  (d.getD (bi / 8) 0 &&& (1 <<< (UInt8.ofNat (bi % 8)))) != 0

/-- `bp->data[bi / 8] |= m` with `m = 1 << (bi % 8)`. -/
def setBit (d : List UInt8) (bi : Nat) : List UInt8 :=
  d.set (bi / 8) (d.getD (bi / 8) 0 ||| (1 <<< (UInt8.ofNat (bi % 8))))

/-- `bp->data[bi / 8] &= ~m`. -/
def clearBit (d : List UInt8) (bi : Nat) : List UInt8 :=
  d.set (bi / 8) (d.getD (bi / 8) 0 &&& ~~~(1 <<< (UInt8.ofNat (bi % 8))))

/-- `((uint *)bp->data)[bn]`. -/
def getAddr (d : List UInt8) (bn : Nat) : Nat := getLE d (4 * bn) 4

/-- `((uint *)bp->data)[bn] = addr`. -/
def setAddr (d : List UInt8) (bn addr : Nat) : List UInt8 := setLE d (4 * bn) 4 addr

theorem mask_ne_zero (bi : Nat) : (1 : UInt8) <<< UInt8.ofNat (bi % 8) ≠ 0 := by
  have h : ∀ k : Fin 8, (1 : UInt8) <<< UInt8.ofNat k ≠ 0 := by decide
  exact h ⟨bi % 8, Nat.mod_lt _ (by decide)⟩

/-- The masks of two bits of a byte meet only when the bits are the same. -/
theorem mask_and_mask (a b : Nat) :
    ((1 : UInt8) <<< UInt8.ofNat (a % 8) &&& 1 <<< UInt8.ofNat (b % 8)) =
      if a % 8 = b % 8 then 1 <<< UInt8.ofNat (b % 8) else 0 := by
  have h : ∀ i j : Fin 8, ((1 : UInt8) <<< UInt8.ofNat i &&& 1 <<< UInt8.ofNat j) =
      if (i : Nat) = j then 1 <<< UInt8.ofNat j else 0 := by decide
  exact h ⟨a % 8, Nat.mod_lt _ (by decide)⟩ ⟨b % 8, Nat.mod_lt _ (by decide)⟩

theorem not_mask_and_mask (a b : Nat) :
    (~~~((1 : UInt8) <<< UInt8.ofNat (a % 8)) &&& 1 <<< UInt8.ofNat (b % 8)) =
      if a % 8 = b % 8 then (0 : UInt8) else 1 <<< UInt8.ofNat (b % 8) := by
  have h : ∀ i j : Fin 8, (~~~((1 : UInt8) <<< UInt8.ofNat i) &&& 1 <<< UInt8.ofNat j) =
      if (i : Nat) = j then (0 : UInt8) else 1 <<< UInt8.ofNat j := by decide
  exact h ⟨a % 8, Nat.mod_lt _ (by decide)⟩ ⟨b % 8, Nat.mod_lt _ (by decide)⟩

theorem byte_or_and (x y z : UInt8) : (x ||| y) &&& z = (x &&& z) ||| (y &&& z) :=
  UInt8.toBitVec_inj.1 (by simp only [UInt8.toBitVec_and, UInt8.toBitVec_or]
                           exact BitVec.and_or_distrib_right)

theorem or_and_ne_zero {x m m' : UInt8} (h : x &&& m' ≠ 0 ∨ m &&& m' ≠ 0) :
    (x ||| m) &&& m' ≠ 0 := by
  rw [byte_or_and, ne_eq, UInt8.or_eq_zero_iff]
  rintro ⟨h₁, h₂⟩
  rcases h with h | h
  · exact h h₁
  · exact h h₂

@[simp] theorem length_setBit (d : List UInt8) (bi : Nat) : (setBit d bi).length = d.length :=
  List.length_set ..

/-- `balloc` sets the bit it found clear. -/
theorem bitSet_setBit_self {d : List UInt8} {bi : Nat} (h : bi / 8 < d.length) :
    bitSet (setBit d bi) bi = true := by
  unfold bitSet setBit
  rw [List.getD_eq_getElem?_getD, List.getElem?_set_self h, Option.getD_some, bne_iff_ne]
  exact or_and_ne_zero (.inr (by rw [UInt8.and_self]; exact mask_ne_zero bi))

/-- Setting a bit clears none. -/
theorem bitSet_setBit_of_bitSet {d : List UInt8} {bi bj : Nat} (h : bitSet d bj = true) :
    bitSet (setBit d bi) bj = true := by
  unfold bitSet setBit at *
  rw [List.getD_eq_getElem?_getD, List.getElem?_set]
  rw [bne_iff_ne] at h ⊢
  split
  · rename_i hb
    split
    · rw [Option.getD_some, hb]
      exact or_and_ne_zero (.inl h)
    · rename_i hlen
      rw [List.getD_eq_getElem?_getD, List.getElem?_eq_none (by omega)] at h
      simp at h
  · rwa [← List.getD_eq_getElem?_getD]

/-- Bit `b` of a byte after `|=` with the mask of bit `a`. -/
theorem or_mask_bit (x : UInt8) (a b : Nat) :
    ((x ||| 1 <<< UInt8.ofNat (a % 8)) &&& 1 <<< UInt8.ofNat (b % 8) != 0) =
      (decide (a % 8 = b % 8) || (x &&& 1 <<< UInt8.ofNat (b % 8) != 0)) := by
  rw [byte_or_and, mask_and_mask]
  by_cases hab : a % 8 = b % 8
  · rw [if_pos hab, decide_eq_true hab, Bool.true_or, bne_iff_ne, ne_eq, UInt8.or_eq_zero_iff]
    exact fun h => mask_ne_zero b h.2
  · rw [if_neg hab, decide_eq_false hab, Bool.false_or, UInt8.or_zero]

/-- Bit `b` of a byte after `&= ~` the mask of bit `a`. -/
theorem and_not_mask_bit (x : UInt8) (a b : Nat) :
    ((x &&& ~~~(1 <<< UInt8.ofNat (a % 8))) &&& 1 <<< UInt8.ofNat (b % 8) != 0) =
      (!decide (a % 8 = b % 8) && (x &&& 1 <<< UInt8.ofNat (b % 8) != 0)) := by
  rw [UInt8.and_assoc, not_mask_and_mask]
  by_cases hab : a % 8 = b % 8
  · rw [if_pos hab, decide_eq_true hab, UInt8.and_zero]
    rfl
  · rw [if_neg hab, decide_eq_false hab]
    rfl

/-- Clearing bits that were clear leaves the byte as it was. -/
theorem and_not_eq_self {x m : UInt8} (h : x &&& m = 0) : x &&& ~~~m = x := by
  apply UInt8.toBitVec_inj.1
  have h' : x.toBitVec &&& m.toBitVec = 0 := by
    rw [← UInt8.toBitVec_and, h]
    rfl
  rw [UInt8.toBitVec_and, UInt8.toBitVec_not]
  apply BitVec.eq_of_getLsbD_eq
  intro i hi
  -- bit by bit: where `m` has a one, `x` has a zero
  have hi' := congrArg (fun v => v.getLsbD i) h'
  simp only [BitVec.getLsbD_and] at hi'
  simp only [BitVec.getLsbD_and, BitVec.getLsbD_not, hi]
  cases hx : x.toBitVec.getLsbD i <;> cases hm : m.toBitVec.getLsbD i <;> simp_all

theorem or_and_not_self (x m : UInt8) : (x ||| m) &&& ~~~m = x &&& ~~~m := by
  rw [byte_or_and, UInt8.and_not_self, UInt8.or_zero]

/-- Setting bit `bi` of a bitmap block sets that bit and changes no other. -/
theorem bitSet_setBit {d : List UInt8} {bi : Nat} (h : bi / 8 < d.length) (j : Nat) :
    bitSet (setBit d bi) j = (decide (j = bi) || bitSet d j) := by
  unfold bitSet setBit
  rw [List.getD_eq_getElem?_getD, List.getElem?_set]
  by_cases hj : bi / 8 = j / 8
  · rw [if_pos hj, if_pos h, Option.getD_some, or_mask_bit, hj]
    congr 1
    exact decide_eq_decide.mpr (by omega)
  · rw [if_neg hj, ← List.getD_eq_getElem?_getD, decide_eq_false (by omega), Bool.false_or]

/-- Clearing bit `bi` clears that bit and changes no other. -/
theorem bitSet_clearBit {d : List UInt8} {bi : Nat} (h : bi / 8 < d.length) (j : Nat) :
    bitSet (clearBit d bi) j = (!decide (j = bi) && bitSet d j) := by
  unfold bitSet clearBit
  rw [List.getD_eq_getElem?_getD, List.getElem?_set]
  by_cases hj : bi / 8 = j / 8
  · rw [if_pos hj, if_pos h, Option.getD_some, and_not_mask_bit, hj]
    congr 2
    exact decide_eq_decide.mpr (by omega)
  · rw [if_neg hj, ← List.getD_eq_getElem?_getD, decide_eq_false (by omega), Bool.not_false,
      Bool.true_and]

/-- `bfree` undoes `balloc`'s store in the bitmap block. -/
theorem clearBit_setBit {d : List UInt8} {bi : Nat} (h : bi / 8 < d.length)
    (hclear : bitSet d bi = false) : clearBit (setBit d bi) bi = d := by
  have hbyte : d.getD (bi / 8) 0 &&& 1 <<< UInt8.ofNat (bi % 8) = 0 := by
    unfold bitSet at hclear
    simpa using hclear
  unfold clearBit setBit
  rw [List.getD_eq_getElem?_getD (l := List.set _ _ _), List.getElem?_set_self (by simpa using h),
    Option.getD_some, List.set_set, or_and_not_self, and_not_eq_self hbyte,
    List.getD_eq_getElem?_getD, List.getElem?_eq_getElem h, Option.getD_some,
    List.set_getElem_self h]

@[simp] theorem length_setAddr (d : List UInt8) (bn addr : Nat) :
    (setAddr d bn addr).length = d.length :=
  length_setLE ..

/-- An entry of an indirect block holds what was stored in it. -/
theorem getAddr_setAddr_self {d : List UInt8} {bn addr : Nat} (h : 4 * bn + 4 ≤ d.length)
    (haddr : addr < 2 ^ 32) : getAddr (setAddr d bn addr) bn = addr := by
  unfold getAddr setAddr
  rw [getLE_setLE_self h]
  exact Nat.mod_eq_of_lt haddr

/-- Storing one entry keeps the others. -/
theorem getAddr_setAddr_of_ne {d : List UInt8} {bn bn' addr : Nat} (h : bn' ≠ bn) :
    getAddr (setAddr d bn addr) bn' = getAddr d bn' := by
  unfold getAddr setAddr
  exact getLE_setLE_of_disjoint (by omega)

end Xv6
