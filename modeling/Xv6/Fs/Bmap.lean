import Xv6.Fs.Content
import Xv6.Library.Triple

/-!
# Allocating the blocks of a file (`balloc`, `bmap`)

`bmap` finds the disk block of a block of the file, allocating it, and the
indirect block, with `balloc` where there is none. Each step keeps the
inode laid out and everything it held in place (`Grew`), and the block
`bmap` returns is the one the view reads (`bmap_grew`).

`balloc` and `log_write` can panic where the disk has no free block or the
transaction no room in the log; those are the only ways a write to a file
fails (`WritePanic`).
-/

namespace Xv6

namespace Fs

open StateExcept LEBytes

/-! ## `balloc` -/

/-- The panics of a write to a file: no free block on the disk (`balloc`), no
room for another block in the transaction's log, or no transaction
(`log_write`). -/
def WritePanic (e : Stop) : Prop :=
  e = .panic "balloc: out of blocks" ∨ e = .panic "too big a transaction" ∨
    e = .panic "log_write outside of trans"

/-- The bit `freeBit` finds is clear, below the disk's size and within the
bits it scanned. -/
theorem freeBit_eq_some {d : Block} {b size : Nat} :
    ∀ {fuel bi₀ bi : Nat}, freeBit d b size fuel bi₀ = some bi →
      bitSet d bi = false ∧ b + bi < size ∧ bi < bi₀ + fuel
  | 0, _, _, h => by cases h
  | fuel + 1, bi₀, bi, h => by
    unfold freeBit at h
    split at h
    · split at h
      · obtain ⟨hclear, hlt, hbi⟩ := freeBit_eq_some h
        exact ⟨hclear, hlt, by omega⟩
      · rename_i hlt hclear
        cases h
        exact ⟨by simpa using hclear, hlt, by omega⟩
    · cases h

/-- `log_write` changes only the log's list of blocks, and fails only with
a panic of `WritePanic`. -/
theorem logWrite_keeps {R : FsState → Prop} (hR : ∀ s (l : List Nat), R s → R { s with lh := l })
    (b : Nat) : Spec R (logWrite b) (fun _ => R) (fun e => ¬ WritePanic e) := by
  intro s hs
  rw [logWrite_run]
  by_cases hbig : s.lh.length ≥ LOGSIZE ∨ (s.lh.length : Int) ≥ (s.logsize : Int) - 1
  · rw [if_pos hbig]
    exact not_not.mpr (.inr (.inl rfl))
  · rw [if_neg hbig]
    by_cases hout : s.outstanding < 1
    · rw [if_pos hout]
      exact not_not.mpr (.inr (.inr rfl))
    · rw [if_neg hout]
      show R (if _ then _ else _)
      split
      · exact hs
      · exact hR _ _ hs

/-- The states that are `s₀` with the blocks `blocks` and any list of logged
blocks. -/
def WithBlocks (s₀ : FsState) (blocks : Nat → Block) (s : FsState) : Prop :=
  ∃ l, s = { s₀ with blocks, lh := l }

theorem withBlocks_lh {s₀ : FsState} {blocks : Nat → Block} (s : FsState) (l : List Nat)
    (h : WithBlocks s₀ blocks s) : WithBlocks s₀ blocks { s with lh := l } := by
  obtain ⟨l', rfl⟩ := h
  exact ⟨l, rfl⟩

theorem putBlock_withBlocks {s₀ : FsState} {blocks : Nat → Block} {bad : Stop → Prop}
    (b : Nat) (d : Block) :
    Spec (WithBlocks s₀ blocks) (putBlock b d)
      (fun _ => WithBlocks s₀ fun x => if x = b then d else blocks x) bad := by
  rintro s ⟨l, rfl⟩
  exact ⟨l, rfl⟩

theorem bzero_withBlocks {s₀ : FsState} {blocks : Nat → Block} (b : Nat) :
    Spec (WithBlocks s₀ blocks) (bzero b)
      (fun _ => WithBlocks s₀ fun x => if x = b then zeroBlock else blocks x)
      (fun e => ¬ WritePanic e) :=
  spec_bind (putBlock_withBlocks _ _) fun _ => logWrite_keeps withBlocks_lh b

theorem ballocScan_cons_run (b : Nat) (bs : List Nat) (s : FsState) :
    (ballocScan (b :: bs)).run s =
      (match freeBit (s.blocks (BBLOCK b s.sb)) b s.sb.size BPB 0 with
      | some bi => (do
          putBlock (BBLOCK b s.sb) (setBit (s.blocks (BBLOCK b s.sb)) bi)
          logWrite (BBLOCK b s.sb)
          bzero (b + bi)
          pure (b + bi) : FsM Nat)
      | none => ballocScan bs).run s := by
  rw [ballocScan]
  rfl

/-- The loop of `balloc` over bitmap blocks (each starting at a multiple of
`BPB`) allocates a block, or panics. -/
theorem ballocScan_alloc (s₀ : FsState) :
    ∀ bs : List Nat, (∀ b ∈ bs, b % BPB = 0) →
      Spec (· = s₀) (ballocScan bs) (fun b s => Alloc s₀ b s) (fun e => ¬ WritePanic e)
  | [], _ => spec_throw (not_not.mpr (.inl rfl))
  | b :: bs, hbs => by
    intro s hs
    subst hs
    rw [ballocScan_cons_run]
    rcases hfree : freeBit (s.blocks (BBLOCK b s.sb)) b s.sb.size BPB 0 with _ | bi
    · exact ballocScan_alloc s bs (fun x hx => hbs x (List.mem_cons_of_mem _ hx)) s rfl
    · obtain ⟨hclear, hlt, hbpb⟩ := freeBit_eq_some hfree
      -- the block found lies in the bitmap block of `b`, at bit `bi`
      have hb := hbs b List.mem_cons_self
      have hB : BBLOCK (b + bi) s.sb = BBLOCK b s.sb := by
        unfold BBLOCK BPB BSIZE at *; omega
      have hmod : (b + bi) % BPB = bi := by unfold BPB BSIZE at *; omega
      have hchain := spec_bind (@putBlock_withBlocks s s.blocks (fun e => ¬ WritePanic e)
        (BBLOCK b s.sb) (setBit (s.blocks (BBLOCK b s.sb)) bi))
        fun _ => spec_bind (logWrite_keeps withBlocks_lh (BBLOCK b s.sb)) fun _ =>
          spec_bind (bzero_withBlocks (b + bi)) fun _ => spec_pure_eq (b + bi)
      refine hchain.mono (fun x (h : x = s) => ⟨s.lh, h⟩) ?_ s rfl
      rintro _ _ ⟨rfl, l, rfl⟩
      refine ⟨hlt, ?_, l, ?_⟩
      · unfold bitOf
        rw [hB, hmod]
        exact hclear
      · rw [hB, hmod]

theorem bitmapStarts_mod (size : Nat) : ∀ b ∈ bitmapStarts size, b % BPB = 0 := by
  intro b hb
  obtain ⟨j, -, rfl⟩ := List.mem_map.mp hb
  exact Nat.mul_mod_left j BPB

theorem balloc_run (s : FsState) : balloc.run s = (ballocScan (bitmapStarts s.sb.size)).run s := by
  unfold balloc
  simp only [StateT.run_bind, StateT.run_get, pure_bind]

theorem balloc_alloc (s₀ : FsState) :
    Spec (· = s₀) balloc (fun b s => Alloc s₀ b s) (fun e => ¬ WritePanic e) := by
  intro s hs
  subst hs
  have h := ballocScan_alloc s _ (bitmapStarts_mod s.sb.size) s rfl
  rw [← balloc_run] at h
  exact h

/-! ## Recording a new block in the inode -/

section Record

variable {s : FsState} {ip : Inode} {b : Nat}

theorem getD_zeroBlock (i : Nat) : zeroBlock.getD i 0 = 0 := by
  rw [zeroBlock, List.getD_eq_getElem?_getD, List.getElem?_replicate]
  split <;> rfl

theorem getAddr_zeroBlock (j : Nat) : getAddr zeroBlock j = 0 := by
  have hbytes : getBytes zeroBlock (4 * j) 4 = List.replicate 4 0 := by
    simp only [getBytes, getD_zeroBlock]
    rfl
  rw [getAddr, getLE, hbytes]
  rfl

/-- The block map after `ip->addrs[bn] = b`, for a direct block. -/
theorem addrOf_setDirect (hlen : ip.addrs.length = NDIRECT + 1) {bn : Nat} (hbn : bn < NDIRECT)
    (blocks : Nat → Block) (bn' : Nat) :
    addrOf blocks { ip with addrs := ip.addrs.set bn b } bn' =
      if bn' = bn then b else addrOf blocks ip bn' := by
  have hind : (ip.addrs.set bn b).getD NDIRECT 0 = ip.addrs.getD NDIRECT 0 := by
    simp only [List.getD_eq_getElem?_getD, List.getElem?_set_ne (show bn ≠ NDIRECT by omega)]
  unfold addrOf
  dsimp only
  by_cases hlt : bn' < NDIRECT
  · rw [if_pos hlt, if_pos hlt]
    simp only [List.getD_eq_getElem?_getD, List.getElem?_set]
    by_cases he : bn' = bn
    · subst he
      rw [if_pos rfl, if_pos (by omega), if_pos rfl]
      rfl
    · rw [if_neg (Ne.symm he), if_neg he]
  · rw [if_neg hlt, if_neg hlt, if_neg (show bn' ≠ bn by omega), hind]

/-- The block map after `ip->addrs[NDIRECT] = b`, with `b` a zeroed block:
the new indirect block maps nothing yet. -/
theorem addrOf_setInd (hlen : ip.addrs.length = NDIRECT + 1) (h0 : ip.addrs.getD NDIRECT 0 = 0)
    {blocks : Nat → Block} (hb : b ≠ 0) (hzero : blocks b = zeroBlock) :
    addrOf blocks { ip with addrs := ip.addrs.set NDIRECT b } = addrOf blocks ip := by
  funext bn
  have hind : (ip.addrs.set NDIRECT b).getD NDIRECT 0 = b := by
    simp only [List.getD_eq_getElem?_getD, List.getElem?_set_self (show NDIRECT < ip.addrs.length by
      omega), Option.getD_some]
  unfold addrOf
  dsimp only
  by_cases hlt : bn < NDIRECT
  · rw [if_pos hlt, if_pos hlt]
    simp only [List.getD_eq_getElem?_getD, List.getElem?_set_ne (show NDIRECT ≠ bn by omega)]
  · rw [if_neg hlt, if_neg hlt, hind, h0, if_neg hb, if_pos rfl, hzero, getAddr_zeroBlock]

/-- The block map after entry `j` of the indirect block is set to `b`. -/
theorem addrOf_setEntry {blocks : Nat → Block} (hind : ip.addrs.getD NDIRECT 0 ≠ 0) {j : Nat}
    (hj : j < NINDIRECT) (hsize : (blocks (ip.addrs.getD NDIRECT 0)).length = BSIZE)
    (hb : b < 2 ^ 32) (bn : Nat) :
    addrOf (fun x => if x = ip.addrs.getD NDIRECT 0 then
        setAddr (blocks (ip.addrs.getD NDIRECT 0)) j b else blocks x) ip bn =
      if bn = NDIRECT + j then b else addrOf blocks ip bn := by
  unfold addrOf
  by_cases hlt : bn < NDIRECT
  · rw [if_pos hlt, if_pos hlt, if_neg (by omega)]
  · rw [if_neg hlt, if_neg hlt, if_neg hind, if_neg hind]
    dsimp only
    rw [if_pos rfl]
    by_cases he : bn = NDIRECT + j
    · rw [if_pos he, show bn - NDIRECT = j by omega]
      exact getAddr_setAddr_self (by rw [hsize]; unfold NINDIRECT at hj; unfold BSIZE at hj ⊢; omega) hb
    · rw [if_neg he, getAddr_setAddr_of_ne (by omega)]

/-- A fresh block is none of the inode's, and the indirect block is not
zero when it is one of the inode's. -/
theorem Fresh.ne_ind (h : Laid s ip) (hf : Fresh s ip b) : b ≠ ip.addrs.getD NDIRECT 0 := by
  intro he
  by_cases hind : ip.addrs.getD NDIRECT 0 = 0
  · exact hf.ne_zero h (he.trans hind)
  · exact hf.not_owns (he ▸ owns_ind hind)

theorem Fresh.ne_addrOf (hf : Fresh s ip b) {bn : Nat} (hbn : bn < MAXFILE)
    (hne : addrOf s.blocks ip bn ≠ 0) : addrOf s.blocks ip bn ≠ b :=
  fun he => hf.not_owns (he ▸ owns_addrOf hbn hne)

/-- The layout after a fresh block becomes block `bn₀` of the contents, the
inode's blocks keeping their places otherwise. -/
theorem Laid.extend {s' : FsState} {ip' : Inode} {bn₀ : Nat} (h : Laid s ip) (hf : Fresh s ip b)
    (hsb : s'.sb = s.sb) (hsized : ∀ x, (s'.blocks x).length = BSIZE)
    (hbits : ∀ x < s.sb.size, s'.blocks (BBLOCK x s.sb) = s.blocks (BBLOCK x s.sb))
    (hlen : ip'.addrs.length = NDIRECT + 1) (hinum : ip'.inum = ip.inum)
    (hindq : ip'.addrs.getD NDIRECT 0 = ip.addrs.getD NDIRECT 0)
    (hmap : ∀ bn, addrOf s'.blocks ip' bn = if bn = bn₀ then b else addrOf s.blocks ip bn) :
    Laid s' ip' := by
  have hbit : ∀ u < s.sb.size, bitOf s' u = bitOf s u := by
    intro u hu
    unfold bitOf
    rw [hsb, hbits u hu]
  refine ⟨hlen, hsized, hsb ▸ h.size_lt, ?_, ?_, ?_, ?_, hsb ▸ hinum ▸ h.iblock⟩
  · -- the new block is none of the old ones
    intro x y hx hy hne heq
    rw [hmap, hmap] at heq
    rw [hmap] at hne
    by_cases hxe : x = bn₀ <;> by_cases hye : y = bn₀
    · rw [hxe, hye]
    · rw [if_pos hxe, if_neg hye] at heq
      exact absurd heq.symm (hf.ne_addrOf hy (heq ▸ hf.ne_zero h))
    · rw [if_neg hxe, if_pos hye] at heq
      rw [if_neg hxe] at hne
      exact absurd heq (hf.ne_addrOf hx hne)
    · rw [if_neg hxe, if_neg hye] at heq
      rw [if_neg hxe] at hne
      exact h.inj x y hx hy hne heq
  · intro x hx hne
    rw [hindq, hmap]
    rw [hmap] at hne
    split
    · exact hf.ne_ind h
    · rename_i hxe
      rw [if_neg hxe] at hne
      exact h.ind_ne x hx hne
  · rintro u ⟨hu0, ⟨x, hx, rfl⟩ | rfl⟩
    · rw [hmap] at hu0 ⊢
      rw [hsb]
      split
      · exact ⟨hf.lt_size, (hbit b hf.lt_size).trans hf.used, hf.data⟩
      · rename_i hxe
        rw [if_neg hxe] at hu0
        obtain ⟨hlt, hset, hd⟩ := h.owned _ (owns_addrOf hx hu0)
        exact ⟨hlt, (hbit _ hlt).trans hset, hd⟩
    · rw [hindq] at hu0 ⊢
      obtain ⟨hlt, hset, hd⟩ := h.owned _ (owns_ind hu0)
      exact ⟨hsb ▸ hlt, (hbit _ hlt).trans hset, hsb ▸ hd⟩
  · intro u hu hclear
    rw [hsb] at hu ⊢
    exact h.free u hu ((hbit u hu).symm.trans hclear)

/-- The view after a fresh block becomes block `bn₀`, a hole before. -/
theorem Keeps.extend {s' : FsState} {ip' : Inode} {bn₀ : Nat}
    (hfields : ip' = { ip with addrs := ip'.addrs }) (hsb : s'.sb = s.sb)
    (hbn₀ : addrOf s.blocks ip bn₀ = 0)
    (hmap : ∀ bn, addrOf s'.blocks ip' bn = if bn = bn₀ then b else addrOf s.blocks ip bn)
    (hdata : ∀ bn < MAXFILE, addrOf s.blocks ip bn ≠ 0 →
      s'.blocks (addrOf s.blocks ip bn) = s.blocks (addrOf s.blocks ip bn)) :
    Keeps s ip s' ip' where
  fields := hfields
  sb := hsb
  block bn _ hne := by
    rw [hmap, if_neg]
    rintro rfl
    exact hne hbn₀
  bytes := hdata

/-- A new indirect block: zeroed, it maps nothing yet. -/
theorem Laid.setInd (h : Laid s ip) (hf : Fresh s ip b) (h0 : ip.addrs.getD NDIRECT 0 = 0) :
    Laid s { ip with addrs := ip.addrs.set NDIRECT b } ∧
      Keeps s ip s { ip with addrs := ip.addrs.set NDIRECT b } ∧
      (ip.addrs.set NDIRECT b).getD NDIRECT 0 = b := by
  have hmap := addrOf_setInd h.addrs_length h0 (hf.ne_zero h) hf.zero
  have hind : (ip.addrs.set NDIRECT b).getD NDIRECT 0 = b := by
    simp only [List.getD_eq_getElem?_getD, List.getElem?_set_self (show NDIRECT < ip.addrs.length by
      rw [h.addrs_length]; omega), Option.getD_some]
  refine ⟨⟨by rw [List.length_set]; exact h.addrs_length, h.sized, h.size_lt, ?_, ?_, ?_, h.free,
    h.iblock⟩, ⟨rfl, rfl, fun bn _ _ => congrFun hmap bn, fun _ _ _ => rfl⟩, hind⟩
  · rw [hmap]
    exact h.inj
  · intro bn hbn hne
    rw [hmap] at hne ⊢
    rw [hind]
    exact hf.ne_addrOf hbn hne
  · rintro u ⟨hu0, ⟨x, hx, rfl⟩ | rfl⟩
    · rw [hmap] at hu0 ⊢
      exact h.owned _ (owns_addrOf hx hu0)
    · rw [hind]
      exact ⟨hf.lt_size, hf.used, hf.data⟩

/-- Entry `j` of the indirect block set to a fresh block. -/
theorem Laid.setEntry {s' : FsState} (h : Laid s ip) (hf : Fresh s ip b)
    (hind : ip.addrs.getD NDIRECT 0 ≠ 0) {j : Nat} (hj : j < NINDIRECT)
    (h0 : getAddr (s.blocks (ip.addrs.getD NDIRECT 0)) j = 0)
    (hs' : s'.blocks = fun x => if x = ip.addrs.getD NDIRECT 0 then
      setAddr (s.blocks (ip.addrs.getD NDIRECT 0)) j b else s.blocks x) (hsb : s'.sb = s.sb) :
    Laid s' ip ∧ Keeps s ip s' ip ∧ addrOf s'.blocks ip (NDIRECT + j) = b := by
  have hmap := addrOf_setEntry (b := b) hind hj (h.sized _)
    (by have := hf.lt_size; have := h.size_lt; omega)
  rw [← hs'] at hmap
  have hbn₀ : addrOf s.blocks ip (NDIRECT + j) = 0 := by
    rw [addrOf, if_neg (by omega), if_neg hind, Nat.add_sub_cancel_left]
    exact h0
  have hdata := h.ind_owned hind
  refine ⟨h.extend hf hsb ?_ ?_ h.addrs_length rfl rfl hmap, Keeps.extend rfl hsb hbn₀ hmap ?_, ?_⟩
  · intro x
    rw [hs']
    dsimp only
    split
    · rw [length_setAddr]
      exact h.sized _
    · exact h.sized _
  · intro x hx
    rw [hs']
    dsimp only
    rw [if_neg (by have := (bblock_lt_dataStart hx).2; omega)]
  · intro bn hbn hne
    rw [hs']
    dsimp only
    rw [if_neg (h.ind_ne bn hbn hne)]
  · rw [hmap, if_pos rfl]

end Record

/-! ## `bmap` -/

/-- The inode `i` of `s'` is `ip'`: laid out, and holding what `ip` held in
`s`. -/
def Grew (i : Nat) (s : FsState) (ip : Inode) (s' : FsState) (ip' : Inode) : Prop :=
  s'.inodes[i]? = some ip' ∧ Laid s' ip' ∧ Keeps s ip s' ip'

section Bmap

variable {i : Nat} {s : FsState} {ip ip₁ : Inode}

theorem Grew.refl (hin : s.inodes[i]? = some ip) (h : Laid s ip) : Grew i s ip s ip :=
  ⟨hin, h, Keeps.refl s ip⟩

theorem getElem?_modifyInode {s : FsState} {f : Inode → Inode} (hin : s.inodes[i]? = some ip₁) :
    (s.inodes.modify i f)[i]? = some (f ip₁) := by
  rw [List.getElem?_modify_eq, hin]
  rfl

theorem getInode_grew :
    Spec (fun s' => Grew i s ip s' ip₁) (getInode i) (fun ip' s' => ip' = ip₁ ∧ Grew i s ip s' ip₁)
      (fun e => ¬ WritePanic e) := by
  intro s' hs'
  rw [getInode_run hs'.1]
  exact ⟨rfl, hs'⟩

/-- `balloc` keeps the inode and its block map, and hands out a fresh
block. -/
theorem balloc_grew {M : Nat → Nat} :
    Spec (fun s' => Grew i s ip s' ip₁ ∧ addrOf s'.blocks ip₁ = M) balloc
      (fun b s' => (Grew i s ip s' ip₁ ∧ addrOf s'.blocks ip₁ = M) ∧ Fresh s' ip₁ b)
      (fun e => ¬ WritePanic e) :=
  spec_of_forall fun s₁ ⟨⟨hin, hL, hK⟩, hM⟩ => (balloc_alloc s₁).mono (fun _ h => h) fun b s' ha => by
    obtain ⟨hL', hF, hK', hinodes, hmap⟩ := hL.alloc ha
    exact ⟨⟨⟨hinodes ▸ hin, hL', hK.trans hK'⟩, hmap.trans hM⟩, hF⟩

theorem setDirect_grew {bn b : Nat} (hbn : bn < NDIRECT) (h0 : ip₁.addrs.getD bn 0 = 0) :
    Spec (fun s' => Grew i s ip s' ip₁ ∧ Fresh s' ip₁ b)
      (modifyInode i fun ip => { ip with addrs := ip.addrs.set bn b })
      (fun _ s' => Grew i s ip s' { ip₁ with addrs := ip₁.addrs.set bn b } ∧
        addrOf s'.blocks { ip₁ with addrs := ip₁.addrs.set bn b } bn = b ∧ b ≠ 0)
      (fun e => ¬ WritePanic e) := by
  rintro s₁ ⟨⟨hin, hL, hK⟩, hF⟩
  have hmap := addrOf_setDirect (b := b) hL.addrs_length hbn s₁.blocks
  have hbn₀ : addrOf s₁.blocks ip₁ bn = 0 := by
    rw [addrOf, if_pos hbn]
    exact h0
  have hind : (ip₁.addrs.set bn b).getD NDIRECT 0 = ip₁.addrs.getD NDIRECT 0 := by
    simp only [List.getD_eq_getElem?_getD, List.getElem?_set_ne (show bn ≠ NDIRECT by omega)]
  refine ⟨⟨getElem?_modifyInode hin, ?_, hK.trans ?_⟩, ?_, hF.ne_zero hL⟩
  · exact hL.extend hF rfl hL.sized (fun _ _ => rfl)
      (by rw [List.length_set]; exact hL.addrs_length) rfl hind hmap
  · exact Keeps.extend rfl rfl hbn₀ hmap fun _ _ _ => rfl
  · show addrOf s₁.blocks _ bn = b
    rw [hmap, if_pos rfl]

theorem setInd_grew {b : Nat} (h0 : ip₁.addrs.getD NDIRECT 0 = 0) :
    Spec (fun s' => Grew i s ip s' ip₁ ∧ Fresh s' ip₁ b)
      (modifyInode i fun ip => { ip with addrs := ip.addrs.set NDIRECT b })
      (fun _ s' => Grew i s ip s' { ip₁ with addrs := ip₁.addrs.set NDIRECT b } ∧
        (ip₁.addrs.set NDIRECT b).getD NDIRECT 0 = b ∧ b ≠ 0)
      (fun e => ¬ WritePanic e) := by
  rintro s₁ ⟨⟨hin, hL, hK⟩, hF⟩
  obtain ⟨hL', hK', hind⟩ := hL.setInd hF h0
  exact ⟨⟨getElem?_modifyInode hin, hL'.of_blocks rfl rfl, (hK.trans hK').of_blocks rfl rfl⟩,
    hind, hF.ne_zero hL⟩

theorem Grew.of_blocks {s₁ s₂ : FsState} {ip' : Inode} (h : Grew i s ip s₁ ip')
    (hin : s₂.inodes = s₁.inodes) (hb : s₂.blocks = s₁.blocks) (hsb : s₂.sb = s₁.sb) :
    Grew i s ip s₂ ip' :=
  ⟨hin ▸ h.1, h.2.1.of_blocks hb hsb, h.2.2.of_blocks hb hsb⟩

/-- Entry `j` of the indirect block `ind`, a hole, set to a fresh block. -/
theorem setEntry_grew {ind j b : Nat} (hj : j < NINDIRECT) :
    Spec (fun s' => Grew i s ip s' ip₁ ∧ Fresh s' ip₁ b ∧ ip₁.addrs.getD NDIRECT 0 = ind ∧
        ind ≠ 0 ∧ getAddr (s'.blocks ind) j = 0)
      (do
        putBlock ind (setAddr (← bread ind) j b)
        logWrite ind
        pure b)
      (fun a s' => ∃ ip', Grew i s ip s' ip' ∧ a ≠ 0 ∧ addrOf s'.blocks ip' (NDIRECT + j) = a)
      (fun e => ¬ WritePanic e) := by
  refine spec_of_forall fun s₂ ⟨⟨hin, hL, hK⟩, hF, hind, hne, h0⟩ => ?_
  subst hind
  refine spec_bind (R := fun d s' => d = s₂.blocks (ip₁.addrs.getD NDIRECT 0) ∧ s' = s₂)
    (fun s' hs' => by subst hs'; exact ⟨rfl, rfl⟩) fun d => Spec.of_fact fun hd => ?_
  subst hd
  refine spec_bind (R := fun _ s' => Grew i s ip s' ip₁ ∧ addrOf s'.blocks ip₁ (NDIRECT + j) = b)
    (fun s' hs' => by
      subst hs'
      obtain ⟨hL', hK', hmap⟩ := @Laid.setEntry s' ip₁ b { s' with
          blocks := fun x => if x = ip₁.addrs.getD NDIRECT 0 then
              setAddr (s'.blocks (ip₁.addrs.getD NDIRECT 0)) j b
            else s'.blocks x }
        hL hF hne j hj h0 rfl rfl
      exact ⟨⟨hin, hL', hK.trans hK'⟩, hmap⟩) fun _ => ?_
  refine spec_bind (logWrite_keeps (fun _ _ h => ⟨h.1.of_blocks rfl rfl rfl, h.2⟩) _) fun _ => ?_
  exact (spec_pure_eq b).mono (fun _ h => h) fun a s' ⟨ha, hG, hb⟩ =>
    ⟨ip₁, hG, ha ▸ hF.ne_zero hL, ha ▸ hb⟩

/-- The second half of `bmap`: entry `j` of the indirect block `ind`,
allocated if it is a hole. -/
theorem bmapIndirect_grew {ind j : Nat} (hj : j < NINDIRECT) :
    Spec (fun s' => ∃ ip₂, Grew i s ip s' ip₂ ∧ ip₂.addrs.getD NDIRECT 0 = ind ∧ ind ≠ 0)
      (do
        let d ← bread ind
        if getAddr d j == 0 then
          let addr ← balloc
          putBlock ind (setAddr (← bread ind) j addr)
          logWrite ind
          pure addr
        else pure (getAddr d j))
      (fun addr s' => ∃ ip', Grew i s ip s' ip' ∧ addr ≠ 0 ∧ addrOf s'.blocks ip' (NDIRECT + j) = addr)
      (fun e => ¬ WritePanic e) := by
  refine spec_exists fun ip₂ => spec_of_forall fun s₁ ⟨hG, hind, hne⟩ => ?_
  -- the entry, as `bmap` reads it
  have hentry : ∀ blocks : Nat → Block,
      addrOf blocks ip₂ (NDIRECT + j) = getAddr (blocks ind) j := by
    intro blocks
    rw [addrOf, if_neg (by omega), hind, if_neg hne, Nat.add_sub_cancel_left]
  refine spec_bind (R := fun d s' => d = s₁.blocks ind ∧ s' = s₁)
    (fun s' hs' => by subst hs'; exact ⟨rfl, rfl⟩) fun d => Spec.of_fact fun hd => ?_
  subst hd
  split
  · rename_i h0
    -- a hole: `balloc` keeps it one, then the entry is set
    refine spec_bind ((balloc_grew (M := addrOf s₁.blocks ip₂)).mono
      (fun s' hs' => by subst hs'; exact ⟨hG, rfl⟩) fun _ _ h => h) fun b => ?_
    refine (@setEntry_grew i s ip ip₂ ind j b hj).mono ?_ fun _ _ h => h
    rintro s' ⟨⟨hG', hM⟩, hF⟩
    refine ⟨hG', hF, hind, hne, ?_⟩
    rw [← hentry, hM, hentry]
    simpa using h0
  · rename_i h0
    refine (spec_pure_eq _).mono (fun s' hs' => hs') fun a s' ⟨ha, hs'⟩ => ?_
    subst hs'
    exact ⟨ip₂, hG, by simpa [ha] using h0, by rw [ha, hentry]⟩

theorem bmap_grew {bn : Nat} (hbn : bn < MAXFILE) :
    Spec (fun s' => Grew i s ip s' ip₁) (bmap i bn)
      (fun addr s' => ∃ ip', Grew i s ip s' ip' ∧ addr ≠ 0 ∧ addrOf s'.blocks ip' bn = addr)
      (fun e => ¬ WritePanic e) := by
  unfold bmap
  refine spec_bind getInode_grew fun ip' => Spec.of_fact fun hip' => ?_
  subst ip'
  dsimp only
  split
  · -- a direct block
    rename_i hdir
    have hblock : ∀ blocks : Nat → Block, addrOf blocks ip₁ bn = ip₁.addrs.getD bn 0 := by
      intro blocks
      rw [addrOf, if_pos hdir]
    split
    · rename_i h0
      refine spec_of_forall fun s₁ hG => ?_
      refine spec_bind ((balloc_grew (M := addrOf s₁.blocks ip₁)).mono
        (fun s' hs' => by subst hs'; exact ⟨hG, rfl⟩) fun _ _ h => h) fun b => ?_
      refine spec_bind ((setDirect_grew hdir (by simpa using h0)).mono
        (fun s' h => ⟨h.1.1, h.2⟩) fun _ _ h => h) fun _ => ?_
      exact (spec_pure_eq b).mono (fun _ h => h) fun a s' ⟨ha, hG', hb, hb0⟩ =>
        ⟨_, hG', ha ▸ hb0, ha ▸ hb⟩
    · rename_i h0
      refine (spec_pure_eq _).mono (fun s' hs' => hs') fun a s' ⟨ha, hG⟩ => ?_
      exact ⟨ip₁, hG, by simpa [ha] using h0, by rw [ha, hblock]⟩
  · split
    · rename_i hdir hind
      have hbn' : NDIRECT + (bn - NDIRECT) = bn := by omega
      split
      · rename_i h0
        refine spec_of_forall fun s₁ hG => ?_
        refine spec_bind ((balloc_grew (M := addrOf s₁.blocks ip₁)).mono
          (fun s' hs' => by subst hs'; exact ⟨hG, rfl⟩) fun _ _ h => h) fun b => ?_
        refine spec_bind ((setInd_grew (by simpa using h0)).mono
          (fun s' h => ⟨h.1.1, h.2⟩) fun _ _ h => h) fun _ => ?_
        refine spec_bind (spec_pure_eq b) fun ind => ?_
        refine ((@bmapIndirect_grew i s ip ind (bn - NDIRECT) hind).mono ?_ ?_)
        · rintro s' ⟨rfl, hG', hb, hb0⟩
          exact ⟨_, hG', hb, hb0⟩
        · rintro a s' ⟨ip', hG', ha, hb⟩
          exact ⟨ip', hG', ha, hbn' ▸ hb⟩
      · rename_i h0
        refine spec_bind (spec_pure_eq _) fun ind => ?_
        refine ((@bmapIndirect_grew i s ip ind (bn - NDIRECT) hind).mono ?_ ?_)
        · rintro s' ⟨rfl, hG'⟩
          exact ⟨ip₁, hG', rfl, by simpa using h0⟩
        · rintro a s' ⟨ip', hG', ha, hb⟩
          exact ⟨ip', hG', ha, hbn' ▸ hb⟩
    · rename_i hdir hind
      exact absurd (by unfold MAXFILE at hbn; omega) hind

end Bmap

end Fs

end Xv6
