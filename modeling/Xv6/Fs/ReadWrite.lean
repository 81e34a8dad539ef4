import Xv6.Fs.Bmap
import Xv6.Fs.Bracket
import Xv6.Library.StateExcept

/-!
# `readi` and `writei` on the byte array

On a sound inode (laid out, at most `MAXFILE` blocks long, without holes),
with every copy succeeding:

- `readi_run`: `readi` returns `arrayRead` of the contents and changes
  nothing;
- `writei_written`: an accepted `writei` returns its count and leaves a
  sound inode holding `arrayWrite` of the contents, or panics as
  `WritePanic` says; the loop is carried by `WrittenAt`, where it stands
  after each block;
- `inode_refines_array`: the two together, within a transaction, where
  the only panics left are the full disk and the full log.
-/

namespace Xv6

namespace Fs

open StateExcept LEBytes

/-! ## `readi` -/

section Read

variable {i : Nat} {s : FsState} {ip : Inode}

theorem bread_run (b : Nat) (s : FsState) : (bread b).run s = .ok (s.blocks b, s) := rfl

/-- `bmap` of an allocated block finds it and changes nothing. -/
theorem bmap_mapped {bn : Nat} (hin : s.inodes[i]? = some ip) (hbn : bn < MAXFILE)
    (hne : addrOf s.blocks ip bn ≠ 0) : (bmap i bn).run s = .ok (addrOf s.blocks ip bn, s) := by
  unfold bmap
  rw [run_bind_of_run (getInode_run hin)]
  dsimp only
  by_cases hdir : bn < NDIRECT
  · have hb : addrOf s.blocks ip bn = ip.addrs.getD bn 0 := by rw [addrOf, if_pos hdir]
    rw [hb] at hne ⊢
    rw [if_pos hdir, if_neg (by simpa using hne)]
    rfl
  · -- through the indirect block, which is there
    have hind : ip.addrs.getD NDIRECT 0 ≠ 0 := by
      intro h
      apply hne
      rw [addrOf, if_neg hdir, if_pos h]
    have hb : addrOf s.blocks ip bn =
        getAddr (s.blocks (ip.addrs.getD NDIRECT 0)) (bn - NDIRECT) := by
      rw [addrOf, if_neg hdir, if_neg hind]
    rw [hb] at hne ⊢
    rw [if_neg hdir, if_pos (by unfold MAXFILE at hbn; omega), if_neg (by simpa using hind)]
    simp only [pure_bind]
    rw [run_bind_of_run (bread_run _ _), if_neg (by simpa using hne)]
    rfl

/-- The loop of `readi` over the blocks of a file without holes, every copy
succeeding: the `n - tot` bytes of the view from `off`, the state unchanged. -/
theorem readiLoop_run {dstOk : Nat → Nat → Bool} (hin : s.inodes[i]? = some ip)
    (hsize : ip.size ≤ MAXFILE * BSIZE) (hfilled : Filled s.blocks ip ip.size)
    (hdst : ∀ t m, dstOk t m = true) :
    ∀ fuel off tot n, n - tot ≤ fuel → off + (n - tot) ≤ ip.size →
      (readiLoop i dstOk fuel off tot n).run s =
        .ok ((List.range (n - tot)).map (fun j => byteAt s.blocks ip (off + j)), s)
  | 0, off, tot, n, hfuel, _ => by
    rw [show n - tot = 0 by omega]
    rfl
  | fuel + 1, off, tot, n, hfuel, hend => by
    unfold readiLoop
    by_cases htot : tot < n
    · rw [if_pos htot]
      -- the block of `off` lies below the end of the file
      have hblock : off / BSIZE * BSIZE ≤ off := Nat.div_mul_le_self off BSIZE
      have hbn : off / BSIZE < MAXFILE := by
        unfold MAXFILE NINDIRECT NDIRECT BSIZE at *
        omega
      have hne : addrOf s.blocks ip (off / BSIZE) ≠ 0 := hfilled _ (by omega)
      rw [run_bind_of_run (bmap_mapped hin hbn hne), run_bind_of_run (bread_run _ _)]
      dsimp only
      rw [if_pos (hdst _ _)]
      have hm : min (n - tot) (BSIZE - off % BSIZE) ≤ BSIZE - off % BSIZE := Nat.min_le_right ..
      have hpos : 0 < min (n - tot) (BSIZE - off % BSIZE) := by
        have := Nat.mod_lt off (show 0 < BSIZE by decide)
        omega
      rw [run_bind_of_run (readiLoop_run hin hsize hfilled hdst fuel _ _ n (by omega) (by omega)),
        getBytes_block hm]
      -- this block's bytes, then the rest
      have hm₁ : min (n - tot) (BSIZE - off % BSIZE) ≤ n - tot := Nat.min_le_left ..
      generalize min (n - tot) (BSIZE - off % BSIZE) = m at hm hm₁ hpos ⊢
      rw [show n - tot = m + (n - (tot + m)) by omega, List.range_add, List.map_append,
        List.map_map]
      simp only [Function.comp_def, Nat.add_assoc]
      rfl
    · rw [if_neg htot, show n - tot = 0 by omega]
      rfl

/-- **`readi` reads the byte array.** On a file without holes, at most
`MAXFILE` blocks long, with every copy succeeding, `readi` returns the bytes
`arrayRead` gives and changes nothing: no block is allocated, so it cannot
panic. -/
theorem readi_run {dstOk : Nat → Nat → Bool} (hin : s.inodes[i]? = some ip)
    (hsize : ip.size ≤ MAXFILE * BSIZE) (hfilled : Filled s.blocks ip ip.size)
    (hdst : ∀ t m, dstOk t m = true) (off n : Nat) :
    (readi i dstOk off n).run s = .ok (arrayRead (content s.blocks ip) off n, s) := by
  unfold readi
  rw [run_bind_of_run (getInode_run hin)]
  dsimp only
  have hlen : (content s.blocks ip).length = ip.size := by simp [content]
  by_cases hbad : ip.size < off ∨ (off + n) % 2 ^ 32 < off
  · rw [if_pos (by simpa using hbad), arrayRead,
      if_pos (show (content s.blocks ip).length < off ∨ _ by rw [hlen]; exact hbad)]
    rfl
  · rw [if_neg (by simpa using hbad), arrayRead,
      if_neg (show ¬((content s.blocks ip).length < off ∨ _) by rw [hlen]; exact hbad)]
    -- the count is clamped to the end of the file
    have hclamp : ∀ m, off + m ≤ ip.size → ((content s.blocks ip).drop off).take n =
        ((content s.blocks ip).drop off).take m → (readiLoop i dstOk m off 0 m).run s =
          .ok (((content s.blocks ip).drop off).take n, s) := by
      intro m hm htake
      rw [readiLoop_run hin hsize hfilled hdst m off 0 m (by omega) (by omega), Nat.sub_zero, htake,
        take_drop_content hm]
    split
    · exact hclamp _ (by omega) (by
        rw [List.take_of_length_le (by simp [hlen]; omega),
          List.take_of_length_le (by simp [hlen])])
    · exact hclamp _ (by omega) rfl

end Read

/-! ## `writei` -/

section Write

variable {i : Nat} {ip₀ : Inode} {c data : List UInt8} {off₀ : Nat}

/-- Where the loop of `writei` stands after `tot` of the bytes `data`, written
at `off₀` over the contents `c` of the inode `ip₀`: the inode `i` of `s` is
`ip`, laid out, with the fields of `ip₀` but its address list, allocated up
to where the array now ends, and reading as `c` with `tot` bytes written. -/
structure WrittenAt (i : Nat) (ip₀ : Inode) (c : List UInt8) (off₀ : Nat) (data : List UInt8)
    (tot : Nat) (s : FsState) (ip : Inode) : Prop where
  inode : s.inodes[i]? = some ip
  laid : Laid s ip
  fields : ip = { ip₀ with addrs := ip.addrs }
  filled : Filled s.blocks ip (max c.length (off₀ + tot))
  bytes : ∀ k < max c.length (off₀ + tot),
    byteAt s.blocks ip k = (arrayWrite c off₀ (data.take tot)).getD k 0

def Written (i : Nat) (ip₀ : Inode) (c : List UInt8) (off₀ : Nat) (data : List UInt8) (tot : Nat)
    (s : FsState) : Prop :=
  ∃ ip, WrittenAt i ip₀ c off₀ data tot s ip

/-- Before the loop nothing is written. -/
theorem writtenAt_zero {s : FsState} (hin : s.inodes[i]? = some ip₀) (hsound : Sound s ip₀)
    (hoff : off₀ ≤ ip₀.size) :
    WrittenAt i ip₀ (content s.blocks ip₀) off₀ data 0 s ip₀ where
  inode := hin
  laid := hsound.laid
  fields := rfl
  filled := by
    simpa [content, show max ip₀.size off₀ = ip₀.size by omega] using hsound.filled
  bytes k hk := by
    have hlen : (content s.blocks ip₀).length = ip₀.size := by simp [content]
    rw [List.take_zero, getD_arrayWrite (by omega), if_neg (by simp), List.getD_eq_getElem?_getD,
      content, List.getElem?_map, List.getElem?_range (by simp [hlen] at hk; omega)]
    rfl

/-- What `bmap` leaves keeps the loop's place. -/
theorem WrittenAt.grew {tot : Nat} {s s' : FsState} {ip ip' : Inode}
    (h : WrittenAt i ip₀ c off₀ data tot s ip) (hg : Grew i s ip s' ip')
    (hbound : max c.length (off₀ + tot) ≤ MAXFILE * BSIZE) :
    WrittenAt i ip₀ c off₀ data tot s' ip' where
  inode := hg.1
  laid := hg.2.1
  fields := by rw [hg.2.2.fields, h.fields]
  filled := hg.2.2.filled hbound h.filled
  bytes k hk := by
    have hkb : k / BSIZE < MAXFILE := by unfold MAXFILE NINDIRECT NDIRECT BSIZE at *; omega
    have hne := h.filled (k / BSIZE) (by
      have := Nat.div_mul_le_self k BSIZE
      omega)
    rw [hg.2.2.byteAt hkb hne, h.bytes k hk]

theorem WrittenAt.lh {tot : Nat} {s : FsState} {ip : Inode} (h : WrittenAt i ip₀ c off₀ data tot s ip)
    (l : List Nat) : WrittenAt i ip₀ c off₀ data tot { s with lh := l } ip :=
  ⟨h.inode, h.laid.of_blocks rfl rfl, h.fields, h.filled, h.bytes⟩

/-- A write into a block of the contents, keeping the block's length, keeps
the layout and the block map: the block is neither the indirect block nor
in the bitmap. -/
theorem Laid.write_block {s : FsState} {ip : Inode} {bn : Nat} {d : Block} (h : Laid s ip)
    (hbn : bn < MAXFILE) (hne : addrOf s.blocks ip bn ≠ 0) (hd : d.length = BSIZE) :
    Laid { s with blocks := fun x => if x = addrOf s.blocks ip bn then d else s.blocks x } ip ∧
      addrOf (fun x => if x = addrOf s.blocks ip bn then d else s.blocks x) ip = addrOf s.blocks ip := by
  have hdata := (h.owned _ (owns_addrOf hbn hne)).2.2
  have hmap : addrOf (fun x => if x = addrOf s.blocks ip bn then d else s.blocks x) ip =
      addrOf s.blocks ip :=
    addrOf_of_ind (if_neg (Ne.symm (h.ind_ne bn hbn hne)))
  refine ⟨h.of_agree rfl ?_ hmap ?_, hmap⟩
  · intro x
    dsimp only
    split
    · exact hd
    · exact h.sized _
  · intro x hx
    dsimp only
    rw [if_neg (by have := (bblock_lt_dataStart hx).2; omega)]

/-- One turn of the loop: the `m` bytes from `tot` on stored into the block
of `off₀ + tot`. -/
theorem WrittenAt.turn {tot m addr : Nat} {s : FsState} {ip : Inode}
    (h : WrittenAt i ip₀ c off₀ data tot s ip) (hoff : off₀ ≤ c.length)
    (hc : c.length ≤ MAXFILE * BSIZE) (hend : off₀ + data.length ≤ MAXFILE * BSIZE)
    (htm : tot + m ≤ data.length) (hm0 : 0 < m) (hm : m ≤ BSIZE - (off₀ + tot) % BSIZE)
    (haddr : addrOf s.blocks ip ((off₀ + tot) / BSIZE) = addr) (haddr0 : addr ≠ 0) :
    WrittenAt i ip₀ c off₀ data (tot + m)
      { s with blocks := fun x => if x = addr then
          setBytes (s.blocks addr) ((off₀ + tot) % BSIZE) ((data.drop tot).take m) else s.blocks x }
      ip := by
  have hL := h.laid
  have hbn : (off₀ + tot) / BSIZE < MAXFILE := by
    unfold MAXFILE NINDIRECT NDIRECT BSIZE at *
    omega
  have hne : addrOf s.blocks ip ((off₀ + tot) / BSIZE) ≠ 0 := haddr ▸ haddr0
  have hind : addr ≠ ip.addrs.getD NDIRECT 0 := haddr ▸ hL.ind_ne _ hbn hne
  have hlen : ((data.drop tot).take m).length = m := by
    simp only [List.length_take, List.length_drop]
    omega
  obtain ⟨hL', hmap⟩ := hL.write_block hbn hne
    (d := setBytes (s.blocks addr) ((off₀ + tot) % BSIZE) ((data.drop tot).take m))
    (by rw [length_setBytes]; exact hL.sized _)
  rw [haddr] at hL' hmap
  refine ⟨h.inode, hL', h.fields, ?_, ?_⟩
  · -- past what was allocated lies only the block of `off₀ + tot`
    intro bn hbn'
    show addrOf _ ip bn ≠ 0
    rw [hmap]
    by_cases hlt : bn * BSIZE < max c.length (off₀ + tot)
    · exact h.filled bn hlt
    · have hbe : bn = (off₀ + tot) / BSIZE := by
        unfold BSIZE at *
        omega
      rw [hbe]
      exact hne
  · intro k hk
    have hkb : k / BSIZE < MAXFILE := by unfold MAXFILE NINDIRECT NDIRECT BSIZE at *; omega
    -- another block of the contents is another disk block
    have hother : k / BSIZE ≠ (off₀ + tot) / BSIZE → addrOf s.blocks ip (k / BSIZE) ≠ addr := by
      intro hk' he
      by_cases h0 : addrOf s.blocks ip (k / BSIZE) = 0
      · exact haddr0 (he ▸ h0)
      · exact hk' (hL.inj _ _ hkb hbn h0 (he.trans haddr.symm))
    show byteAt (fun x => _) ip k = _
    rw [byteAt_write haddr (hL.sized _) hind (by rw [hlen]; exact hm) hother, hlen,
      getD_arrayWrite_take hoff htm]
    split
    · rename_i hr
      rw [List.getD_eq_getElem?_getD, List.getD_eq_getElem?_getD, List.getElem?_take_of_lt (by omega),
        List.getElem?_drop, show tot + (k - (off₀ + tot)) = k - off₀ by omega]
    · exact h.bytes k (by omega)

/-- The loop of `writei`, every copy succeeding, writes the rest of `data`
from `tot` on, and returns where it ended; it fails only with a panic of the
allocator or of the log. -/
theorem writeiLoop_written {src : CopySrc}
    (hsrc : ∀ t m, t + m ≤ data.length → src t m = .ok ((data.drop t).take m))
    (hoff : off₀ ≤ c.length) (hc : c.length ≤ MAXFILE * BSIZE)
    (hend : off₀ + data.length ≤ MAXFILE * BSIZE) :
    ∀ fuel tot, data.length - tot ≤ fuel → tot ≤ data.length →
      Spec (Written i ip₀ c off₀ data tot) (writeiLoop i src fuel (off₀ + tot) tot data.length)
        (fun r s => r = off₀ + data.length ∧ Written i ip₀ c off₀ data data.length s)
        (fun e => ¬ WritePanic e) := by
  intro fuel
  induction fuel with
  | zero =>
    intro tot hfuel htot
    have htot' : tot = data.length := by omega
    subst htot'
    exact spec_pure_eq _
  | succ fuel ih =>
    intro tot hfuel htot
    rw [writeiLoop]
    split
    · rename_i hlt
      have hbn : (off₀ + tot) / BSIZE < MAXFILE := by
        unfold MAXFILE NINDIRECT NDIRECT BSIZE at *
        omega
      refine spec_exists fun ip => spec_of_forall fun s₁ hW => ?_
      -- `bmap` finds or allocates the block of `off₀ + tot`
      refine spec_bind (R := fun addr s₂ => ∃ ip', WrittenAt i ip₀ c off₀ data tot s₂ ip' ∧
          addr ≠ 0 ∧ addrOf s₂.blocks ip' ((off₀ + tot) / BSIZE) = addr)
        ((@bmap_grew i s₁ ip ip _ hbn).mono (fun s hs => by subst hs; exact Grew.refl hW.inode hW.laid)
          fun addr s₂ ⟨ip', hG, ha0, ha⟩ => ⟨ip', hW.grew hG (by omega), ha0, ha⟩) fun addr => ?_
      refine spec_exists fun ip' => spec_of_forall fun s₂ ⟨hW', ha0, haddr⟩ => ?_
      refine spec_bind (R := fun d s => d = s₂.blocks addr ∧ s = s₂)
        (fun s hs => by subst hs; exact ⟨rfl, rfl⟩) fun d => Spec.of_fact fun hd => ?_
      subst hd
      dsimp only
      generalize hm : min (data.length - tot) (BSIZE - (off₀ + tot) % BSIZE) = m
      have hm0 : 0 < m := by
        have := Nat.mod_lt (off₀ + tot) (show 0 < BSIZE by decide)
        omega
      rw [hsrc tot m (by omega)]
      refine spec_bind (R := fun _ s => WrittenAt i ip₀ c off₀ data (tot + m) s ip')
        (fun s hs => by
          subst hs
          exact hW'.turn hoff hc hend (by omega) hm0 (by omega) haddr ha0) fun _ => ?_
      refine spec_bind (logWrite_keeps (fun s l h => h.lh l) addr) fun _ => ?_
      rw [Nat.add_assoc]
      exact (ih (tot + m) (by omega) (by omega)).mono (fun s h => ⟨ip', h⟩) fun _ _ h => h
    · rename_i hge
      have htot' : tot = data.length := by omega
      subst htot'
      exact spec_pure_eq _

/-- The block holding the inode on disk lies before the bitmap, so a write
there keeps the layout and every byte of the contents. -/
theorem Laid.of_iblock {s s' : FsState} {ip : Inode} (h : Laid s ip) (hsb : s'.sb = s.sb)
    (hsized : ∀ b, (s'.blocks b).length = BSIZE)
    (hblocks : ∀ x, x ≠ IBLOCK ip.inum s.sb → s'.blocks x = s.blocks x) :
    Laid s' ip ∧ Keeps s ip s' ip := by
  have hne : ∀ b, Owns s.blocks ip b → b ≠ IBLOCK ip.inum s.sb := by
    intro b hb
    have := (h.owned b hb).2.2
    have := h.iblock
    unfold dataStart BPB BSIZE at *
    omega
  have hmap : addrOf s'.blocks ip = addrOf s.blocks ip :=
    addrOf_congr fun b hb => hblocks b (hne b hb)
  refine ⟨h.of_agree hsb hsized hmap fun x hx => hblocks _ ?_,
    ⟨rfl, hsb, fun bn _ _ => by rw [hmap], fun bn hbn h0 => ?_⟩⟩
  · have := (bblock_lt_dataStart hx).1
    have := h.iblock
    omega
  · exact hblocks _ (hne _ (owns_addrOf hbn h0))

/-- The layout does not depend on the size. -/
theorem Laid.with_size {s : FsState} {ip : Inode} (h : Laid s ip) (n : Nat) :
    Laid s { ip with size := n } :=
  ⟨h.addrs_length, h.sized, h.size_lt, h.inj, h.ind_ne, h.owned, h.free, h.iblock⟩

/-- `iupdate` writes the inode into its own block on disk, keeping the
block's length, and changes nothing else. -/
theorem iupdate_writes {s₁ : FsState} {ip : Inode} (hin : s₁.inodes[i]? = some ip) :
    Spec (· = s₁) (iupdate i)
      (fun _ s' => s'.inodes = s₁.inodes ∧ s'.sb = s₁.sb ∧
        (s'.blocks (IBLOCK ip.inum s₁.sb)).length = (s₁.blocks (IBLOCK ip.inum s₁.sb)).length ∧
        ∀ x, x ≠ IBLOCK ip.inum s₁.sb → s'.blocks x = s₁.blocks x)
      (fun e => ¬ WritePanic e) := by
  unfold iupdate
  refine spec_bind (R := fun ip' s => ip' = ip ∧ s = s₁)
    (fun s hs => by subst hs; rw [getInode_run hin]; exact ⟨rfl, rfl⟩) fun ip' => Spec.of_fact fun hip => ?_
  subst hip
  refine spec_bind (R := fun s' s => s' = s₁ ∧ s = s₁)
    (fun s hs => by subst hs; exact ⟨rfl, rfl⟩) fun s' => Spec.of_fact fun hs' => ?_
  subst hs'
  refine spec_bind (R := fun d s => d = s'.blocks (IBLOCK ip'.inum s'.sb) ∧ s = s')
    (fun s hs => by subst hs; exact ⟨rfl, rfl⟩) fun d => Spec.of_fact fun hd => ?_
  subst hd
  refine spec_bind ((putBlock_withBlocks _ _).mono (fun s hs => ⟨s'.lh, by subst hs; rfl⟩)
    fun _ _ h => h) fun _ => ?_
  refine (logWrite_keeps withBlocks_lh _).mono (fun _ h => h) ?_
  rintro _ _ ⟨l, rfl⟩
  refine ⟨rfl, rfl, ?_, fun x hx => if_neg hx⟩
  dsimp only
  rw [if_pos rfl, setDinode, length_setBytes]

theorem WrittenAt.size {tot : Nat} {s : FsState} {ip : Inode}
    (h : WrittenAt i ip₀ c off₀ data tot s ip) : ip.size = ip₀.size := by
  rw [h.fields]

/-- The end of `writei`: once every byte is written, with the size set to
where the array ends and the inode written back, the inode is sound and
holds the written array. -/
theorem WrittenAt.finish {s₁ s' : FsState} {ip₁ : Inode}
    (h : WrittenAt i ip₀ c off₀ data data.length s₁ ip₁) (hc : c.length = ip₀.size)
    (hoff : off₀ ≤ c.length) (hsize : ip₀.size ≤ MAXFILE * BSIZE) (hend : off₀ + data.length ≤ MAXFILE * BSIZE)
    (hin : s'.inodes[i]? = some { ip₁ with size := max ip₀.size (off₀ + data.length) })
    (hsb : s'.sb = s₁.sb) (hiblock : (s'.blocks (IBLOCK ip₁.inum s₁.sb)).length = BSIZE)
    (hblocks : ∀ x, x ≠ IBLOCK ip₁.inum s₁.sb → s'.blocks x = s₁.blocks x) :
    ∃ ip', s'.inodes[i]? = some ip' ∧ Sound s' ip' ∧
      ip' = { ip₀ with addrs := ip'.addrs, size := max ip₀.size (off₀ + data.length) } ∧
      content s'.blocks ip' = arrayWrite c off₀ data := by
  have hsized : ∀ b, (s'.blocks b).length = BSIZE := by
    intro b
    by_cases hb : b = IBLOCK ip₁.inum s₁.sb
    · rw [hb]
      exact hiblock
    · rw [hblocks b hb]
      exact h.laid.sized b
  obtain ⟨hL', hK⟩ := h.laid.of_iblock hsb hsized hblocks
  have hmax : max c.length (off₀ + data.length) = max ip₀.size (off₀ + data.length) := by rw [hc]
  have hfill : Filled s'.blocks ip₁ (max ip₀.size (off₀ + data.length)) :=
    hK.filled (by omega) (hmax ▸ h.filled)
  refine ⟨_, hin, ⟨hL'.with_size _, by dsimp only; omega, hfill⟩, by rw [h.fields], ?_⟩
  -- every byte below the new size was read as the written array before
  refine content_eq_of_bytes (by rw [length_arrayWrite (by omega), hc]) fun k hk => ?_
  have hk' : k < max c.length (off₀ + data.length) := by rw [hmax]; exact hk
  have hkb : k / BSIZE < MAXFILE := by unfold MAXFILE NINDIRECT NDIRECT BSIZE at *; omega
  have hne := h.filled (k / BSIZE) (by
    have := Nat.div_mul_le_self k BSIZE
    omega)
  show byteAt s'.blocks ip₁ k = _
  rw [hK.byteAt hkb hne, h.bytes k hk', List.take_length]

/-- **`writei` writes the byte array.** On a sound inode, with every copy
succeeding, an accepted write returns its count and leaves a sound inode
whose contents are the old ones with `data` written at `off`, and whose size
grew to the end of the write; it fails only with a panic of the allocator or
of the log. -/
theorem writei_written {s : FsState} {ip : Inode} {src : CopySrc} {off : Nat}
    (hin : s.inodes[i]? = some ip) (hsound : Sound s ip)
    (hsrc : ∀ t m, t + m ≤ data.length → src t m = .ok ((data.drop t).take m))
    (hoff : off ≤ ip.size) (hwrap : off ≤ (off + data.length) % 2 ^ 32)
    (hend : off + data.length ≤ MAXFILE * BSIZE) :
    Spec (· = s) (writei i src off data.length)
      (fun r s' => r = data.length ∧ ∃ ip', s'.inodes[i]? = some ip' ∧ Sound s' ip' ∧
        ip' = { ip with addrs := ip'.addrs, size := max ip.size (off + data.length) } ∧
        content s'.blocks ip' = arrayWrite (content s.blocks ip) off data)
      (fun e => ¬ WritePanic e) := by
  have hlen : (content s.blocks ip).length = ip.size := by simp [content]
  have hsize := hsound.size_le
  unfold writei
  refine spec_bind (R := fun ip' s' => ip' = ip ∧ s' = s)
    (fun s' hs' => by subst hs'; rw [getInode_run hin]; exact ⟨rfl, rfl⟩) fun ip' =>
      Spec.of_fact fun hip => ?_
  subst ip'
  dsimp only
  refine spec_ite (fun hbad => absurd hbad (by simp only [Bool.or_eq_true, decide_eq_true_eq]; omega))
    fun _ => ?_
  refine spec_ite (fun hbad => absurd hbad (by omega)) fun _ => ?_
  refine spec_bind (R := fun r s' => r = off + data.length ∧
      Written i ip (content s.blocks ip) off data data.length s')
    ((writeiLoop_written hsrc (by omega) (by omega) hend data.length 0 (by omega) (by omega)).mono
      (fun s' hs' => ⟨ip, by subst hs'; exact writtenAt_zero hin hsound hoff⟩) fun _ _ h => h)
    fun off' => Spec.of_fact fun hoff' => ?_
  subst hoff'
  refine spec_exists fun ip₁ => spec_of_forall fun s₁ hW => ?_
  have hip₁ := hW.size
  split
  · -- the size grows to the end of the write, then the inode is written back
    refine spec_bind (R := fun ip' s' => ip' = ip₁ ∧ s' = s₁)
      (fun s' hs' => by subst hs'; rw [getInode_run hW.inode]; exact ⟨rfl, rfl⟩) fun ip₂ =>
        Spec.of_fact fun hip₂ => ?_
    subst ip₂
    split
    · rename_i hgt
      have hM : max ip.size (off + data.length) = off + data.length := by omega
      refine spec_bind (R := fun _ s₂ =>
          s₂ = { s₁ with inodes := s₁.inodes.modify i fun ip => { ip with size := off + data.length } })
        (fun s₂ hs₂ => by subst hs₂; rfl) fun _ => ?_
      refine spec_of_forall fun s₂ hs₂ => ?_
      subst hs₂
      refine spec_bind (iupdate_writes (getElem?_modifyInode hW.inode)) fun _ => ?_
      refine (spec_pure_eq _).mono (fun _ h => h) fun r s' h => ⟨h.1, ?_⟩
      obtain ⟨-, hin', hsb', hlen', hx'⟩ := h
      exact hW.finish hlen (by omega) hsize hend (by rw [hin', getElem?_modifyInode hW.inode, hM])
        hsb' (hlen'.trans (hW.laid.sized _)) hx'
    · rename_i hle
      have hM : max ip.size (off + data.length) = ip₁.size := by omega
      refine spec_bind (iupdate_writes hW.inode) fun _ => ?_
      refine (spec_pure_eq _).mono (fun _ h => h) fun r s' h => ⟨h.1, ?_⟩
      obtain ⟨-, hin', hsb', hlen', hx'⟩ := h
      exact hW.finish hlen (by omega) hsize hend (by rw [hin', hW.inode, hM]) hsb'
        (hlen'.trans (hW.laid.sized _)) hx'
  · -- nothing was written: the file is as it was
    rename_i hn
    have hM : max ip.size (off + data.length) = ip₁.size := by omega
    refine (spec_pure_eq _).mono (fun _ h => h) fun r s' h => ⟨h.1, ?_⟩
    obtain ⟨-, hs'⟩ := h
    subst hs'
    exact hW.finish hlen (by omega) hsize hend (by rw [hW.inode, hM]) rfl (hW.laid.sized _) fun _ _ => rfl

/-- `writei` refuses an offset past the end, a range that wraps and one past
`MAXFILE` blocks, changing nothing. -/
theorem writei_run_reject {s : FsState} {ip : Inode} {src : CopySrc} {off n : Nat}
    (hin : s.inodes[i]? = some ip)
    (hbad : ip.size < off ∨ (off + n) % 2 ^ 32 < off ∨ MAXFILE * BSIZE < off + n) :
    (writei i src off n).run s = .ok (-1, s) := by
  unfold writei
  rw [run_bind_of_run (getInode_run hin)]
  dsimp only
  by_cases hrange : ip.size < off ∨ (off + n) % 2 ^ 32 < off
  · rw [if_pos (by simpa using hrange)]
    rfl
  · rw [if_neg (by simpa using hrange), if_pos (by omega)]
    rfl

end Write

/-! ## The inode as a byte array -/

section Refine

/-- What the inode `i` of `s`, holding `ip`, does as the byte array
`content s.blocks ip`. `readi`, every copy succeeding, reads `arrayRead` of
it and changes nothing. `writei` refuses an offset past the end, a wrapping
range and one past `MAXFILE` blocks by returning `-1` and changing nothing.
Any other write, every copy succeeding, either returns its count and leaves
a sound inode holding `arrayWrite` of the array, from which `readi` reads
the written bytes back, or stops because the disk or the log is full. -/
structure RefinesArray (i : Nat) (s : FsState) (ip : Inode) : Prop where
  read : ∀ dstOk : Nat → Nat → Bool, (∀ t m, dstOk t m = true) → ∀ off n,
    (readi i dstOk off n).run s = .ok (arrayRead (content s.blocks ip) off n, s)
  reject : ∀ (src : CopySrc) (off n : Nat),
    ip.size < off ∨ (off + n) % 2 ^ 32 < off ∨ MAXFILE * BSIZE < off + n →
    (writei i src off n).run s = .ok (-1, s)
  write : ∀ (src : CopySrc) (data : List UInt8) (off : Nat),
    (∀ t m, t + m ≤ data.length → src t m = .ok ((data.drop t).take m)) →
    off ≤ ip.size → off ≤ (off + data.length) % 2 ^ 32 → off + data.length ≤ MAXFILE * BSIZE →
    match (writei i src off data.length).run s with
    | .ok (r, s') => r = data.length ∧ ∃ ip', s'.inodes[i]? = some ip' ∧ Sound s' ip' ∧
        ip' = { ip with addrs := ip'.addrs, size := max ip.size (off + data.length) } ∧
        content s'.blocks ip' = arrayWrite (content s.blocks ip) off data ∧
        ∀ j k, j + k ≤ data.length → ∀ dstOk : Nat → Nat → Bool, (∀ t m, dstOk t m = true) →
          (readi i dstOk (off + j) k).run s' = .ok ((data.drop j).take k, s')
    | .error e => e = .panic "balloc: out of blocks" ∨ e = .panic "too big a transaction"

/-- Within a transaction the only panics of `writei` are the full disk and
the full log. -/
theorem writePanic_in_trans {k : Int} {e : Stop} (hk : 1 ≤ k) (hw : WritePanic e)
    (hl : ¬ LogPanic k e) :
    e = .panic "balloc: out of blocks" ∨ e = .panic "too big a transaction" := by
  rcases hw with he | he | he
  · exact .inl he
  · exact .inr he
  · exact absurd (.inr ⟨hk, he⟩) hl

/-- An accepted `writei` within a transaction, every copy succeeding: it
returns its count, leaving a sound inode that holds the array written and the
log's accounting and the file table as they were, or it stops because the
disk or the log is full. -/
theorem writei_in_trans {s : FsState} {i : Nat} {ip : Inode} {src : CopySrc} {data : List UInt8}
    {off : Nat} (hin : s.inodes[i]? = some ip) (hsound : Sound s ip) (hout : 1 ≤ s.outstanding)
    (hcommit : s.committing = false)
    (hsrc : ∀ t m, t + m ≤ data.length → src t m = .ok ((data.drop t).take m))
    (hoff : off ≤ ip.size) (hwrap : off ≤ (off + data.length) % 2 ^ 32)
    (hend : off + data.length ≤ MAXFILE * BSIZE) :
    match (writei i src off data.length).run s with
    | .ok (r, s') => (r = data.length ∧ ∃ ip', s'.inodes[i]? = some ip' ∧ Sound s' ip' ∧
        ip' = { ip with addrs := ip'.addrs, size := max ip.size (off + data.length) } ∧
        content s'.blocks ip' = arrayWrite (content s.blocks ip) off data) ∧
        Acct s.outstanding s.files s'
    | .error e => e = .panic "balloc: out of blocks" ∨ e = .panic "too big a transaction" := by
  -- the array's triple and the log's accounting, of the same run
  have hrun := ((writei_written hin hsound hsrc hoff hwrap hend).and
    (@writei_spec s.outstanding s.files i src off data.length)) s ⟨rfl, rfl, hcommit, rfl⟩
  rcases hres : (writei i src off data.length).run s with e | ⟨r, s'⟩
  · rw [hres] at hrun
    obtain ⟨hw, hl⟩ := not_or.mp hrun
    exact writePanic_in_trans hout (not_not.mp hw) hl
  · rw [hres] at hrun
    exact hrun

theorem inode_refines_array {s : FsState} {i : Nat} {ip : Inode} (hin : s.inodes[i]? = some ip)
    (hsound : Sound s ip) (hout : 1 ≤ s.outstanding) (hcommit : s.committing = false) :
    RefinesArray i s ip := by
  refine ⟨fun dstOk hdst off n => readi_run hin hsound.size_le hsound.filled hdst off n,
    fun src off n hbad => writei_run_reject hin hbad, ?_⟩
  intro src data off hsrc hoff hwrap hend
  have hrun := writei_in_trans hin hsound hout hcommit hsrc hoff hwrap hend
  rcases hres : (writei i src off data.length).run s with e | ⟨r, s'⟩
  · rw [hres] at hrun
    exact hrun
  · rw [hres] at hrun
    obtain ⟨⟨hr, ip', hin', hsound', hip', hcontent⟩, -⟩ := hrun
    refine ⟨hr, ip', hin', hsound', hip', hcontent, fun j k hjk dstOk hdst => ?_⟩
    have hlen : (content s.blocks ip).length = ip.size := by simp [content]
    rw [readi_run hin' hsound'.size_le hsound'.filled hdst, hcontent,
      arrayRead_arrayWrite (by omega) (by unfold MAXFILE NINDIRECT NDIRECT BSIZE at hend; omega) hjk]

/-- An inode with no blocks, as `ialloc` makes it, is laid out on any disk
whose free blocks lie past the bitmap. -/
theorem Laid.of_empty {s : FsState} {ip : Inode} (hlen : ip.addrs.length = NDIRECT + 1)
    (h0 : ∀ j, ip.addrs.getD j 0 = 0) (hsized : ∀ b, (s.blocks b).length = BSIZE)
    (hsize : s.sb.size < 2 ^ 32) (hfree : ∀ b < s.sb.size, bitOf s b = false → dataStart s.sb ≤ b)
    (hiblock : IBLOCK ip.inum s.sb < s.sb.bmapstart) : Laid s ip := by
  have hmap : ∀ bn, addrOf s.blocks ip bn = 0 := by
    intro bn
    unfold addrOf
    split
    · exact h0 bn
    · rw [if_pos (h0 NDIRECT)]
  have hown : ∀ b, ¬ Owns s.blocks ip b := by
    rintro b ⟨hb, ⟨bn, -, hbn⟩ | hind⟩
    · exact hb (hbn ▸ hmap bn)
    · exact hb (hind.trans (h0 NDIRECT))
  exact ⟨hlen, hsized, hsize, fun bn _ _ _ hne _ => absurd (hmap bn) hne,
    fun bn _ hne => absurd (hmap bn) hne, fun b hb => absurd hb (hown b), hfree, hiblock⟩

/-- An empty file, inode number 1, with no blocks. -/
def emptyFile : Inode :=
  { dev := ROOTDEV, inum := 1, ref := 1, locked := true, valid := true, type := T_FILE,
    major := 0, minor := 0, nlink := 1, size := 0, addrs := List.replicate (NDIRECT + 1) 0 }

/-- A disk of eight blocks: the boot block, the superblock, two log blocks,
one block of inodes, the bitmap (its first byte `used`) and two data blocks.
Its one inode is `emptyFile`, and a transaction is open. -/
def tinyDisk (used : UInt8) : FsState where
  blocks := fun b => if b = 5 then used :: List.replicate (BSIZE - 1) 0 else zeroBlock
  sb := { magic := FSMAGIC, size := 8, nblocks := 2, ninodes := IPB, nlog := 2,
          logstart := 2, inodestart := 4, bmapstart := 5 }
  lh := []
  outstanding := 1
  committing := false
  logsize := 2
  inodes := [emptyFile]
  files := []
  procs := []

theorem sound_tinyDisk {used : UInt8}
    (hfree : ∀ b < (tinyDisk used).sb.size, bitOf (tinyDisk used) b = false →
      dataStart (tinyDisk used).sb ≤ b) :
    Sound (tinyDisk used) emptyFile := by
  have hsize : (tinyDisk used).sb.size < 2 ^ 32 := by dsimp only [tinyDisk]; decide
  have hiblock : IBLOCK emptyFile.inum (tinyDisk used).sb < (tinyDisk used).sb.bmapstart := by
    dsimp only [tinyDisk]; decide
  refine ⟨Laid.of_empty (by decide) (fun j => ?_) (fun b => ?_) hsize hfree hiblock,
    by decide, fun bn hbn => absurd hbn (Nat.not_lt_zero _)⟩
  · unfold emptyFile
    rw [List.getD_eq_getElem?_getD, List.getElem?_replicate]
    split <;> rfl
  · unfold tinyDisk
    dsimp only
    split
    · rw [List.length_cons, List.length_replicate]
      decide
    · rw [zeroBlock, List.length_replicate]

/-- A file of five bytes, `1, 2, 3, 4, 5`, in block 34. -/
def shortFile : Inode := { emptyFile with size := 5, addrs := 34 :: List.replicate NDIRECT 0 }

/-- A disk of forty blocks laid out as `mkfs` lays one out: the boot block,
the superblock, thirty log blocks, one block of inodes, the bitmap, and six
data blocks from 34. Block 34 holds the bytes of `shortFile`, its one inode;
the bitmap marks blocks 0 to 34 used. A transaction is open. -/
def smallDisk : FsState where
  blocks := fun b =>
    if b = 33 then [255, 255, 255, 255, 7] ++ List.replicate (BSIZE - 5) 0
    else if b = 34 then [1, 2, 3, 4, 5] ++ List.replicate (BSIZE - 5) 0 else zeroBlock
  sb := { magic := FSMAGIC, size := 40, nblocks := 6, ninodes := IPB, nlog := 30, logstart := 2,
          inodestart := 32, bmapstart := 33 }
  lh := []
  outstanding := 1
  committing := false
  logsize := 30
  inodes := [shortFile]
  files := []
  procs := []

/-- `shortFile` has one block, block 34, and no indirect block. -/
theorem addrOf_shortFile (blocks : Nat → Block) (bn : Nat) :
    addrOf blocks shortFile bn = if bn = 0 then 34 else 0 := by
  unfold addrOf
  split
  · rename_i hbn
    cases bn with
    | zero => rfl
    | succ k =>
      rw [if_neg (Nat.succ_ne_zero k), shortFile, List.getD_eq_getElem?_getD,
        List.getElem?_cons_succ, List.getElem?_replicate, if_pos (by unfold NDIRECT at hbn ⊢; omega)]
      rfl
  · rw [if_pos (show shortFile.addrs.getD NDIRECT 0 = 0 from rfl), if_neg (by unfold NDIRECT at *; omega)]

theorem sound_smallDisk : Sound smallDisk shortFile := by
  have hmap := addrOf_shortFile smallDisk.blocks
  have hind : shortFile.addrs.getD NDIRECT 0 = 0 := rfl
  refine ⟨⟨by decide, fun b => ?_, by decide, fun bn bn' _ _ hne heq => ?_, fun bn _ hne => ?_,
    fun b hown => ?_, by decide, by decide⟩, by decide, fun bn hbn => ?_⟩
  · unfold smallDisk
    dsimp only
    split
    · rw [List.length_append, List.length_replicate]
      rfl
    · split
      · rw [List.length_append, List.length_replicate]
        rfl
      · rw [zeroBlock, List.length_replicate]
  · -- only block 0 of the file has a disk block
    rw [hmap] at hne heq
    rw [hmap] at heq
    split at heq <;> split at heq <;> simp_all
  · rw [hind, hmap]
    rw [hmap] at hne
    split at hne <;> simp_all
  · -- the one block the file holds is 34, used and past the bitmap
    obtain ⟨hb0, ⟨bn, -, hbn⟩ | hb⟩ := hown
    · rw [hmap] at hbn
      split at hbn
      · subst hbn
        decide
      · exact absurd hbn.symm hb0
    · exact absurd (hb.trans hind) hb0
  · rw [hmap, if_pos (by unfold BSIZE at hbn; simp only [shortFile, emptyFile] at hbn; omega)]
    decide

/-- `shortFile` on `smallDisk`: a write of 2048 bytes from offset 3 rewrites
the rest of its block, allocates two more, and returns its count; a read of
the first six bytes then gives three of the file's and three written. -/
theorem inode_refines_array_shortFile :
    smallDisk.inodes[0]? = some shortFile ∧ Sound smallDisk shortFile ∧
      1 ≤ smallDisk.outstanding ∧ smallDisk.committing = false ∧
      RefinesArray 0 smallDisk shortFile ∧
      ∃ s', (writei 0 (kernelSrc (List.replicate 2048 7)) 3 2048).run smallDisk = .ok (2048, s') ∧
        (readi 0 (fun _ _ => true) 0 6).run s' = .ok ([1, 2, 3, 7, 7, 7], s') := by
  have hrefines := inode_refines_array (i := 0) rfl sound_smallDisk (by decide) rfl
  refine ⟨rfl, sound_smallDisk, by decide, rfl, hrefines, ?_⟩
  -- the write returns its count, still inside the transaction
  have hret : ((writei 0 (kernelSrc (List.replicate 2048 7)) 3 2048).run smallDisk).map
      (fun r => (r.1, r.2.outstanding, r.2.committing)) = .ok (2048, 1, false) := by
    decide +kernel
  obtain ⟨data, hdata⟩ : ∃ data : List UInt8, data = List.replicate 2048 7 := ⟨_, rfl⟩
  have hlen : data.length = 2048 := by rw [hdata, List.length_replicate]
  rw [← hdata] at hret ⊢
  have hw := hrefines.write (kernelSrc data) data 3 (fun _ _ _ => rfl) (by decide)
    (by rw [hlen]; decide) (by rw [hlen]; decide)
  rw [hlen] at hw
  rcases hrun : (writei 0 (kernelSrc data) 3 2048).run smallDisk with e | ⟨r, s'⟩
  · rw [hrun] at hret
    cases hret
  · rw [hrun] at hret hw
    obtain ⟨-, ip', hin', hsound', -, hcontent, -⟩ := hw
    simp only [Except.map, Except.ok.injEq, Prod.mk.injEq] at hret
    obtain ⟨hr, hout, hcommit⟩ := hret
    refine ⟨s', by rw [hr], ?_⟩
    -- the bytes before the offset are the file's, those after it the written ones
    have hshort : content smallDisk.blocks shortFile = [1, 2, 3, 4, 5] := by decide
    have htake : data.take 3 = [7, 7, 7] := by
      rw [hdata, List.take_replicate]
      rfl
    rw [(inode_refines_array hin' hsound' (by omega) hcommit).read _ (fun _ _ => rfl) 0 6,
      hcontent, hshort]
    simp [arrayRead, arrayWrite, hlen, htake]

/-- **A write to a full disk panics.** On the disk whose every block is in
use, writing one byte to the empty file (sound, within a transaction, the
copy succeeding, the range accepted) does not return its count: `bmap`
calls `balloc`, which finds no free bit and panics. -/
theorem full_disk_write_panics :
    (tinyDisk 0xff).inodes[0]? = some emptyFile ∧ Sound (tinyDisk 0xff) emptyFile ∧
      ((writei 0 (kernelSrc [7]) 0 1).run (tinyDisk 0xff)).map Prod.fst =
        .error (.panic "balloc: out of blocks") :=
  ⟨rfl, sound_tinyDisk (by decide), rfl⟩

end Refine

end Fs

end Xv6
