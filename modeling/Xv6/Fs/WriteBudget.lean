import Xv6.Fs.ReadWrite

/-!
# The blocks one `writei` logs (`filewrite`'s transaction budget)

`filewrite` cuts a write into chunks of at most
`((MAXOPBLOCKS-1-1-2) / 2) * BSIZE` bytes, one transaction each, so that the
`writei` of a chunk passes at most `MAXOPBLOCKS` distinct blocks to
`log_write`. What a `writei` logs lies in its footprint (`Footprint`): the
blocks of the file it writes, the bitmap block of each of those that was a
hole (`balloc` allocated it), the indirect block and its bitmap block, and
the inode's own block (`writei_logs`). A chunk touches at most four blocks of
the file, so

- it logs at most `MAXOPBLOCKS + 1` blocks, at most `MAXOPBLOCKS` when the
  inode has no holes, and at most 7 on an image whose bitmap is one block
  (`writei_log_budget`);
- an inode with holes on an image of five bitmap blocks, whose free blocks
  lie one in each, takes eleven (`hole_write_exceeds_budget`, in
  `Xv6.Fs.WriteRuns`).
-/

namespace Xv6

namespace Fs

open StateExcept LEBytes

/-! ## Growing the log's list -/

/-- The log's list `l` is `l₀` followed by distinct blocks new to it, each
satisfying `S`: what `log_write`s of blocks of `S` make of `l₀`. -/
def Extends (l₀ : List Nat) (S : Nat → Prop) (l : List Nat) : Prop :=
  ∃ new, l = l₀ ++ new ∧ new.Nodup ∧ ∀ b ∈ new, b ∉ l₀ ∧ S b

section Extends

variable {l₀ l₁ l : List Nat} {S S' : Nat → Prop}

theorem Extends.refl (l : List Nat) (S : Nat → Prop) : Extends l S l :=
  ⟨[], (List.append_nil l).symm, List.nodup_nil, fun _ hb => absurd hb List.not_mem_nil⟩

theorem Extends.mono (h : Extends l₀ S l) (hS : ∀ b, S b → S' b) : Extends l₀ S' l := by
  obtain ⟨new, rfl, hnd, hnew⟩ := h
  exact ⟨new, rfl, hnd, fun b hb => ⟨(hnew b hb).1, hS b (hnew b hb).2⟩⟩

theorem Extends.trans (h₁ : Extends l₀ S l₁) (h₂ : Extends l₁ S l) : Extends l₀ S l := by
  obtain ⟨new₁, rfl, hnd₁, hnew₁⟩ := h₁
  obtain ⟨new₂, rfl, hnd₂, hnew₂⟩ := h₂
  refine ⟨new₁ ++ new₂, List.append_assoc _ _ _, ?_, ?_⟩
  · -- a block logged second was not in the list the first run left
    refine List.nodup_append.mpr ⟨hnd₁, hnd₂, fun a ha b hb hab => ?_⟩
    subst hab
    exact (hnew₂ a hb).1 (List.mem_append_right _ ha)
  · intro b hb
    rcases List.mem_append.mp hb with hb | hb
    · exact hnew₁ b hb
    · exact ⟨fun h => (hnew₂ b hb).1 (List.mem_append_left _ h), (hnew₂ b hb).2⟩

/-- One `log_write` of a block of `S`: absorbed if the block is listed. -/
theorem Extends.add (h : Extends l₀ S l) {b : Nat} (hb : S b) :
    Extends l₀ S (if b ∈ l then l else l ++ [b]) := by
  split
  · exact h
  · rename_i hnot
    exact h.trans ⟨[b], rfl, List.nodup_cons.mpr ⟨List.not_mem_nil, List.nodup_nil⟩, fun x hx => by
      rw [List.mem_singleton.mp hx]
      exact ⟨hnot, hb⟩⟩

end Extends

/-! ## What the allocator logs -/

section Logs

variable {L : List Nat} {S : Nat → Prop} {R : FsState → Prop}

/-- `log_write` of a block of `S` keeps the log's list an extension of `L`
by blocks of `S`, and changes nothing else. -/
theorem logWrite_extends (hR : ∀ s (l : List Nat), R s → R { s with lh := l }) {b : Nat}
    (hb : S b) :
    Spec (fun s => Extends L S s.lh ∧ R s) (logWrite b) (fun _ s => Extends L S s.lh ∧ R s)
      (fun e => ¬ WritePanic e) := by
  rintro s ⟨hs, hr⟩
  rw [logWrite_run]
  by_cases hbig : s.lh.length ≥ LOGSIZE ∨ (s.lh.length : Int) ≥ (s.logsize : Int) - 1
  · rw [if_pos hbig]
    exact not_not.mpr (.inr (.inl rfl))
  · rw [if_neg hbig]
    by_cases hout : s.outstanding < 1
    · rw [if_pos hout]
      exact not_not.mpr (.inr (.inr rfl))
    · rw [if_neg hout]
      have hadd := hs.add hb
      by_cases hin : b ∈ s.lh
      · rw [if_pos hin]
        exact ⟨hs, hr⟩
      · rw [if_neg hin]
        rw [if_neg hin] at hadd
        exact ⟨hadd, hR _ _ hr⟩

/-- A change to a buffer's data keeps what does not read the blocks. -/
theorem putBlock_frame {P : FsState → Prop} {bad : Stop → Prop}
    (hP : ∀ s (blocks : Nat → Block), P s → P { s with blocks }) (b : Nat) (d : Block) :
    Spec P (putBlock b d) (fun _ => P) bad :=
  spec_modify_keep fun s hs => hP s _ hs

theorem bread_keep {P : FsState → Prop} {bad : Stop → Prop} (b : Nat) :
    Spec P (bread b) (fun _ => P) bad :=
  fun _ hs => hs

theorem bzero_extends (hR : ∀ s (l : List Nat), R s → R { s with lh := l })
    (hRb : ∀ s (blocks : Nat → Block), R s → R { s with blocks }) {b : Nat} (hb : S b) :
    Spec (fun s => Extends L S s.lh ∧ R s) (bzero b) (fun _ s => Extends L S s.lh ∧ R s)
      (fun e => ¬ WritePanic e) :=
  spec_bind (putBlock_frame (fun s blocks h => ⟨h.1, hRb s blocks h.2⟩) _ _) fun _ =>
    logWrite_extends hR hb

end Logs

/-- What `balloc` logs, having handed out `r`: `r` itself (`bzero`) and its
bitmap block. -/
def AllocLogs (sb : Superblock) (r b : Nat) : Prop := b = r ∨ b = BBLOCK r sb

/-- The loop of `balloc` logs only the block it hands out and that block's
bitmap block, and changes neither the superblock nor the inodes. -/
theorem ballocScan_logs (s₁ : FsState) :
    ∀ bs : List Nat, (∀ b ∈ bs, b % BPB = 0) →
      Spec (· = s₁) (ballocScan bs)
        (fun r s => Extends s₁.lh (AllocLogs s₁.sb r) s.lh ∧ s.sb = s₁.sb ∧ s.inodes = s₁.inodes)
        (fun e => ¬ WritePanic e)
  | [], _ => spec_throw (not_not.mpr (.inl rfl))
  | b :: bs, hbs => by
    intro s hs
    subst hs
    rw [ballocScan_cons_run]
    rcases hfree : freeBit (s.blocks (BBLOCK b s.sb)) b s.sb.size BPB 0 with _ | bi
    · exact ballocScan_logs s bs (fun x hx => hbs x (List.mem_cons_of_mem _ hx)) s rfl
    · obtain ⟨-, -, hbpb⟩ := freeBit_eq_some hfree
      -- the block found lies in the bitmap block of `b`
      have hb := hbs b List.mem_cons_self
      have hB : BBLOCK b s.sb = BBLOCK (b + bi) s.sb := by
        unfold BBLOCK BPB BSIZE at *; omega
      have hframe : ∀ (x : FsState) (l : List Nat), x.sb = s.sb ∧ x.inodes = s.inodes →
          { x with lh := l }.sb = s.sb ∧ { x with lh := l }.inodes = s.inodes := fun _ _ h => h
      have hframeb : ∀ (x : FsState) (blocks : Nat → Block), x.sb = s.sb ∧ x.inodes = s.inodes →
          { x with blocks }.sb = s.sb ∧ { x with blocks }.inodes = s.inodes := fun _ _ h => h
      have hchain := spec_bind (putBlock_frame
        (fun x blocks h => ⟨h.1, hframeb x blocks h.2⟩) (BBLOCK b s.sb)
        (setBit (s.blocks (BBLOCK b s.sb)) bi) : Spec _ _ _ (fun e => ¬ WritePanic e))
        fun _ => spec_bind (logWrite_extends (L := s.lh) (S := AllocLogs s.sb (b + bi)) hframe (.inr hB)) fun _ =>
          spec_bind (bzero_extends hframe hframeb (.inl rfl)) fun _ => spec_pure_eq (b + bi)
      refine hchain.mono (fun x (h : x = s) => ⟨h ▸ Extends.refl _ _, by rw [h]; exact ⟨rfl, rfl⟩⟩) ?_ s rfl
      rintro _ _ ⟨rfl, h⟩
      exact h

theorem balloc_logs (s₁ : FsState) :
    Spec (· = s₁) balloc
      (fun r s => Extends s₁.lh (AllocLogs s₁.sb r) s.lh ∧ s.sb = s₁.sb ∧ s.inodes = s₁.inodes)
      (fun e => ¬ WritePanic e) := by
  intro s hs
  subst hs
  have h := ballocScan_logs s _ (bitmapStarts_mod s.sb.size) s rfl
  rw [← balloc_run] at h
  exact h

/-! ## What `bmap` logs -/

/-- The second half of `bmap` logs its answer `r`, the bitmap block of `r`
if entry `j` of the indirect block `ind` was a hole, and `ind`. -/
theorem bmapIndirect_logs (s₂ : FsState) (ind j : Nat) :
    Spec (· = s₂)
      (do
        let d ← bread ind
        if getAddr d j == 0 then
          let addr ← balloc
          putBlock ind (setAddr (← bread ind) j addr)
          logWrite ind
          pure addr
        else pure (getAddr d j))
      (fun r s => Extends s₂.lh (fun b => b = r ∨ (getAddr (s₂.blocks ind) j = 0 ∧
          b = BBLOCK r s₂.sb) ∨ b = ind) s.lh ∧ s.sb = s₂.sb ∧ s.inodes = s₂.inodes)
      (fun e => ¬ WritePanic e) := by
  refine spec_bind (R := fun d s => d = s₂.blocks ind ∧ s = s₂)
    (fun s hs => by subst hs; exact ⟨rfl, rfl⟩) fun d => Spec.of_fact fun hd => ?_
  subst hd
  split
  · rename_i h0
    have h0' : getAddr (s₂.blocks ind) j = 0 := by simpa using h0
    refine spec_bind ((balloc_logs s₂).mono (fun _ h => h) fun r s h => h) fun r => ?_
    -- from here on the log grows within the footprint of `r`
    have hframe : ∀ (x : FsState) (l : List Nat), x.sb = s₂.sb ∧ x.inodes = s₂.inodes →
        { x with lh := l }.sb = s₂.sb ∧ { x with lh := l }.inodes = s₂.inodes := fun _ _ h => h
    refine Spec.mono (P := fun s => Extends s₂.lh (fun b => b = r ∨ (getAddr (s₂.blocks ind) j = 0 ∧
        b = BBLOCK r s₂.sb) ∨ b = ind) s.lh ∧ s.sb = s₂.sb ∧ s.inodes = s₂.inodes) ?_
      (fun s ⟨h, hsb, hin⟩ => ⟨h.mono fun b hb => ?_, hsb, hin⟩) fun _ _ h => h
    · refine spec_bind (bread_keep ind) fun d => ?_
      refine spec_bind (putBlock_frame (fun x blocks h => h) _ _) fun _ => ?_
      refine spec_bind (logWrite_extends hframe (.inr (.inr rfl))) fun _ => ?_
      refine (spec_pure_eq r).mono (fun _ h => h) ?_
      rintro _ _ ⟨rfl, h⟩
      exact h
    · rcases hb with rfl | rfl
      · exact .inl rfl
      · exact .inr (.inl ⟨h0', rfl⟩)
  · exact spec_pure_at ⟨Extends.refl _ _, rfl, rfl⟩

/-- What `bmap` of block `bn` may log, having answered `r` with the inode
then `ip'`: `r`, the bitmap block of `r` if block `bn` was a hole in `s₁`,
and, past the direct blocks, the indirect block and its bitmap block. -/
def BmapLogs (s₁ : FsState) (ip₁ : Inode) (bn r : Nat) (ip' : Inode) (b : Nat) : Prop :=
  b = r ∨ (addrOf s₁.blocks ip₁ bn = 0 ∧ b = BBLOCK r s₁.sb) ∨
    (NDIRECT ≤ bn ∧ AllocLogs s₁.sb (ip'.addrs.getD NDIRECT 0) b)

section Bmap

variable {i : Nat}

/-- `bmap` logs within `BmapLogs`, and changes the indirect block of the inode
only where there was none. -/
theorem bmap_logs {s₁ : FsState} {ip₁ : Inode} {bn : Nat} (hin : s₁.inodes[i]? = some ip₁)
    (hlen : ip₁.addrs.length = NDIRECT + 1) (hbn : bn < MAXFILE) :
    Spec (· = s₁) (bmap i bn)
      (fun r s => s.sb = s₁.sb ∧ ∃ ip', s.inodes[i]? = some ip' ∧
        (ip₁.addrs.getD NDIRECT 0 ≠ 0 → ip'.addrs.getD NDIRECT 0 = ip₁.addrs.getD NDIRECT 0) ∧
        Extends s₁.lh (BmapLogs s₁ ip₁ bn r ip') s.lh)
      (fun e => ¬ WritePanic e) := by
  unfold bmap
  refine spec_bind (R := fun ip s => ip = ip₁ ∧ s = s₁)
    (fun s hs => by subst hs; rw [getInode_run hin]; exact ⟨rfl, rfl⟩) fun ip => Spec.of_fact fun hip => ?_
  subst hip
  dsimp only
  split
  · -- a direct block, allocated if it is a hole
    rename_i hdir
    have hset : ∀ r, (ip.addrs.set bn r).getD NDIRECT 0 = ip.addrs.getD NDIRECT 0 := by
      intro r
      simp only [List.getD_eq_getElem?_getD, List.getElem?_set_ne (show bn ≠ NDIRECT by omega)]
    split
    · rename_i h0
      have hhole : addrOf s₁.blocks ip bn = 0 := by
        rw [addrOf, if_pos hdir]
        simpa only [List.getD_eq_getElem?_getD, beq_iff_eq] using h0
      refine spec_bind (balloc_logs s₁) fun r => spec_of_forall fun s₂ hs₂ => ?_
      obtain ⟨hlog, hsb, hinodes⟩ := hs₂
      refine spec_bind (spec_modify_eq _) fun _ => ?_
      refine spec_pure_at ⟨hsb, _, getElem?_modifyInode (hinodes ▸ hin), fun _ => hset r, ?_⟩
      refine hlog.mono fun b hb => ?_
      rcases hb with rfl | rfl
      · exact .inl rfl
      · exact .inr (.inl ⟨hhole, rfl⟩)
    · exact spec_pure_at ⟨rfl, ip, hin, fun _ => rfl, Extends.refl _ _⟩
  · split
    · rename_i hdir hind
      -- the entry: its bitmap block is logged only if it was a hole
      have hentry : ∀ ind, (ip.addrs.getD NDIRECT 0 ≠ 0 → ind = ip.addrs.getD NDIRECT 0) →
          getAddr (s₁.blocks ind) (bn - NDIRECT) = 0 → addrOf s₁.blocks ip bn = 0 := by
        intro ind hind₁ h0
        rw [addrOf, if_neg hdir]
        split
        · rfl
        · rename_i hne
          rw [← hind₁ hne]
          exact h0
      split
      · rename_i h0
        have hind0 : ip.addrs.getD NDIRECT 0 = 0 := by
          simpa only [List.getD_eq_getElem?_getD, beq_iff_eq] using h0
        refine spec_bind (balloc_logs s₁) fun a => spec_of_forall fun s₂ hs₂ => ?_
        obtain ⟨hlog, hsb, hinodes⟩ := hs₂
        refine spec_bind (spec_modify_eq _) fun _ => ?_
        refine spec_bind (spec_pure_eq a) fun ind => ?_
        refine spec_of_forall fun s₃ hs₃ => ?_
        obtain ⟨hind, hs₃⟩ := hs₃
        subst ind hs₃
        refine ((bmapIndirect_logs _ a (bn - NDIRECT)).mono (fun _ h => h) ?_)
        rintro r s ⟨hlog', hsb', hinodes'⟩
        have hip : (ip.addrs.set NDIRECT a).getD NDIRECT 0 = a := by
          simp only [List.getD_eq_getElem?_getD, List.getElem?_set_self (show NDIRECT < ip.addrs.length by
            omega), Option.getD_some]
        refine ⟨hsb'.trans hsb, _, by rw [hinodes']; exact getElem?_modifyInode (hinodes ▸ hin),
          fun hne => absurd hind0 hne, ?_⟩
        refine (hlog.mono fun b hb => .inr (.inr ⟨by omega, by dsimp only; rw [hip]; exact hb⟩)).trans
          (hlog'.mono fun b hb => ?_)
        rcases hb with rfl | ⟨-, rfl⟩ | rfl
        · exact .inl rfl
        · exact .inr (.inl ⟨by rw [addrOf, if_neg hdir, if_pos hind0], by rw [hsb]⟩)
        · exact .inr (.inr ⟨by omega, .inl hip.symm⟩)
      · rename_i h0
        refine spec_bind (spec_pure_eq _) fun ind => spec_of_forall fun s₂ hs₂ => ?_
        obtain ⟨hind, hs₂⟩ := hs₂
        subst hind hs₂
        refine ((bmapIndirect_logs _ _ (bn - NDIRECT)).mono (fun _ h => h) ?_)
        rintro r s ⟨hlog, hsb, hinodes⟩
        refine ⟨hsb, ip, hinodes ▸ hin, fun _ => rfl, hlog.mono fun b hb => ?_⟩
        rcases hb with rfl | ⟨h0', rfl⟩ | rfl
        · exact .inl rfl
        · exact .inr (.inl ⟨hentry _ (fun _ => rfl) h0', rfl⟩)
        · exact .inr (.inr ⟨by omega, .inl rfl⟩)
    · rename_i hdir hind
      exact absurd (by unfold MAXFILE at hbn; omega) hind

end Bmap

/-! ## The footprint of a write -/

/-- The blocks a write over the file blocks `[lo, hi)` of the inode `ip₀` in
`s₀` may log, read in a later state `s` where the inode is `ip`: the blocks
of the file in the range, the bitmap block of each that was a hole in `s₀`,
the indirect block and its bitmap block, and the inode's own block. -/
def Footprint (s₀ : FsState) (ip₀ : Inode) (lo hi : Nat) (s : FsState) (ip : Inode) (b : Nat) :
    Prop :=
  (∃ bn, lo ≤ bn ∧ bn < hi ∧ bn < MAXFILE ∧ addrOf s.blocks ip bn ≠ 0 ∧
      (b = addrOf s.blocks ip bn ∨
        addrOf s₀.blocks ip₀ bn = 0 ∧ b = BBLOCK (addrOf s.blocks ip bn) s.sb)) ∨
    (ip.addrs.getD NDIRECT 0 ≠ 0 ∧ AllocLogs s.sb (ip.addrs.getD NDIRECT 0) b) ∨
    b = IBLOCK ip.inum s.sb

/-- Where a write over the file blocks `[lo, hi)` of the inode `i`, `ip₀` in
`s₀`, stands: the inode is `ip`, laid out, with `ip₀`'s number and no hole
that `ip₀` did not have, and the log's list is `s₀`'s extended by blocks of
the footprint. -/
structure Logged (i : Nat) (s₀ : FsState) (ip₀ : Inode) (lo hi : Nat) (s : FsState) (ip : Inode) :
    Prop where
  inode : s.inodes[i]? = some ip
  laid : Laid s ip
  inum : ip.inum = ip₀.inum
  sb : s.sb = s₀.sb
  holes : ∀ bn < MAXFILE, addrOf s.blocks ip bn = 0 → addrOf s₀.blocks ip₀ bn = 0
  log : Extends s₀.lh (Footprint s₀ ip₀ lo hi s ip) s.lh

section Logged

variable {i lo hi : Nat} {s₀ s s' : FsState} {ip₀ ip ip' : Inode}

theorem Logged.start (hin : s₀.inodes[i]? = some ip₀) (h : Laid s₀ ip₀) :
    Logged i s₀ ip₀ lo hi s₀ ip₀ :=
  ⟨hin, h, rfl, rfl, fun _ _ h0 => h0, Extends.refl _ _⟩

/-- The footprint grows with the inode: blocks stay where they were mapped,
and so does the indirect block. -/
theorem Footprint.mono
    (hblock : ∀ bn < MAXFILE, addrOf s.blocks ip bn ≠ 0 → addrOf s'.blocks ip' bn = addrOf s.blocks ip bn)
    (hind : ip.addrs.getD NDIRECT 0 ≠ 0 → ip'.addrs.getD NDIRECT 0 = ip.addrs.getD NDIRECT 0)
    (hinum : ip'.inum = ip.inum) (hsb : s'.sb = s.sb) {b : Nat}
    (h : Footprint s₀ ip₀ lo hi s ip b) : Footprint s₀ ip₀ lo hi s' ip' b := by
  rcases h with ⟨bn, hlo, hhi, hbn, hne, hb⟩ | ⟨hne, hb⟩ | hb
  · refine .inl ⟨bn, hlo, hhi, hbn, ?_, ?_⟩
    · rw [hblock bn hbn hne]
      exact hne
    · rw [hblock bn hbn hne, hsb]
      exact hb
  · refine .inr (.inl ⟨?_, ?_⟩)
    · rw [hind hne]
      exact hne
    · rw [hind hne, hsb]
      exact hb
  · refine .inr (.inr ?_)
    rw [hinum, hsb]
    exact hb

/-- A state that reads the inode's blocks as `s` did, its list extended. -/
theorem Logged.of_map (h : Logged i s₀ ip₀ lo hi s ip) (hin : s'.inodes[i]? = some ip)
    (hL : Laid s' ip) (hmap : addrOf s'.blocks ip = addrOf s.blocks ip) (hsb : s'.sb = s.sb)
    (hlog : Extends s₀.lh (Footprint s₀ ip₀ lo hi s ip) s'.lh) : Logged i s₀ ip₀ lo hi s' ip := by
  have hfoot : Footprint s₀ ip₀ lo hi s' ip = Footprint s₀ ip₀ lo hi s ip := by
    unfold Footprint
    rw [hmap, hsb]
  refine ⟨hin, hL, h.inum, hsb.trans h.sb, fun bn hbn h0 => h.holes bn hbn ?_, hfoot ▸ hlog⟩
  rw [← hmap]
  exact h0

/-- `log_write` of a block of the footprint. -/
theorem logged_logWrite {b : Nat} (h : Logged i s₀ ip₀ lo hi s ip)
    (hb : Footprint s₀ ip₀ lo hi s ip b) :
    Spec (· = s) (logWrite b) (fun _ s' => Logged i s₀ ip₀ lo hi s' ip) (fun e => ¬ WritePanic e) := by
  refine (logWrite_extends (L := s₀.lh)
    (R := fun x => x.blocks = s.blocks ∧ x.sb = s.sb ∧ x.inodes = s.inodes) (fun _ _ h => h) hb).mono
    (fun x hx => by subst hx; exact ⟨h.log, rfl, rfl, rfl⟩) ?_
  rintro _ x ⟨hlog, hblocks, hsb, hinodes⟩
  exact h.of_map (hinodes ▸ h.inode) (h.laid.of_blocks hblocks hsb) (by rw [hblocks]) hsb hlog

/-- A write into block `bn` of the file, mapped, keeping its length. -/
theorem Logged.write {bn : Nat} {d : Block} (h : Logged i s₀ ip₀ lo hi s ip) (hbn : bn < MAXFILE)
    (hne : addrOf s.blocks ip bn ≠ 0) (hd : d.length = BSIZE) :
    Logged i s₀ ip₀ lo hi
      { s with blocks := fun x => if x = addrOf s.blocks ip bn then d else s.blocks x } ip := by
  obtain ⟨hL, hmap⟩ := h.laid.write_block hbn hne hd
  exact h.of_map h.inode hL hmap rfl h.log

/-- `bmap` of a block of the range: its answer is mapped there, and what it
logs is in the footprint. -/
theorem logged_bmap {bn : Nat} (hlo : lo ≤ bn) (hhi : bn < hi) (hbn : bn < MAXFILE)
    (h : Logged i s₀ ip₀ lo hi s ip) :
    Spec (· = s) (bmap i bn)
      (fun r s' => ∃ ip', Logged i s₀ ip₀ lo hi s' ip' ∧ addrOf s'.blocks ip' bn = r ∧ r ≠ 0)
      (fun e => ¬ WritePanic e) := by
  refine ((Spec.and (@bmap_grew i s ip ip bn hbn) (bmap_logs h.inode h.laid.addrs_length hbn)).mono
    (fun x (hx : x = s) => by subst hx; exact ⟨Grew.refl h.inode h.laid, rfl⟩) ?_).of_bad
      fun _ he => .inl he
  rintro r x ⟨⟨ip', ⟨hin', hL', hK⟩, hr0, hr⟩, hsb, ip'', hin'', hind, hlog⟩
  obtain rfl : ip'' = ip' := Option.some.inj (hin''.symm.trans hin')
  have hinum : ip''.inum = ip.inum := by rw [hK.fields]
  -- a block past the direct ones is mapped through the indirect block
  have hind0 : NDIRECT ≤ bn → ip''.addrs.getD NDIRECT 0 ≠ 0 := by
    intro hge h0
    apply hr0
    rw [← hr, addrOf, if_neg (by omega), if_pos h0]
  refine ⟨ip'', ⟨hin', hL', hinum.trans h.inum, hsb.trans h.sb, fun bn' hbn' h0 => ?_, ?_⟩, hr, hr0⟩
  · -- a hole now was a hole before
    apply h.holes bn' hbn'
    by_contra hne
    exact hne ((hK.block bn' hbn' hne).symm.trans h0)
  · refine (h.log.mono fun b hb => Footprint.mono hK.block hind hinum hsb hb).trans
      (hlog.mono fun b hb => ?_)
    rcases hb with rfl | ⟨hhole, rfl⟩ | ⟨hge, hb⟩
    · exact .inl ⟨bn, hlo, hhi, hbn, by rw [hr]; exact hr0, .inl hr.symm⟩
    · exact .inl ⟨bn, hlo, hhi, hbn, by rw [hr]; exact hr0,
        .inr ⟨h.holes bn hbn hhole, by rw [hr, hsb]⟩⟩
    · exact .inr (.inl ⟨hind0 hge, by rw [hsb]; exact hb⟩)

end Logged

/-! ## The loop of `writei`, and `writei` -/

section Writei

variable {i lo hi : Nat} {s₀ : FsState} {ip₀ : Inode}

/-- The loop of `writei` over the bytes `[off₀, off₀ + n)`, within the file
blocks `[lo, hi)`, keeps the write's place: each turn maps the block it
writes and logs it, whether the copy succeeds or not. -/
theorem writeiLoop_logs {src : CopySrc} {off₀ n : Nat} (hend : off₀ + n ≤ MAXFILE * BSIZE)
    (hlo : lo * BSIZE ≤ off₀) (hhi : off₀ + n ≤ hi * BSIZE) :
    ∀ fuel tot, Spec (fun s => ∃ ip, Logged i s₀ ip₀ lo hi s ip)
      (writeiLoop i src fuel (off₀ + tot) tot n)
      (fun _ s => ∃ ip, Logged i s₀ ip₀ lo hi s ip) (fun e => ¬ WritePanic e)
  | 0, _ => spec_pure_keep _
  | fuel + 1, tot => by
    rw [writeiLoop]
    split
    · rename_i hlt
      have hbn : (off₀ + tot) / BSIZE < MAXFILE := by
        unfold MAXFILE NINDIRECT NDIRECT BSIZE at *
        omega
      have hbnlo : lo ≤ (off₀ + tot) / BSIZE := by
        unfold BSIZE at *
        omega
      have hbnhi : (off₀ + tot) / BSIZE < hi := by
        unfold BSIZE at *
        omega
      refine spec_exists fun ip => spec_of_forall fun s₁ hL => ?_
      refine spec_bind (logged_bmap hbnlo hbnhi hbn hL) fun addr => ?_
      refine spec_exists fun ip' => spec_of_forall fun s₂ hs₂ => ?_
      obtain ⟨hL', haddr, ha0⟩ := hs₂
      subst haddr
      refine spec_bind (R := fun d s => d = s₂.blocks (addrOf s₂.blocks ip' ((off₀ + tot) / BSIZE)) ∧
          s = s₂) (fun s hs => by subst hs; exact ⟨rfl, rfl⟩) fun d => Spec.of_fact fun hd => ?_
      subst hd
      dsimp only
      have hd : ∀ part : List UInt8, (setBytes (s₂.blocks (addrOf s₂.blocks ip' ((off₀ + tot) / BSIZE)))
          ((off₀ + tot) % BSIZE) part).length = BSIZE := fun _ => by
        rw [length_setBytes]
        exact hL'.laid.sized _
      split
      · -- the copy succeeds: the block is logged, and the loop goes on
        rename_i bytes _
        refine spec_bind (spec_modify_eq _) fun _ => spec_of_forall fun s₃ hs₃ => ?_
        subst hs₃
        -- the block map is the one `bmap` left
        have hmap := (hL'.laid.write_block hbn ha0 (hd bytes)).2
        refine spec_bind (logged_logWrite (hL'.write hbn ha0 (hd bytes))
          (.inl ⟨_, hbnlo, hbnhi, hbn, ?_, .inl ?_⟩)) fun _ => ?_
        · rw [hmap]
          exact ha0
        · rw [hmap]
        rw [Nat.add_assoc]
        exact (writeiLoop_logs hend hlo hhi fuel _).mono (fun s h => ⟨ip', h⟩) fun _ _ h => h
      · -- the copy fails part way: the part is stored, and the loop ends
        rename_i part _
        refine spec_bind (spec_modify_eq _) fun _ => ?_
        exact spec_of_forall fun s₃ hs₃ => spec_pure_at ⟨ip', hs₃ ▸ hL'.write hbn ha0 (hd part)⟩
    · exact spec_pure_keep _

/-- `iupdate` logs the inode's own block. -/
theorem iupdate_logs {s₁ : FsState} {ip : Inode} (hin : s₁.inodes[i]? = some ip) :
    Spec (· = s₁) (iupdate i) (fun _ s => Extends s₁.lh (· = IBLOCK ip.inum s₁.sb) s.lh)
      (fun e => ¬ WritePanic e) := by
  unfold iupdate
  refine spec_bind (R := fun ip' s => ip' = ip ∧ s = s₁)
    (fun s hs => by subst hs; rw [getInode_run hin]; exact ⟨rfl, rfl⟩) fun ip' => Spec.of_fact fun hip => ?_
  subst hip
  refine spec_bind (R := fun s' s => s' = s₁ ∧ s = s₁)
    (fun s hs => by subst hs; exact ⟨rfl, rfl⟩) fun s' => Spec.of_fact fun hs' => ?_
  subst hs'
  dsimp only
  refine (?_ : Spec (fun s => Extends s'.lh (· = IBLOCK ip'.inum s'.sb) s.lh ∧ True) _
    (fun _ s => Extends s'.lh (· = IBLOCK ip'.inum s'.sb) s.lh ∧ True) _).mono
    (fun s hs => by subst hs; exact ⟨Extends.refl _ _, trivial⟩) fun _ _ h => h.1
  refine spec_bind (bread_keep _) fun _ => ?_
  refine spec_bind (putBlock_frame (fun _ _ h => h) _ _) fun _ => ?_
  exact logWrite_extends (fun _ _ h => h) rfl

/-- `iupdate` logs the inode's block, which lies before the bitmap, and keeps
the write's place. -/
theorem logged_iupdate {s : FsState} {ip : Inode} (h : Logged i s₀ ip₀ lo hi s ip) :
    Spec (· = s) (iupdate i) (fun _ s' => Logged i s₀ ip₀ lo hi s' ip) (fun e => ¬ WritePanic e) := by
  refine ((Spec.and (iupdate_writes h.inode) (iupdate_logs h.inode)).mono (fun x hx => ⟨hx, hx⟩)
    ?_).of_bad fun _ he => .inl he
  rintro _ s' ⟨⟨hinodes, hsb, hlen, hblocks⟩, hlog⟩
  have hsized : ∀ b, (s'.blocks b).length = BSIZE := by
    intro b
    by_cases hb : b = IBLOCK ip.inum s.sb
    · rw [hb, hlen]
      exact h.laid.sized _
    · rw [hblocks b hb]
      exact h.laid.sized b
  obtain ⟨hL, -⟩ := h.laid.of_iblock hsb hsized hblocks
  -- the inode's block is none of its contents
  have hmap : addrOf s'.blocks ip = addrOf s.blocks ip := by
    refine addrOf_congr fun b hb => hblocks b ?_
    have := (h.laid.owned b hb).2.2
    have := h.laid.iblock
    unfold dataStart BPB BSIZE at *
    omega
  exact h.of_map (hinodes ▸ h.inode) hL hmap hsb (h.log.trans (hlog.mono fun b hb => .inr (.inr hb)))

/-- Setting the size changes neither the layout nor the footprint. -/
theorem Logged.with_size {s : FsState} {ip : Inode} (h : Logged i s₀ ip₀ lo hi s ip) (n : Nat) :
    Logged i s₀ ip₀ lo hi { s with inodes := s.inodes.modify i fun ip => { ip with size := n } }
      { ip with size := n } :=
  ⟨getElem?_modifyInode h.inode, (h.laid.with_size n).of_blocks rfl rfl, h.inum, h.sb, h.holes, h.log⟩

/-- **What `writei` logs.** From a laid-out inode, a `writei` of the bytes
`[off, off + n)`, within the file blocks `[lo, hi)`, logs only blocks of its
footprint, whatever the source; it fails only with a panic of the allocator
or of the log. -/
theorem writei_logs {s : FsState} {ip : Inode} {src : CopySrc} {off n : Nat} (lo hi : Nat)
    (hin : s.inodes[i]? = some ip) (hlaid : Laid s ip) (hlo : lo * BSIZE ≤ off)
    (hhi : off + n ≤ hi * BSIZE) :
    Spec (· = s) (writei i src off n) (fun _ s' => ∃ ip', Logged i s ip lo hi s' ip')
      (fun e => ¬ WritePanic e) := by
  unfold writei
  refine spec_bind (R := fun ip' s' => ip' = ip ∧ s' = s)
    (fun s' hs' => by subst hs'; rw [getInode_run hin]; exact ⟨rfl, rfl⟩) fun ip' =>
      Spec.of_fact fun hip => ?_
  subst ip'
  dsimp only
  -- a refused write changes nothing
  refine spec_ite (fun _ => spec_pure_at ⟨ip, Logged.start hin hlaid⟩) fun _ => ?_
  refine spec_ite (fun _ => spec_pure_at ⟨ip, Logged.start hin hlaid⟩) fun hend => ?_
  refine spec_bind ((writeiLoop_logs (by omega) hlo hhi n 0).mono
    (fun s' hs' => ⟨ip, by subst hs'; exact Logged.start hin hlaid⟩) fun _ _ h => h) fun off' => ?_
  refine spec_exists fun ip₁ => spec_of_forall fun s₁ hL => ?_
  split
  · refine spec_bind (R := fun ip' s' => ip' = ip₁ ∧ s' = s₁)
      (fun s' hs' => by subst hs'; rw [getInode_run hL.inode]; exact ⟨rfl, rfl⟩) fun ip₂ =>
        Spec.of_fact fun hip₂ => ?_
    subst ip₂
    split
    · refine spec_bind (spec_modify_eq _) fun _ => spec_of_forall fun s₂ hs₂ => ?_
      subst hs₂
      refine spec_bind (logged_iupdate (hL.with_size off')) fun _ => ?_
      exact (spec_pure_eq _).mono (fun _ h => h) fun _ _ ⟨_, h⟩ => ⟨_, h⟩
    · refine spec_bind (logged_iupdate hL) fun _ => ?_
      exact (spec_pure_eq _).mono (fun _ h => h) fun _ _ ⟨_, h⟩ => ⟨_, h⟩
  · exact spec_pure_at ⟨ip₁, hL⟩

end Writei

/-! ## Counting the footprint -/

section Count

variable {i lo hi : Nat} {s₀ s : FsState} {ip₀ ip : Inode}

/-- The footprint as a list: the blocks of the range, the bitmap blocks of
its holes, the indirect block, its bitmap block and the inode's block. -/
theorem Footprint.mem_list {b : Nat} (h : Footprint s₀ ip₀ lo hi s ip b) :
    b ∈ (List.range' lo (hi - lo)).map (addrOf s.blocks ip) ++
      ((List.range' lo (hi - lo)).filter (fun bn => addrOf s₀.blocks ip₀ bn == 0)).map
        (fun bn => BBLOCK (addrOf s.blocks ip bn) s.sb) ++
      [ip.addrs.getD NDIRECT 0, BBLOCK (ip.addrs.getD NDIRECT 0) s.sb, IBLOCK ip.inum s.sb] := by
  rcases h with ⟨bn, hlo, hhi, -, -, rfl | ⟨h0, rfl⟩⟩ | ⟨-, rfl | rfl⟩ | rfl
  · refine List.mem_append_left _ (List.mem_append_left _ (List.mem_map.mpr ⟨bn, ?_, rfl⟩))
    exact List.mem_range'_1.mpr ⟨hlo, by omega⟩
  · refine List.mem_append_left _ (List.mem_append_right _ (List.mem_map.mpr ⟨bn, ?_, rfl⟩))
    exact List.mem_filter.mpr ⟨List.mem_range'_1.mpr ⟨hlo, by omega⟩, by simpa using h0⟩
  all_goals simp

/-- On an image whose bitmap is one block, the bitmap blocks of the
footprint are that one block. -/
theorem Footprint.mem_list_of_one_map (hL : Laid s ip) (hsize : s.sb.size ≤ BPB) {b : Nat}
    (h : Footprint s₀ ip₀ lo hi s ip b) :
    b ∈ (List.range' lo (hi - lo)).map (addrOf s.blocks ip) ++
      [ip.addrs.getD NDIRECT 0, s.sb.bmapstart, IBLOCK ip.inum s.sb] := by
  have hone : ∀ x, Owns s.blocks ip x → BBLOCK x s.sb = s.sb.bmapstart := by
    intro x hx
    have := (hL.owned x hx).1
    unfold BBLOCK
    rw [Nat.div_eq_of_lt (by omega), Nat.zero_add]
  rcases h with ⟨bn, hlo, hhi, hbn, hne, rfl | ⟨-, rfl⟩⟩ | ⟨hne, rfl | rfl⟩ | rfl
  · refine List.mem_append_left _ (List.mem_map.mpr ⟨bn, ?_, rfl⟩)
    exact List.mem_range'_1.mpr ⟨hlo, by omega⟩
  · rw [hone _ (owns_addrOf hbn hne)]
    simp
  · simp
  · rw [hone _ (owns_ind hne)]
    simp
  · simp

/-- What a write leaves in the log: distinct new blocks, at most one per
block of the range, one per hole in it, and three more; on an image whose
bitmap is one block, at most one per block of the range and three more. -/
theorem Logged.new_blocks (h : Logged i s₀ ip₀ lo hi s ip) :
    ∃ new, s.lh = s₀.lh ++ new ∧ new.Nodup ∧ (∀ b ∈ new, b ∉ s₀.lh) ∧
      new.length ≤ (hi - lo) +
        ((List.range' lo (hi - lo)).filter (fun bn => addrOf s₀.blocks ip₀ bn == 0)).length + 3 ∧
      (s.sb.size ≤ BPB → new.length ≤ (hi - lo) + 3) := by
  obtain ⟨new, hlh, hnd, hnew⟩ := h.log
  refine ⟨new, hlh, hnd, fun b hb => (hnew b hb).1, ?_, fun hsize => ?_⟩
  · have := hnd.length_le_of_subset fun b hb => (hnew b hb).2.mem_list
    simpa [Nat.add_assoc] using this
  · have := hnd.length_le_of_subset fun b hb => (hnew b hb).2.mem_list_of_one_map h.laid hsize
    simpa using this

/-- At most `a + k - c` numbers of `[a, a + k)` lie at or past `c`. -/
theorem length_filter_range'_le {p : Nat → Bool} {a k c : Nat} (hp : ∀ bn, p bn = true → c ≤ bn) :
    ((List.range' a k).filter p).length ≤ a + k - c := by
  have hnd : ((List.range' a k).filter p).Nodup := (List.nodup_range' ..).filter p
  have hsub : (List.range' a k).filter p ⊆ List.range' c (a + k - c) := by
    intro bn hbn
    obtain ⟨hmem, hpb⟩ := List.mem_filter.mp hbn
    have := List.mem_range'_1.mp hmem
    exact List.mem_range'_1.mpr ⟨hp bn hpb, by omega⟩
  simpa using hnd.length_le_of_subset hsub

end Count

/-- **A chunk of `filewrite` fits its transaction unless the file has
holes.** From a laid-out inode, the `writei` of a chunk of at most
`((MAXOPBLOCKS-1-1-2) / 2) * BSIZE` bytes, at any offset and from any
source, adds distinct blocks to the log: at most `MAXOPBLOCKS + 1`, at most
`MAXOPBLOCKS` when the inode has no holes, and at most 7 on an image whose
bitmap is one block. -/
theorem writei_log_budget {i : Nat} {s : FsState} {ip : Inode} {src : CopySrc} {off n : Nat}
    (hin : s.inodes[i]? = some ip) (hlaid : Laid s ip)
    (hn : n ≤ (MAXOPBLOCKS - 1 - 1 - 2) / 2 * BSIZE) :
    Spec (· = s) (writei i src off n)
      (fun _ s' => ∃ new, s'.lh = s.lh ++ new ∧ new.Nodup ∧ (∀ b ∈ new, b ∉ s.lh) ∧
        new.length ≤ MAXOPBLOCKS + 1 ∧ (Filled s.blocks ip ip.size → new.length ≤ MAXOPBLOCKS) ∧
        (s.sb.size ≤ BPB → new.length ≤ 7))
      (fun e => ¬ WritePanic e) := by
  have hn' : n ≤ 3072 := by unfold MAXOPBLOCKS BSIZE at hn; omega
  by_cases hbad : ip.size < off ∨ (off + n) % 2 ^ 32 < off ∨ MAXFILE * BSIZE < off + n
  · -- a refused write logs nothing
    refine (spec_of_run (writei_run_reject hin hbad)).mono (fun _ h => h) ?_
    rintro _ _ ⟨-, rfl⟩
    refine ⟨[], (List.append_nil _).symm, List.nodup_nil, fun _ hb => absurd hb List.not_mem_nil,
      ?_, fun _ => ?_, fun _ => ?_⟩ <;> simp
  · refine (writei_logs (off / BSIZE) ((off + n + BSIZE - 1) / BSIZE) hin hlaid ?_ ?_).mono
      (fun _ h => h) ?_
    · unfold BSIZE
      omega
    · unfold BSIZE
      omega
    rintro _ s' ⟨ip', hL⟩
    obtain ⟨new, hlh, hnd, hnew, hlen, hone⟩ := hL.new_blocks
    -- a chunk touches at most four blocks of the file
    have hspan : (off + n + BSIZE - 1) / BSIZE - off / BSIZE ≤ 4 := by
      unfold BSIZE
      omega
    have hholes := List.length_filter_le (fun bn => addrOf s.blocks ip bn == 0)
      (List.range' (off / BSIZE) ((off + n + BSIZE - 1) / BSIZE - off / BSIZE))
    rw [List.length_range'] at hholes
    refine ⟨new, hlh, hnd, hnew, by unfold MAXOPBLOCKS; omega, fun hfill => ?_, fun hsize => ?_⟩
    · -- without holes, only the blocks past the end are allocated: at most three
      have hpast := length_filter_range'_le (a := off / BSIZE)
        (k := (off + n + BSIZE - 1) / BSIZE - off / BSIZE) (c := (off + BSIZE - 1) / BSIZE)
        (p := fun bn => addrOf s.blocks ip bn == 0) fun bn h0 => by
          have hbn : ¬ bn * BSIZE < ip.size := fun hlt => hfill bn hlt (by simpa using h0)
          unfold BSIZE at *
          omega
      unfold MAXOPBLOCKS
      unfold BSIZE at hpast hspan hlen
      omega
    · have := hone (hL.sb ▸ hsize)
      omega

/-- `shortFile` on `smallDisk`, whose bitmap is one block: a chunk of 2048
bytes from offset 3 returns and logs five blocks, the file's block, the
bitmap, the two blocks it allocates and the inode's block. -/
theorem writei_log_budget_shortFile :
    smallDisk.inodes[0]? = some shortFile ∧ Laid smallDisk shortFile ∧
      2048 ≤ (MAXOPBLOCKS - 1 - 1 - 2) / 2 * BSIZE ∧
      ((writei 0 (kernelSrc (List.replicate 2048 7)) 3 2048).run smallDisk).map
        (fun r => (r.1, r.2.lh)) = .ok (2048, [34, 33, 35, 36, 32]) ∧
      Spec (· = smallDisk) (writei 0 (kernelSrc (List.replicate 2048 7)) 3 2048)
        (fun _ s' => ∃ new, s'.lh = smallDisk.lh ++ new ∧ new.Nodup ∧
          (∀ b ∈ new, b ∉ smallDisk.lh) ∧ new.length ≤ MAXOPBLOCKS + 1 ∧
          (Filled smallDisk.blocks shortFile shortFile.size → new.length ≤ MAXOPBLOCKS) ∧
          (smallDisk.sb.size ≤ BPB → new.length ≤ 7))
        (fun e => ¬ WritePanic e) :=
  ⟨rfl, sound_smallDisk.laid, by decide, by decide +kernel,
    writei_log_budget rfl sound_smallDisk.laid (by decide)⟩

end Fs

end Xv6
