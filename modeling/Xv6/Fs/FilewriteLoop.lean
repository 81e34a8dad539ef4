import Xv6.Filewrite
import Xv6.Fs.WriteRuns

/-!
# `filewrite`'s chunks on the file system

`Xv6.Filewrite` takes a chunk of `filewrite` as one atomic step on the shared
offset and the file's bytes. Here the kernel's own loop, `filewriteLoop`, is
shown to take those steps. A chunk is a transaction of its own, inside which
the inode is locked, `writei` writes at the offset of the `struct file`, and
the offset advances by what it returned (`filewriteChunk`).

A file is `Ready` for a chunk when its `struct file` and its inode are there,
the inode is in use, read from disk, unlocked and sound, and no transaction
is open. Every copy succeeding:

- `filewriteChunk_turn`: a chunk stops only because the disk or the log is
  full; otherwise the file is ready again, and what the chunk did to the
  offset and to the inode's bytes is `Filewrite.turn` of the call;
- `filewriteLoop_turns`: the whole loop is a run of turns of the one call,
  ending with its return;
- `filewrite_refines`: a `write` to the inode is a `Filewrite` run that opens
  a call and takes its turns, and returns what the call records.
-/

namespace Xv6

namespace Fs

open StateExcept

/-! ## Runs of the parts of a chunk -/

section Runs

variable {s : FsState}

/-- `begin_op` with no transaction open and an empty log opens one. -/
theorem beginOp_run_idle (hout : s.outstanding = 0) (hcommit : s.committing = false)
    (hlh : s.lh = []) : beginOp.run s = .ok ((), { s with outstanding := 1 }) := by
  -- one operation's budget fits in the empty log
  have hroom : ¬ ((s.lh.length : Int) + (s.outstanding + 1) * MAXOPBLOCKS > LOGSIZE) := by
    simp [hout, hlh, MAXOPBLOCKS, LOGSIZE]
  rw [beginOp_run, if_neg (by simp [hcommit]), if_neg hroom, hout, zero_add]

/-- The last `end_op` of a group commits it, which empties the log. -/
theorem endOp_run_last (hout : s.outstanding = 1) (hcommit : s.committing = false) :
    endOp.run s = .ok ((), { s with outstanding := 0, lh := [] }) := by
  rw [endOp_run, if_neg (by simp [hcommit]), if_pos (by omega)]

theorem getFile_run {f : Nat} {fl : File} (h : s.files[f]? = some fl) :
    (getFile f).run s = .ok (fl, s) := by
  unfold getFile
  simp [h]
  rfl

theorem modifyFile_run (f : Nat) (g : File → File) (s : FsState) :
    (modifyFile f g).run s = .ok ((), { s with files := s.files.modify f g }) := rfl

/-- `ilock` of an inode in use, unlocked and already read from disk only
takes the lock. -/
theorem ilock_run_valid {i : Nat} {ip : Inode} (hin : s.inodes[i]? = some ip) (href : 1 ≤ ip.ref)
    (hlock : ip.locked = false) (hvalid : ip.valid = true) :
    (ilock i).run s =
      .ok ((), { s with inodes := s.inodes.modify i fun ip => { ip with locked := true } }) := by
  unfold ilock
  rw [run_bind_of_run (getInode_run hin)]
  simp [hlock, hvalid, not_lt.mpr href]
  rfl

theorem iunlock_run_locked {i : Nat} {ip : Inode} (hin : s.inodes[i]? = some ip)
    (hlock : ip.locked = true) (href : 1 ≤ ip.ref) :
    (iunlock i).run s =
      .ok ((), { s with inodes := s.inodes.modify i fun ip => { ip with locked := false } }) := by
  unfold iunlock
  rw [run_bind_of_run (getInode_run hin)]
  simp [hlock, not_lt.mpr href]
  rfl

end Runs

/-- The layout does not depend on the lock. -/
theorem Sound.with_locked {s : FsState} {ip : Inode} (h : Sound s ip) (b : Bool) :
    Sound s { ip with locked := b } :=
  ⟨⟨h.laid.addrs_length, h.laid.sized, h.laid.size_lt, h.laid.inj, h.laid.ind_ne, h.laid.owned,
    h.laid.free, h.laid.iblock⟩, h.size_le, h.filled⟩

theorem Sound.of_blocks {s s' : FsState} {ip : Inode} (h : Sound s ip) (hb : s'.blocks = s.blocks)
    (hsb : s'.sb = s.sb) : Sound s' ip :=
  ⟨h.laid.of_blocks hb hsb, h.size_le, by rw [hb]; exact h.filled⟩

/-! ## One chunk -/

/-- The turn of `filewriteLoop` that writes bytes `i` to `i + n1` of the
source: a transaction in which the inode is locked, `writei` writes at the
offset of `struct file` `f`, and the offset advances by what it returned. -/
def filewriteChunk (f ip : Nat) (src : CopySrc) (n i : Nat) : FsM Int := do
  let n1 := min (n - i) maxChunk
  beginOp
  ilock ip
  let r ← writei ip (fun j m => src (i + j) m) (← getFile f).off n1
  if r > 0 then modifyFile f fun fl => { fl with off := fl.off + r.toNat }
  iunlock ip
  endOp
  pure r

/-- A turn of `filewriteLoop`: a chunk, then what the loop does with its
result. -/
theorem filewriteLoop_succ (f ip : Nat) (src : CopySrc) (n fuel i : Nat) :
    filewriteLoop f ip src n (fuel + 1) i =
      if i < n then do
        let r ← filewriteChunk f ip src n i
        if r < 0 then return i
        if r != min (n - i) maxChunk then panic "short filewrite"
        filewriteLoop f ip src n fuel (i + r.toNat)
      else pure i := by
  simp only [filewriteLoop, filewriteChunk, bind_assoc, ite_bind, pure_bind]

/-- A file ready for the next chunk of a write: `struct file` `f` is `fl`;
inode `ip` of the inode cache is `node`, in use, read from disk, unlocked
and sound; no transaction is open and the log is empty. -/
structure Ready (f ip : Nat) (s : FsState) (fl : File) (node : Inode) : Prop where
  file : s.files[f]? = some fl
  inode : s.inodes[ip]? = some node
  ref : 1 ≤ node.ref
  valid : node.valid = true
  unlocked : node.locked = false
  sound : Sound s node
  outstanding : s.outstanding = 0
  committing : s.committing = false
  lh : s.lh = []

section Chunk

variable {f ip : Nat} {src : CopySrc} {data : List UInt8}

/-- The source as the chunk from byte `i` hands it to `writei`: every copy
succeeds with the chunk's bytes. -/
theorem chunk_src (hsrc : ∀ t m, t + m ≤ data.length → src t m = .ok ((data.drop t).take m))
    (i n1 : Nat) (h : i + n1 ≤ data.length) :
    ∀ t m, t + m ≤ ((data.drop i).take n1).length →
      src (i + t) m = .ok ((((data.drop i).take n1).drop t).take m) := by
  intro t m htm
  have hlen : ((data.drop i).take n1).length = n1 := by simp; omega
  rw [hsrc (i + t) m (by omega), List.drop_take, List.drop_drop, List.take_take,
    Nat.min_eq_left (by omega)]

/-- The end of a chunk: the offset advances when `writei` wrote, the inode
is unlocked, and the transaction, the only one, commits. -/
theorem chunkClose_run {r : Int} {s : FsState} {ip' : Inode} (hin : s.inodes[ip]? = some ip')
    (hlock : ip'.locked = true) (href : 1 ≤ ip'.ref) (hout : s.outstanding = 1)
    (hcommit : s.committing = false) :
    (do
      if r > 0 then modifyFile f fun fl => { fl with off := fl.off + r.toNat }
      iunlock ip
      endOp
      pure r : FsM Int).run s =
    .ok (r, { s with
        files := if r > 0 then s.files.modify f (fun fl => { fl with off := fl.off + r.toNat })
          else s.files
        inodes := s.inodes.modify ip fun ip => { ip with locked := false }
        outstanding := 0, lh := [] }) := by
  -- what follows the offset's update, from any state that kept the inodes
  have hclose : ∀ s' : FsState, s'.inodes = s.inodes → s'.outstanding = 1 →
      s'.committing = false → (do iunlock ip; endOp; pure r : FsM Int).run s' =
        .ok (r, { s' with
          inodes := s.inodes.modify ip fun ip => { ip with locked := false }
          outstanding := 0, lh := [] }) := by
    intro s' hin' hout' hcommit'
    rw [run_bind_of_run (iunlock_run_locked (hin' ▸ hin) hlock href)]
    rw [run_bind_of_run (endOp_run_last
      (s := { s' with inodes := s'.inodes.modify ip fun ip => { ip with locked := false } })
      hout' hcommit'), hin']
    rfl
  by_cases hr : r > 0
  · simp only [if_pos hr]
    rw [run_bind_of_run (modifyFile_run _ _ _),
      hclose { s with files := s.files.modify f fun fl => { fl with off := fl.off + r.toNat } } rfl
        hout hcommit]
  · simp only [if_neg hr]
    rw [hclose _ rfl hout hcommit]

/-- After the end of a chunk the file is ready for the next one, its offset
moved by what `writei` returned (by nothing when that was `-1`), and the
inode's bytes are those `writei` left. -/
theorem chunkClose_ready {r : Int} {s : FsState} {fl : File} {ip' : Inode}
    (hfile : s.files[f]? = some fl) (hin : s.inodes[ip]? = some ip') (hlock : ip'.locked = true)
    (href : 1 ≤ ip'.ref) (hvalid : ip'.valid = true) (hsound : Sound s ip')
    (hout : s.outstanding = 1) (hcommit : s.committing = false) :
    ∃ s', (do
        if r > 0 then modifyFile f fun fl => { fl with off := fl.off + r.toNat }
        iunlock ip
        endOp
        pure r : FsM Int).run s = .ok (r, s') ∧
      Ready f ip s' { fl with off := fl.off + r.toNat } { ip' with locked := false } ∧
      content s'.blocks { ip' with locked := false } = content s.blocks ip' := by
  have hunlock := getElem?_modifyInode (f := fun ip => { ip with locked := false }) hin
  refine ⟨_, chunkClose_run hin hlock href hout hcommit, ⟨?_, hunlock, href, hvalid, rfl,
    (hsound.with_locked false).of_blocks rfl rfl, rfl, hcommit, rfl⟩, rfl⟩
  -- the offset moved only when `writei` wrote
  by_cases hr : r > 0
  · rw [if_pos hr, List.getElem?_modify_eq, hfile]
    rfl
  · rw [if_neg hr, hfile, Int.toNat_eq_zero.mpr (by omega)]
    rfl

/-- **A chunk of `filewrite` is a turn of `Xv6.Filewrite`.** On a file ready
for a chunk, with call `k` of the view having written `i` of the bytes
`data`, and every copy succeeding, the chunk stops only because the disk or
the log is full. Otherwise the file is ready again, and the view (the
offset of `struct file` `f`, the inode's bytes, the calls) has taken call
`k`'s turn: the chunk was refused with `-1` and the call returns it, or all
its bytes were written and the call moved past them. -/
theorem filewriteChunk_turn {s : FsState} {fl : File} {node : Inode} {i k : Nat}
    {calls : List Filewrite.Call} (hready : Ready f ip s fl node)
    (hsrc : ∀ t m, t + m ≤ data.length → src t m = .ok ((data.drop t).take m))
    (hi : i < data.length) (hk : k < calls.length) (hc : calls[k] = ⟨data, i, none⟩) :
    match (filewriteChunk f ip src data.length i).run s with
    | .ok (r, s') => ∃ fl' node', Ready f ip s' fl' node' ∧
        ((r = -1 ∧ Filewrite.turn ⟨fl.off, content s.blocks node, calls⟩ k calls[k] =
            .ok (none, ⟨fl'.off, content s'.blocks node', calls.set k ⟨data, i, some (-1)⟩⟩)) ∨
          (r = min (data.length - i) maxChunk ∧ ∃ o,
            Filewrite.turn ⟨fl.off, content s.blocks node, calls⟩ k calls[k] =
              .ok (o, ⟨fl'.off, content s'.blocks node',
                calls.set k ⟨data, i + min (data.length - i) maxChunk, none⟩⟩)))
    | .error e => e = .panic "balloc: out of blocks" ∨ e = .panic "too big a transaction" := by
  obtain ⟨hfile, hin, href, hvalid, hunlocked, hsound, hout, hcommit, hlh⟩ := hready
  have hlen : (Filewrite.nextBytes ⟨data, i, none⟩).length = min (data.length - i) maxChunk :=
    Filewrite.nextBytes_length (c := ⟨data, i, none⟩) hi
  have hsize : (content s.blocks node).length = node.size := by simp [content]
  rw [hc]
  -- `begin_op` and `ilock` open the transaction and lock the inode
  unfold filewriteChunk
  rw [run_bind_of_run (beginOp_run_idle hout hcommit hlh),
    run_bind_of_run (ilock_run_valid (s := { s with outstanding := 1 }) hin href hunlocked hvalid)]
  set s₂ : FsState :=
    { s with outstanding := 1, inodes := s.inodes.modify ip fun ip => { ip with locked := true } }
  have hin₂ : s₂.inodes[ip]? = some { node with locked := true } := getElem?_modifyInode hin
  have hsound₂ : Sound s₂ { node with locked := true } := (hsound.with_locked true).of_blocks rfl rfl
  rw [run_bind_of_run (getFile_run (s := s₂) hfile)]
  by_cases hacc : node.size < fl.off ∨ MAXFILE * BSIZE < fl.off + min (data.length - i) maxChunk
  · -- `writei` refuses the chunk, and the call returns `-1`
    obtain ⟨s', hclose, hready', hcontent'⟩ :=
      chunkClose_ready (r := -1) (s := s₂) hfile hin₂ rfl href hvalid hsound₂ rfl hcommit
    rw [run_bind_of_run (writei_run_reject hin₂ (hacc.elim .inl (.inr ∘ .inr))), hclose]
    refine ⟨_, _, hready', .inl ⟨rfl, ?_⟩⟩
    rw [hcontent']
    exact Filewrite.turn_of_fails rfl hi (by rw [hlen, hsize]; exact hacc)
  · -- `writei` writes the chunk, or stops on a full disk or log
    obtain ⟨hoff, hend⟩ : fl.off ≤ node.size ∧
        fl.off + min (data.length - i) maxChunk ≤ MAXFILE * BSIZE := by omega
    have hbig : MAXFILE * BSIZE < 2 ^ 32 := by decide
    have hbytes : ((data.drop i).take (min (data.length - i) maxChunk)).length =
        min (data.length - i) maxChunk := hlen
    have hw := writei_in_trans hin₂ hsound₂ (le_refl (1 : Int)) hcommit
      (chunk_src hsrc i (min (data.length - i) maxChunk) (by omega)) hoff
      (by rw [hbytes, Nat.mod_eq_of_lt (by omega)]; omega) (by rw [hbytes]; exact hend)
    rw [hbytes] at hw
    rcases hres : (writei ip (fun j m => src (i + j) m) fl.off
      (min (data.length - i) maxChunk)).run s₂ with e | ⟨r, s₃⟩
    · rw [hres] at hw
      rw [run_bind_of_error hres]
      exact hw
    · rw [hres] at hw
      obtain ⟨⟨rfl, ip', hin₃, hsound₃, hip', hcontent⟩, hout₃, hcommit₃, hfiles₃⟩ := hw
      obtain ⟨s', hclose, hready', hcontent'⟩ := chunkClose_ready (by rw [hfiles₃]; exact hfile)
        hin₃ (by rw [hip']) (by rw [hip']; exact href) (by rw [hip']; exact hvalid) hsound₃ hout₃
        hcommit₃
      rw [run_bind_of_run hres, hclose]
      refine ⟨_, _, hready', .inr ⟨rfl, some ⟨k, i, fl.off, Filewrite.nextBytes ⟨data, i, none⟩⟩, ?_⟩⟩
      rw [Filewrite.turn_of_fits rfl hi (by rw [hsize]; exact hoff) (by rw [hlen]; exact hend),
        hcontent', hcontent, arrayWrite, hbytes, hlen, Int.toNat_natCast]
      rfl

end Chunk

/-! ## The loop -/

section Loop

variable {f ip : Nat} {src : CopySrc} {data : List UInt8}

/-- With every byte written, the call's last turn returns its count. -/
theorem Filewrite.Run.done {v₀ : Filewrite.Sys} {cs : List Filewrite.Chunk} {off : Nat}
    {content : List UInt8} {calls : List Filewrite.Call} {k : Nat} (hk : k < calls.length)
    (hc : calls[k] = ⟨data, data.length, none⟩) (hrun : Filewrite.Run v₀ cs ⟨off, content, calls⟩) :
    Filewrite.Run v₀ cs ⟨off, content, calls.set k ⟨data, data.length, some data.length⟩⟩ := by
  have hturn := Filewrite.turn_of_done (s := ⟨off, content, calls⟩) (k := k) (c := calls[k])
    (by rw [hc]) (by rw [hc]; exact lt_irrefl _)
  have hstep := hrun.step (.turn k hk hturn)
  rw [hc] at hstep
  simpa using hstep

/-- **`filewriteLoop` takes the turns of `Xv6.Filewrite`.** From a file
ready for a chunk, with call `k` of the view having written `i` of the bytes
`data`, every copy succeeding and fuel for the bytes left, the loop stops
only because the disk or the log is full. Otherwise it returns `i'`, the file
is ready, and a run of `Filewrite` has taken the view to the file's offset
and bytes, with call `k` having written `i'` bytes and returned what
`filewrite` makes of `i'`. -/
theorem filewriteLoop_turns {k : Nat} {v₀ : Filewrite.Sys}
    (hsrc : ∀ t m, t + m ≤ data.length → src t m = .ok ((data.drop t).take m)) :
    ∀ fuel i (s : FsState) (fl : File) (node : Inode) (calls : List Filewrite.Call)
      (cs : List Filewrite.Chunk), Ready f ip s fl node → data.length ≤ i + fuel →
      i ≤ data.length → (hk : k < calls.length) → calls[k] = ⟨data, i, none⟩ →
      Filewrite.Run v₀ cs ⟨fl.off, content s.blocks node, calls⟩ →
      match (filewriteLoop f ip src data.length fuel i).run s with
      | .ok (i', s') => ∃ fl' node' cs', Ready f ip s' fl' node' ∧
          Filewrite.Run v₀ cs' ⟨fl'.off, content s'.blocks node', calls.set k
            ⟨data, i', some (if (i' : Int) = data.length then (data.length : Int) else -1)⟩⟩
      | .error e => e = .panic "balloc: out of blocks" ∨ e = .panic "too big a transaction" := by
  intro fuel
  -- induction on the fuel, each turn writing at least one byte
  induction fuel with
  | zero =>
    intro i s fl node calls cs hready hfuel hi hk hc hrun
    obtain rfl : i = data.length := by omega
    exact ⟨fl, node, cs, hready, by simpa using Filewrite.Run.done hk hc hrun⟩
  | succ fuel ih =>
    intro i s fl node calls cs hready hfuel hi hk hc hrun
    rw [filewriteLoop_succ]
    by_cases hlt : i < data.length
    · rw [if_pos hlt]
      have hchunk := filewriteChunk_turn hready hsrc hlt hk hc
      rcases hres : (filewriteChunk f ip src data.length i).run s with e | ⟨r, s'⟩
      · rw [hres] at hchunk
        rw [run_bind_of_error hres]
        exact hchunk
      · rw [hres] at hchunk
        rw [run_bind_of_run hres]
        obtain ⟨fl', node', hready', ⟨rfl, hturn⟩ | ⟨rfl, o, hturn⟩⟩ := hchunk
        · -- `writei` refused the chunk: the call returns `-1` with `i` bytes written
          have hne : ¬ ((i : Int) = data.length) := by omega
          exact ⟨fl', node', _, hready', by rw [if_neg hne]; exact hrun.step (.turn k hk hturn)⟩
        · -- the chunk was written whole, and the loop goes on after it
          have hpos : 0 < maxChunk := by decide
          have hnlt : ¬ ((min (data.length - i) maxChunk : Nat) : Int) < 0 := by omega
          simp only [if_neg hnlt, bne_self_eq_false, Bool.false_eq_true, if_false,
            Int.toNat_natCast]
          have hnext := ih (i + min (data.length - i) maxChunk) s' fl' node'
            (calls.set k ⟨data, i + min (data.length - i) maxChunk, none⟩) _ hready' (by omega)
            (by omega) (by simpa using hk) (by simp) (hrun.step (.turn k hk hturn))
          simp only [List.set_set] at hnext
          exact hnext
    · rw [if_neg hlt]
      obtain rfl : i = data.length := by omega
      exact ⟨fl, node, cs, hready, by simpa using Filewrite.Run.done hk hc hrun⟩

/-- **A `write` to an inode is a run of `Xv6.Filewrite`.** On a `struct
file` `f` open for writing on inode `ip`, ready for a chunk, every copy
succeeding: `filewrite` of `data` stops only because the disk or the log is
full. Otherwise the file is ready again, and from the view of `f`'s offset,
the inode's bytes and any calls, a run of `Filewrite` (the new call, then its
turns) reaches the file's offset and bytes, with the new call having
returned what `filewrite` returned. -/
theorem filewrite_refines {s : FsState} {fl : File} {node : Inode} (hready : Ready f ip s fl node)
    (hwritable : fl.writable = true) (htype : fl.type = .FD_INODE) (hip : fl.ip = some ip)
    (hsrc : ∀ t m, t + m ≤ data.length → src t m = .ok ((data.drop t).take m))
    (calls : List Filewrite.Call) (devWrite : FsM Int) :
    match (filewrite f src data.length devWrite).run s with
    | .ok (r, s') => ∃ fl' node' cs i', Ready f ip s' fl' node' ∧
        Filewrite.Run ⟨fl.off, content s.blocks node, calls⟩ cs
          ⟨fl'.off, content s'.blocks node', calls ++ [⟨data, i', some r⟩]⟩
    | .error e => e = .panic "balloc: out of blocks" ∨ e = .panic "too big a transaction" := by
  -- the call opens, with no byte written
  have hopen : Filewrite.Run ⟨fl.off, content s.blocks node, calls⟩ []
      ⟨fl.off, content s.blocks node, calls ++ [⟨data, 0, none⟩]⟩ :=
    (Filewrite.Run.refl _).step (.filewrite data)
  have hloop := filewriteLoop_turns (k := calls.length) hsrc data.length 0 s fl node _ _ hready
    (by omega) (by omega) (by simp) (by simp) hopen
  unfold filewrite
  rw [run_bind_of_run (getFile_run hready.file)]
  simp only [hwritable, htype, hip, Bool.not_true, Bool.false_eq_true, if_false, Int.toNat_natCast]
  rcases hres : (filewriteLoop f ip src data.length data.length 0).run s with e | ⟨i', s'⟩
  · rw [hres] at hloop
    rw [run_bind_of_error hres]
    exact hloop
  · rw [hres] at hloop
    rw [run_bind_of_run hres]
    obtain ⟨fl', node', cs, hready', hrun⟩ := hloop
    refine ⟨fl', node', cs, i', hready', ?_⟩
    rwa [List.set_append_right _ _ (le_refl _), Nat.sub_self, List.set_cons_zero] at hrun

/-- `smallDisk` with its file open for writing at offset 3 as `struct file`
0, the inode unlocked, and no transaction open. -/
def openDisk : FsState :=
  { smallDisk with
    outstanding := 0
    inodes := [{ shortFile with locked := false }]
    files := [⟨.FD_INODE, 1, false, true, some 0, 3, 0⟩] }

theorem filewrite_refines_openDisk :
    Ready 0 0 openDisk ⟨.FD_INODE, 1, false, true, some 0, 3, 0⟩ { shortFile with locked := false } ∧
      (match (filewrite 0 (kernelSrc [7, 8]) (([7, 8] : List UInt8).length : Int) (pure (-1))).run
          openDisk with
      | .ok (r, s') => ∃ fl' node' cs i', Ready 0 0 s' fl' node' ∧
          Filewrite.Run ⟨3, content openDisk.blocks { shortFile with locked := false }, []⟩ cs
            ⟨fl'.off, content s'.blocks node', [] ++ [⟨[7, 8], i', some r⟩]⟩
      | .error e => e = .panic "balloc: out of blocks" ∨ e = .panic "too big a transaction") ∧
      ((filewrite 0 (kernelSrc [7, 8]) 2 (pure (-1))).run openDisk).map
        (fun x => (x.1, x.2.files.map File.off, content x.2.blocks (x.2.inodes.getD 0 emptyFile))) =
        .ok (2, [5], [1, 2, 3, 7, 8]) := by
  have hready : Ready 0 0 openDisk ⟨.FD_INODE, 1, false, true, some 0, 3, 0⟩
      { shortFile with locked := false } :=
    ⟨rfl, rfl, by decide, rfl, rfl, (sound_smallDisk.with_locked false).of_blocks rfl rfl, rfl, rfl,
      rfl⟩
  have hsrc : ∀ t m, t + m ≤ ([7, 8] : List UInt8).length →
      kernelSrc [7, 8] t m = .ok ((([7, 8] : List UInt8).drop t).take m) := fun _ _ _ => rfl
  exact ⟨hready, filewrite_refines hready rfl rfl rfl hsrc [] (pure (-1)), rfl⟩

end Loop

end Fs

end Xv6
