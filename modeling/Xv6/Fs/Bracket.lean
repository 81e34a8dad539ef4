import Xv6.Fs.Dir
import Xv6.Library.Triple

/-!
# The log's accounting through the file-system layer

`log.c` guards its protocol with two panics: `log_write` outside a
transaction (`outstanding < 1`) and `end_op` while a commit runs. Below, each
function of `fs.c` is shown to keep the log's accounting (`Acct k fs`: `k`
operations outstanding, no commit running, the file table `fs` as it was)
and never to reach the panics that are protocol errors at that accounting
(`LogPanic k`): `end_op`'s always, `log_write`'s once a transaction is open
(`1 ≤ k`). One spec per function, each from the specs of the functions it
calls.
-/

namespace Xv6

namespace Fs

open StateExcept

/-- The log's accounting: `k` operations outstanding, no commit running;
and the file table `fs`, which nothing below the file layer writes. -/
def Acct (k : Int) (fs : List File) (s : FsState) : Prop :=
  s.outstanding = k ∧ s.committing = false ∧ s.files = fs

/-- The two panics of the log's protocol. -/
def TransPanic (e : Stop) : Prop :=
  e = .panic "log.committing" ∨ e = .panic "log_write outside of trans"

instance : DecidablePred TransPanic := fun e => inferInstanceAs (Decidable (e = _ ∨ e = _))

/-- The panics of the protocol that are errors with `k` operations
outstanding. At `k = 0` a `log_write` does stop the kernel: that is the panic
a call must avoid by opening its own transaction. -/
def LogPanic (k : Int) (e : Stop) : Prop :=
  e = .panic "log.committing" ∨ (1 ≤ k ∧ e = .panic "log_write outside of trans")

theorem not_logPanic {k : Int} {e : Stop} (h : ¬ TransPanic e) : ¬ LogPanic k e := by
  rintro (he | ⟨-, he⟩)
  · exact h (.inl he)
  · exact h (.inr he)

section Leaves

variable {k : Int} {fs : List File}

theorem bread_spec (b : Nat) : Spec (Acct k fs) (bread b) (fun _ => Acct k fs) (LogPanic k) :=
  spec_bind spec_get_keep fun _ => spec_pure_keep _

theorem putBlock_spec (b : Nat) (d : Block) :
    Spec (Acct k fs) (putBlock b d) (fun _ => Acct k fs) (LogPanic k) :=
  spec_modify_keep fun _ hs => hs

theorem getInode_spec (i : Nat) :
    Spec (Acct k fs) (getInode i) (fun _ => Acct k fs) (LogPanic k) := by
  unfold getInode
  refine spec_bind spec_get_keep fun s => ?_
  split
  · exact spec_pure_keep _
  · exact spec_throw (not_logPanic (by decide))

theorem modifyInode_spec (i : Nat) (f : Inode → Inode) :
    Spec (Acct k fs) (modifyInode i f) (fun _ => Acct k fs) (LogPanic k) :=
  spec_modify_keep fun _ hs => hs

/-- `log_write` stops with "outside of trans" only when no transaction is
open, and otherwise at most with "too big a transaction". -/
theorem logWrite_spec (b : Nat) :
    Spec (Acct k fs) (logWrite b) (fun _ => Acct k fs) (LogPanic k) := by
  intro s hs
  rw [logWrite_run]
  by_cases hbig : s.lh.length ≥ LOGSIZE ∨ (s.lh.length : Int) ≥ (s.logsize : Int) - 1
  · rw [if_pos hbig]
    exact not_logPanic (by decide)
  · rw [if_neg hbig]
    by_cases hout : s.outstanding < 1
    · rw [if_pos hout]
      rintro (he | ⟨hk, -⟩)
      · exact absurd he (by decide)
      · rw [hs.1] at hout
        omega
    · rw [if_neg hout]
      show Acct k fs (if _ then _ else _)
      split
      · exact hs
      · exact hs

end Leaves

/-! ## Blocks and inodes -/

section Inode

variable {k : Int} {fs : List File}

theorem bzero_spec (bno : Nat) : Spec (Acct k fs) (bzero bno) (fun _ => Acct k fs) (LogPanic k) :=
  spec_bind (putBlock_spec _ _) fun _ => logWrite_spec _

theorem ballocScan_spec :
    ∀ bs : List Nat, Spec (Acct k fs) (ballocScan bs) (fun _ => Acct k fs) (LogPanic k)
  | [] => spec_throw (not_logPanic (by decide))
  | b :: bs => by
    unfold ballocScan
    refine spec_bind spec_get_keep fun s => spec_bind (bread_spec _) fun d => ?_
    split
    · exact spec_bind (putBlock_spec _ _) fun _ => spec_bind (logWrite_spec _) fun _ =>
        spec_bind (bzero_spec _) fun _ => spec_pure_keep _
    · exact ballocScan_spec bs

theorem balloc_spec : Spec (Acct k fs) balloc (fun _ => Acct k fs) (LogPanic k) :=
  spec_bind spec_get_keep fun _ => ballocScan_spec _

theorem iupdate_spec (i : Nat) : Spec (Acct k fs) (iupdate i) (fun _ => Acct k fs) (LogPanic k) :=
  spec_bind (getInode_spec _) fun _ => spec_bind spec_get_keep fun _ =>
    spec_bind (bread_spec _) fun _ => spec_bind (putBlock_spec _ _) fun _ => logWrite_spec _

/-- A block allocated and recorded in the inode's address list. -/
theorem allocAddr_spec (i : Nat) (f : Nat → Inode → Inode) :
    Spec (Acct k fs) (do let a ← balloc; modifyInode i (f a); pure a) (fun _ => Acct k fs)
      (LogPanic k) :=
  spec_bind balloc_spec fun _ => spec_bind (modifyInode_spec _ _) fun _ => spec_pure_keep _

/-- The second half of `bmap`: the entry of the indirect block `ind`,
allocated if there is none. -/
theorem bmapIndirect_spec (ind bn : Nat) :
    Spec (Acct k fs)
      (do
        let d ← bread ind
        if getAddr d bn == 0 then
          let addr ← balloc
          putBlock ind (setAddr (← bread ind) bn addr)
          logWrite ind
          pure addr
        else pure (getAddr d bn))
      (fun _ => Acct k fs) (LogPanic k) := by
  refine spec_bind (bread_spec _) fun d => ?_
  split
  · exact spec_bind balloc_spec fun _ => spec_bind (bread_spec _) fun _ =>
      spec_bind (putBlock_spec _ _) fun _ => spec_bind (logWrite_spec _) fun _ => spec_pure_keep _
  · exact spec_pure_keep _

theorem bmap_spec (i bn : Nat) :
    Spec (Acct k fs) (bmap i bn) (fun _ => Acct k fs) (LogPanic k) := by
  unfold bmap
  refine spec_bind (getInode_spec _) fun ip => ?_
  dsimp only
  split
  · -- a direct block
    split
    · exact allocAddr_spec _ _
    · exact spec_pure_keep _
  · split
    · -- through the indirect block
      split
      · refine spec_bind balloc_spec fun _ => spec_bind (modifyInode_spec _ _) fun _ => ?_
        exact spec_bind (spec_pure_keep _) fun ind => bmapIndirect_spec ind _
      · exact spec_bind (spec_pure_keep _) fun ind => bmapIndirect_spec ind _
    · exact spec_throw (not_logPanic (by decide))

theorem writeiLoop_spec (i : Nat) (src : CopySrc) :
    ∀ fuel off tot n,
      Spec (Acct k fs) (writeiLoop i src fuel off tot n) (fun _ => Acct k fs) (LogPanic k)
  | 0, _, _, _ => spec_pure_keep _
  | fuel + 1, off, tot, n => by
    unfold writeiLoop
    refine spec_ite (fun _ => ?_) fun _ => spec_pure_keep _
    refine spec_bind (bmap_spec _ _) fun addr => spec_bind (bread_spec _) fun d => ?_
    dsimp only
    split
    · exact spec_bind (putBlock_spec _ _) fun _ => spec_bind (logWrite_spec _) fun _ =>
        writeiLoop_spec i src fuel _ _ _
    · exact spec_bind (putBlock_spec _ _) fun _ => spec_pure_keep _

theorem writei_spec (i : Nat) (src : CopySrc) (off n : Nat) :
    Spec (Acct k fs) (writei i src off n) (fun _ => Acct k fs) (LogPanic k) := by
  unfold writei
  refine spec_bind (getInode_spec _) fun ip => ?_
  dsimp only
  refine spec_ite (fun _ => spec_pure_keep _) fun _ => ?_
  refine spec_ite (fun _ => spec_pure_keep _) fun _ => ?_
  refine spec_bind (writeiLoop_spec _ _ _ _ _ _) fun off => ?_
  -- the size grows to the offset reached, then the inode is written back
  refine spec_ite (fun _ => ?_) fun _ => spec_pure_keep _
  refine spec_bind (getInode_spec _) fun ip => ?_
  exact spec_ite
    (fun _ => spec_bind (modifyInode_spec _ _) fun _ => spec_bind (iupdate_spec _) fun _ =>
      spec_pure_keep _)
    fun _ => spec_bind (iupdate_spec _) fun _ => spec_pure_keep _

end Inode

end Fs

end Xv6
