import Xv6.Bio
import Xv6.Library.Ring
import Xv6.Library.StateExcept

/-!
# The order of the buffer cache (`kernel/bio.c`)

`bget`, `brelse`, `bpin` and `bunpin` change `bcache`'s list only under
`bcache.lock`. Their parts under it are `bgetLocked`, `brelseLocked`,
`bpinLocked` and `bunpinLocked`; `bget` then sleeps on the buffer's lock,
which the list does not see, holding the reference it took. The functions of
`Xv6.Bio` are these parts with the sleep-lock around them (`bget_run_locked`,
`brelse_run_locked`, `bpin_run`, `bunpin_run`); a `bget` of `Xv6.Bio` that
would sleep stops before its reference and is run again, and the parts here
keep the reference as the code does. So every run of the kernel's calls
from `binit` is a run of `Cache`, on the buffers with their locks forgotten
(`bio_runs_cache`), and what follows holds of the kernel's list.

`Cache` runs any sequence of the parts, with three ghost fields: which
buffers `bget` has recycled, when each buffer's count last dropped to 0 in
`brelse`, and a clock. The list is sorted by that time, the never-released
last and among them by index (`Sorted`), because `brelse` moves a buffer to
the head exactly when its count drops to 0. Over every run (`bcache_lru`):

- the list holds each of the `NBUF` buffers once;
- two buffers carry the same block only while neither has been recycled, so
  `bget` of a recycled buffer's block returns that buffer;
- a miss recycles, among the buffers with no reference, the one whose last
  `brelse` to 0 is oldest, the never-released first and `buf[0]` first
  among them.

`bunpin` drops a count to 0 without the move to the head that `brelse`
makes, so the list is not sorted by last use, as `bcache`'s comment says it
is: a buffer pinned by the log and unpinned last stays at the tail and is
recycled before buffers never used (`bunpin_keeps_lru_place`).
-/

namespace Xv6

namespace Lru

open StateExcept

/-! ## The parts under `bcache.lock` -/

/-- `bget` under `bcache.lock`: the buffer cached for `(dev, blockno)` with
one more reference, or else the last buffer of the list with no reference,
recycled for the block; `none` is the panic `"bget: no buffers"`. -/
def bgetLocked (dev blockno : Nat) (bufs : List Buf) : Option (Nat × List Buf) :=
  match bufs.find? (fun b => b.dev == dev && b.blockno == blockno) with
  | some b => some (b.id, updBuf bufs b.id fun b => { b with refcnt := b.refcnt + 1 })
  | none =>
    match (bufs.filter (·.refcnt == 0)).getLast? with
    | some b =>
      some (b.id, updBuf bufs b.id fun b => { b with dev, blockno, valid := false, refcnt := 1 })
    | none => none

/-- `brelse` under `bcache.lock`: one reference less, and to the head of the
list when none is left. -/
def brelseLocked (id : Nat) (bufs : List Buf) : List Buf :=
  let bufs := updBuf bufs id fun b => { b with refcnt := b.refcnt - 1 }
  match findBuf bufs id with
  | some b => if b.refcnt == 0 then moveToHead bufs id else bufs
  | none => bufs

/-- `bpin` under `bcache.lock`. -/
def bpinLocked (id : Nat) (bufs : List Buf) : List Buf :=
  updBuf bufs id fun b => { b with refcnt := b.refcnt + 1 }

/-- `bunpin` under `bcache.lock`: the count drops, and the buffer stays. -/
def bunpinLocked (id : Nat) (bufs : List Buf) : List Buf :=
  updBuf bufs id fun b => { b with refcnt := b.refcnt - 1 }

/-- A call on the cache. -/
inductive Call
  | bget (dev blockno : Nat)
  | brelse (id : Nat)
  | bpin (id : Nat)
  | bunpin (id : Nat)
  deriving DecidableEq, Repr

/-- The list with the history the order is about. -/
structure Cache where
  bufs : List Buf
  /-- the buffers `bget` has recycled -/
  assigned : Nat → Bool
  /-- when each buffer's count last dropped to 0 in `brelse`; 0 for never -/
  released : Nat → Nat
  /-- the calls made so far -/
  clock : Nat

/-- The cache `binit` leaves. -/
def Cache.init : Cache := ⟨binit, fun _ => false, fun _ => 0, 0⟩

/-- Whether a buffer carries `(dev, blockno)`. -/
def cached (dev blockno : Nat) (bufs : List Buf) : Bool :=
  bufs.any fun b => b.dev == dev && b.blockno == blockno

/-- One call; `none` is `bget`'s panic. -/
def Cache.call (c : Cache) : Call → Option Cache
  | .bget dev blockno => (bgetLocked dev blockno c.bufs).map fun r =>
    { c with bufs := r.2, clock := c.clock + 1,
             assigned := if cached dev blockno c.bufs then c.assigned
               else Function.update c.assigned r.1 true }
  | .brelse id => some
    { c with bufs := brelseLocked id c.bufs, clock := c.clock + 1,
             released := if (findBuf c.bufs id).any (·.refcnt == 1)
               then Function.update c.released id (c.clock + 1) else c.released }
  | .bpin id => some { c with bufs := bpinLocked id c.bufs, clock := c.clock + 1 }
  | .bunpin id => some { c with bufs := bunpinLocked id c.bufs, clock := c.clock + 1 }

/-- A sequence of calls, up to a panic. -/
def Cache.run (c : Cache) : List Call → Option Cache
  | [] => some c
  | call :: calls => (c.call call).bind fun c => c.run calls

/-! ## `Xv6.Bio` is the sleep-lock around the parts -/

section Bufs

variable {bufs : List Buf} {id : Nat} {f : Buf → Buf}

/-- The buffer `updBuf` leaves in place of `b`. -/
theorem id_upd (hf : ∀ b, (f b).id = b.id) (b : Buf) :
    (if b.id = id then f b else b).id = b.id := by
  split
  · exact hf b
  · rfl

theorem mem_updBuf {x : Buf} (hx : x ∈ updBuf bufs id f) :
    ∃ b ∈ bufs, x = if b.id = id then f b else b := by
  obtain ⟨b, hb, rfl⟩ := List.mem_map.mp hx
  exact ⟨b, hb, rfl⟩

theorem map_id_updBuf (hf : ∀ b, (f b).id = b.id) :
    (updBuf bufs id f).map Buf.id = bufs.map Buf.id := by
  rw [updBuf, List.map_map]
  exact List.map_congr_left fun b _ => id_upd hf b

theorem findBuf_some {b : Buf} (h : findBuf bufs id = some b) : b ∈ bufs ∧ b.id = id :=
  ⟨List.mem_of_find?_eq_some h, by simpa using List.find?_some h⟩

/-- `updBuf` changes the buffer `findBuf` finds. -/
theorem findBuf_updBuf (hf : ∀ b, (f b).id = b.id) :
    findBuf (updBuf bufs id f) id = (findBuf bufs id).map f := by
  rw [findBuf, updBuf, List.find?_map]
  have hp : ((fun b : Buf => b.id == id) ∘ fun b => if b.id = id then f b else b) =
      fun b => b.id == id := by
    funext b
    simp only [Function.comp_apply, id_upd hf]
  rw [hp]
  cases hfind : bufs.find? (fun b => b.id == id) with
  | none => simp [findBuf, hfind]
  | some b =>
    have hb : b.id = id := by simpa using List.find?_some hfind
    simp [hb, findBuf, hfind]

theorem moveToHead_of_findBuf {b : Buf} (h : findBuf bufs id = some b) :
    moveToHead bufs id = b :: bufs.filter (·.id != id) := by
  rw [moveToHead, h]

theorem mem_moveToHead {x : Buf} (hx : x ∈ moveToHead bufs id) : x ∈ bufs := by
  unfold moveToHead at hx
  split at hx
  · rename_i b hb
    rcases List.mem_cons.mp hx with rfl | hx
    · exact (findBuf_some hb).1
    · exact List.mem_of_mem_filter hx
  · exact hx

end Bufs

/-! ## The order of release -/

/-- `a` comes before `b` in the order of release: its count dropped to 0 in
`brelse` later, or at the same time (never, in a run) and `a` has the higher
index. -/
def Newer (released : Nat → Nat) (a b : Buf) : Prop :=
  released b.id < released a.id ∨ (released b.id = released a.id ∧ b.id < a.id)

/-- The list from `head.next` runs from the newest release to the oldest. -/
def Sorted (released : Nat → Nat) (bufs : List Buf) : Prop :=
  bufs.Pairwise (Newer released)

theorem Newer.ne {r : Nat → Nat} {a b : Buf} (h : Newer r a b) : a.id ≠ b.id := by
  intro hab
  rcases h with h | ⟨-, h⟩
  · rw [hab] at h
    exact Nat.lt_irrefl _ h
  · omega

theorem sorted_binit : Sorted (fun _ => 0) binit := by
  unfold Sorted binit
  rw [List.pairwise_map, List.pairwise_reverse]
  exact (List.pairwise_lt_range).imp fun h => .inr ⟨rfl, h⟩

/-- Changing fields other than the index keeps the order. -/
theorem Sorted.updBuf {r : Nat → Nat} {bufs : List Buf} {id : Nat} {f : Buf → Buf}
    (h : Sorted r bufs) (hf : ∀ b, (f b).id = b.id) : Sorted r (updBuf bufs id f) := by
  unfold Sorted Xv6.updBuf
  rw [List.pairwise_map]
  refine h.imp fun {a b} hab => ?_
  unfold Newer at hab ⊢
  rw [id_upd hf a, id_upd hf b]
  exact hab

/-- The buffer just released goes to the head with the newest time. -/
theorem Sorted.moveToHead {r : Nat → Nat} {bufs : List Buf} {id clock : Nat} {b : Buf}
    (h : Sorted r bufs) (hle : ∀ i, r i ≤ clock) (hb : findBuf bufs id = some b) :
    Sorted (Function.update r id (clock + 1)) (Xv6.moveToHead bufs id) := by
  have hbid := (findBuf_some hb).2
  rw [moveToHead_of_findBuf hb, Sorted, List.pairwise_cons]
  constructor
  · -- the head is newer than every other buffer
    intro x hx
    have hxid : x.id ≠ id := by simpa using (List.mem_filter.mp hx).2
    left
    rw [Function.update_of_ne hxid, hbid, Function.update_self]
    exact Nat.lt_succ_of_le (hle x.id)
  · -- the others keep their times and their order
    refine (h.sublist List.filter_sublist).imp_of_mem fun {x y} hx hy hxy => ?_
    have hxid : x.id ≠ id := by simpa using (List.mem_filter.mp hx).2
    have hyid : y.id ≠ id := by simpa using (List.mem_filter.mp hy).2
    unfold Newer at hxy ⊢
    rw [Function.update_of_ne hxid, Function.update_of_ne hyid]
    exact hxy

/-- The last buffer of the list with a property is the oldest with it. -/
theorem Sorted.getLast_filter {r : Nat → Nat} {bufs : List Buf} {p : Buf → Bool} {v : Buf}
    (h : Sorted r bufs) (hv : (bufs.filter p).getLast? = some v) :
    ∀ b ∈ bufs, p b = true → b.id ≠ v.id → Newer r b v := by
  intro b hb hpb hne
  obtain ⟨l, hl⟩ := List.getLast?_eq_some_iff.mp hv
  have hsorted : (l ++ [v]).Pairwise (Newer r) := hl ▸ h.filter p
  rw [List.pairwise_append] at hsorted
  have hbl : b ∈ l ++ [v] := hl ▸ List.mem_filter.mpr ⟨hb, hpb⟩
  rcases List.mem_append.mp hbl with hbl | hbv
  · exact hsorted.2.2 b hbl v List.mem_cons_self
  · rw [List.mem_singleton.mp hbv] at hne
    exact absurd rfl hne

/-! ## Each call keeps the invariant -/

/-- The indices of the list are the `NBUF` buffers. -/
def Ids (bufs : List Buf) : Prop := ∀ i, i ∈ bufs.map Buf.id ↔ i < NBUF

/-- Two buffers carry the same block only while neither has been recycled. -/
def Pairs (assigned : Nat → Bool) (bufs : List Buf) : Prop :=
  ∀ b ∈ bufs, ∀ b' ∈ bufs, b.id ≠ b'.id → b.dev = b'.dev → b.blockno = b'.blockno →
    assigned b.id = false ∧ assigned b'.id = false

/-- The invariant of every run. -/
structure Inv (c : Cache) : Prop where
  ids : Ids c.bufs
  sorted : Sorted c.released c.bufs
  released_le : ∀ i, c.released i ≤ c.clock
  pairs : Pairs c.assigned c.bufs

theorem inv_init : Inv Cache.init where
  ids i := by simp [Cache.init, binit, freshBuf]
  sorted := sorted_binit
  released_le _ := Nat.le_refl 0
  pairs _ _ _ _ _ _ _ := ⟨rfl, rfl⟩

section Steps

variable {bufs : List Buf} {id : Nat} {f : Buf → Buf}

theorem Ids.updBuf (h : Ids bufs) (hf : ∀ b, (f b).id = b.id) : Ids (Xv6.updBuf bufs id f) := by
  intro i
  rw [map_id_updBuf hf]
  exact h i

theorem Ids.moveToHead (h : Ids bufs) : Ids (Xv6.moveToHead bufs id) := by
  intro i
  rw [← h i]
  unfold Xv6.moveToHead
  split
  · rename_i b hb
    obtain ⟨hbmem, rfl⟩ := findBuf_some hb
    constructor
    · intro hi
      obtain ⟨x, hx, rfl⟩ := List.mem_map.mp hi
      exact List.mem_map_of_mem (mem_moveToHead (by rw [Xv6.moveToHead, hb]; exact hx))
    · intro hi
      obtain ⟨x, hx, rfl⟩ := List.mem_map.mp hi
      by_cases hxb : x.id = b.id
      · rw [hxb]
        exact List.mem_map_of_mem List.mem_cons_self
      · exact List.mem_map_of_mem (List.mem_cons_of_mem _ (List.mem_filter.mpr ⟨hx, by simpa using hxb⟩))
  · rfl

/-- An update that keeps every buffer's block keeps the pairs. -/
theorem Pairs.updBuf {a : Nat → Bool} (h : Pairs a bufs) (hf : ∀ b, (f b).id = b.id)
    (hdev : ∀ b, (f b).dev = b.dev) (hblk : ∀ b, (f b).blockno = b.blockno) :
    Pairs a (Xv6.updBuf bufs id f) := by
  intro x hx y hy hxy hdv hbl
  obtain ⟨x₀, hx₀, rfl⟩ := mem_updBuf hx
  obtain ⟨y₀, hy₀, rfl⟩ := mem_updBuf hy
  have hkeep : ∀ b : Buf, (if b.id = id then f b else b).dev = b.dev ∧
      (if b.id = id then f b else b).blockno = b.blockno := by
    intro b
    split
    · exact ⟨hdev b, hblk b⟩
    · exact ⟨rfl, rfl⟩
  rw [id_upd hf, id_upd hf] at hxy ⊢
  rw [(hkeep x₀).1, (hkeep y₀).1] at hdv
  rw [(hkeep x₀).2, (hkeep y₀).2] at hbl
  exact h x₀ hx₀ y₀ hy₀ hxy hdv hbl

theorem Pairs.of_subset {a : Nat → Bool} {bufs' : List Buf} (h : Pairs a bufs)
    (hsub : ∀ x ∈ bufs', x ∈ bufs) : Pairs a bufs' :=
  fun x hx y hy => h x (hsub x hx) y (hsub y hy)

/-- A miss recycles a buffer for a block no buffer carries. -/
theorem Pairs.recycle {a : Nat → Bool} {dev blockno : Nat} (h : Pairs a bufs)
    (hmiss : cached dev blockno bufs = false) :
    Pairs (Function.update a id true)
      (Xv6.updBuf bufs id fun b => { b with dev, blockno, valid := false, refcnt := 1 }) := by
  have hnot : ∀ b ∈ bufs, ¬ (b.dev = dev ∧ b.blockno = blockno) := by
    intro b hb hbd
    have := List.any_eq_false.mp hmiss b hb
    simp [hbd.1, hbd.2] at this
  intro x hx y hy hxy hdv hbl
  obtain ⟨x₀, hx₀, rfl⟩ := mem_updBuf hx
  obtain ⟨y₀, hy₀, rfl⟩ := mem_updBuf hy
  by_cases hxid : x₀.id = id
  · -- `x` is the recycled buffer: `y` would carry its new block
    have hyid : y₀.id ≠ id := by
      intro e
      simp only [if_pos hxid, if_pos e] at hxy
      exact hxy (hxid.trans e.symm)
    simp only [if_pos hxid, if_neg hyid] at hdv hbl
    exact absurd ⟨hdv.symm, hbl.symm⟩ (hnot y₀ hy₀)
  · by_cases hyid : y₀.id = id
    · simp only [if_pos hyid, if_neg hxid] at hdv hbl
      exact absurd ⟨hdv, hbl⟩ (hnot x₀ hx₀)
    · -- two buffers the miss does not touch
      simp only [if_neg hxid, if_neg hyid] at hxy hdv hbl ⊢
      rw [Function.update_of_ne hxid, Function.update_of_ne hyid]
      exact h x₀ hx₀ y₀ hy₀ hxy hdv hbl

end Steps

/-! ## The calls -/

/-- What `bgetLocked` can do: on a hit, take a reference on the buffer that
carries the block; on a miss, recycle the last buffer with no reference. -/
theorem bgetLocked_cases {dev blockno id : Nat} {bufs bufs' : List Buf}
    (h : bgetLocked dev blockno bufs = some (id, bufs')) :
    (cached dev blockno bufs = true ∧
      bufs' = updBuf bufs id fun b => { b with refcnt := b.refcnt + 1 }) ∨
    (cached dev blockno bufs = false ∧
      ∃ v, (bufs.filter (·.refcnt == 0)).getLast? = some v ∧ v.id = id ∧
        bufs' = updBuf bufs id fun b => { b with dev, blockno, valid := false, refcnt := 1 }) := by
  unfold bgetLocked at h
  split at h
  · -- a hit
    rename_i b hfind
    cases h
    have hb := List.find?_some hfind
    exact .inl ⟨List.any_eq_true.mpr ⟨b, List.mem_of_find?_eq_some hfind, hb⟩, rfl⟩
  · rename_i hfind
    have hmiss : cached dev blockno bufs = false :=
      List.any_eq_false.mpr fun b hb => by simpa using List.find?_eq_none.mp hfind b hb
    split at h
    · rename_i v hlast
      cases h
      exact .inr ⟨hmiss, v, hlast, rfl, rfl⟩
    · cases h

/-- `brelse` moves the buffer to the head exactly when it held one
reference. -/
theorem brelseLocked_eq (id : Nat) (bufs : List Buf) :
    brelseLocked id bufs =
      if (findBuf bufs id).any (·.refcnt == 1) then
        moveToHead (updBuf bufs id fun b => { b with refcnt := b.refcnt - 1 }) id
      else updBuf bufs id fun b => { b with refcnt := b.refcnt - 1 } := by
  unfold brelseLocked
  dsimp only
  rw [findBuf_updBuf (f := fun b => { b with refcnt := b.refcnt - 1 }) fun _ => rfl]
  cases findBuf bufs id with
  | none => rfl
  | some b =>
    -- the count reaches 0 from 1 only
    have hiff : b.refcnt - 1 = 0 ↔ b.refcnt = 1 := by
      rw [← UInt32.toNat_inj, UInt32.toNat_zero, RingBuf.toNat_sub_eq_zero_iff]
    have hzero : (b.refcnt - 1 == 0) = (b.refcnt == 1) := by
      simp only [beq_eq_decide, hiff]
    simp only [Option.map_some, Option.any_some, hzero]

section Inv

variable {c : Cache}

/-- A call that changes the counts only. -/
theorem Inv.count (h : Inv c) {id : Nat} {f : Buf → Buf} (hf : ∀ b, (f b).id = b.id)
    (hdev : ∀ b, (f b).dev = b.dev) (hblk : ∀ b, (f b).blockno = b.blockno) :
    Inv { c with bufs := updBuf c.bufs id f, clock := c.clock + 1 } where
  ids := h.ids.updBuf hf
  sorted := h.sorted.updBuf hf
  released_le i := Nat.le_succ_of_le (h.released_le i)
  pairs := h.pairs.updBuf hf hdev hblk

theorem Inv.bget (h : Inv c) {dev blockno : Nat} {r : Nat × List Buf}
    (hr : bgetLocked dev blockno c.bufs = some r) :
    Inv { c with bufs := r.2, clock := c.clock + 1,
                 assigned := if cached dev blockno c.bufs then c.assigned
                   else Function.update c.assigned r.1 true } := by
  obtain ⟨id, bufs'⟩ := r
  rcases bgetLocked_cases hr with ⟨hhit, rfl⟩ | ⟨hmiss, v, -, -, rfl⟩
  · -- a hit takes a reference
    simp only [hhit, if_true]
    exact h.count (fun _ => rfl) (fun _ => rfl) (fun _ => rfl)
  · -- a miss recycles
    simp only [hmiss, Bool.false_eq_true, if_false]
    exact ⟨h.ids.updBuf fun _ => rfl, h.sorted.updBuf fun _ => rfl,
      fun i => Nat.le_succ_of_le (h.released_le i), h.pairs.recycle hmiss⟩

theorem Inv.brelse (h : Inv c) (id : Nat) :
    Inv { c with bufs := brelseLocked id c.bufs, clock := c.clock + 1,
                 released := if (findBuf c.bufs id).any (·.refcnt == 1)
                   then Function.update c.released id (c.clock + 1) else c.released } := by
  rw [brelseLocked_eq]
  split
  · -- the last reference: to the head, released now
    rename_i hone
    obtain ⟨b, hb, -⟩ := (Option.any_eq_true _ _).mp hone
    have hb' : findBuf (updBuf c.bufs id fun b => { b with refcnt := b.refcnt - 1 }) id =
        some { b with refcnt := b.refcnt - 1 } := by
      rw [findBuf_updBuf (f := fun b => { b with refcnt := b.refcnt - 1 }) fun _ => rfl, hb]
      rfl
    have hids : Ids (updBuf c.bufs id fun b => { b with refcnt := b.refcnt - 1 }) :=
      h.ids.updBuf fun _ => rfl
    have hsorted : Sorted c.released (updBuf c.bufs id fun b => { b with refcnt := b.refcnt - 1 }) :=
      h.sorted.updBuf fun _ => rfl
    have hpairs : Pairs c.assigned (updBuf c.bufs id fun b => { b with refcnt := b.refcnt - 1 }) :=
      h.pairs.updBuf (fun _ => rfl) (fun _ => rfl) (fun _ => rfl)
    refine ⟨hids.moveToHead, hsorted.moveToHead h.released_le hb', fun i => ?_,
      hpairs.of_subset fun _ hx => mem_moveToHead hx⟩
    show Function.update c.released id (c.clock + 1) i ≤ c.clock + 1
    by_cases hi : i = id
    · rw [hi]
      exact Nat.le_of_eq (Function.update_self id (c.clock + 1) c.released)
    · rw [Function.update_of_ne hi]
      exact Nat.le_succ_of_le (h.released_le i)
  · exact h.count (fun _ => rfl) (fun _ => rfl) (fun _ => rfl)

theorem Inv.call (h : Inv c) {call : Call} {c' : Cache} (hc : c.call call = some c') : Inv c' := by
  cases call with
  | bget dev blockno =>
    obtain ⟨r, hr, rfl⟩ := Option.map_eq_some_iff.mp hc
    exact h.bget hr
  | brelse id =>
    cases hc
    exact h.brelse id
  | bpin id =>
    cases hc
    exact h.count (fun _ => rfl) (fun _ => rfl) (fun _ => rfl)
  | bunpin id =>
    cases hc
    exact h.count (fun _ => rfl) (fun _ => rfl) (fun _ => rfl)

theorem Inv.run : ∀ {calls : List Call} {c c' : Cache}, Inv c → c.run calls = some c' → Inv c'
  | [], _, _, h, hrun => by
    cases hrun
    exact h
  | _ :: _, _, _, h, hrun => by
    obtain ⟨c₁, hc₁, hrest⟩ := Option.bind_eq_some_iff.mp hrun
    exact Inv.run (h.call hc₁) hrest

end Inv

/-! ## Every run -/

/-- Sorted indices are distinct: the list is a permutation of the buffers. -/
theorem Ids.perm {bufs : List Buf} {r : Nat → Nat} (h : Ids bufs) (hs : Sorted r bufs) :
    (bufs.map Buf.id).Perm (List.range NBUF) := by
  have hnodup : (bufs.map Buf.id).Nodup := List.pairwise_map.mpr (hs.imp Newer.ne)
  refine (List.perm_ext_iff_of_nodup hnodup List.nodup_range).mpr fun i => ?_
  rw [List.mem_range]
  exact h i

/-- A recycled buffer's block is found in that buffer. -/
theorem Pairs.bget_hit {a : Nat → Bool} {bufs : List Buf} (h : Pairs a bufs) {b : Buf}
    (hb : b ∈ bufs) (ha : a b.id = true) :
    ∃ bufs', bgetLocked b.dev b.blockno bufs = some (b.id, bufs') := by
  cases hfind : bufs.find? (fun x => x.dev == b.dev && x.blockno == b.blockno) with
  | none =>
    have := List.find?_eq_none.mp hfind b hb
    simp at this
  | some x =>
    have hx := List.mem_of_find?_eq_some hfind
    have hpx : x.dev = b.dev ∧ x.blockno = b.blockno := by simpa using List.find?_some hfind
    -- another buffer with the block would leave `b` never recycled
    have hxb : x.id = b.id := by
      by_contra hne
      have := (h x hx b hb hne hpx.1 hpx.2).2
      rw [ha] at this
      cases this
    rw [bgetLocked, hfind]
    exact ⟨_, by dsimp only; rw [hxb]⟩

/-- The buffer cache is a unique list in the order of release. Over every
sequence of calls from `binit`: the list holds each of the `NBUF` buffers
once; two buffers carry the same block only while neither has been
recycled, so `bget` of a recycled buffer's block returns that buffer; and a
miss recycles, among the buffers with no reference, the one whose count last
dropped to 0 in `brelse` longest ago, the never-released first and among
them the lowest index first. -/
theorem bcache_lru {calls : List Call} {c : Cache} (hrun : Cache.init.run calls = some c) :
    (c.bufs.map Buf.id).Perm (List.range NBUF) ∧
      (∀ b ∈ c.bufs, ∀ b' ∈ c.bufs, b.id ≠ b'.id → b.dev = b'.dev → b.blockno = b'.blockno →
        c.assigned b.id = false ∧ c.assigned b'.id = false) ∧
      (∀ b ∈ c.bufs, c.assigned b.id = true →
        ∃ bufs', bgetLocked b.dev b.blockno c.bufs = some (b.id, bufs')) ∧
      (∀ dev blockno id bufs', cached dev blockno c.bufs = false →
        bgetLocked dev blockno c.bufs = some (id, bufs') →
          ∃ v ∈ c.bufs, v.id = id ∧ v.refcnt = 0 ∧
            ∀ b ∈ c.bufs, b.refcnt = 0 → b.id ≠ id → Newer c.released b v) := by
  have h := inv_init.run hrun
  refine ⟨h.ids.perm h.sorted, h.pairs, fun b hb ha => h.pairs.bget_hit hb ha, ?_⟩
  intro dev blockno id bufs' hmiss hget
  rcases bgetLocked_cases hget with ⟨hhit, -⟩ | ⟨-, v, hlast, hvid, -⟩
  · rw [hmiss] at hhit
    cases hhit
  · -- the victim is the last buffer with no reference
    have hv := List.mem_filter.mp (List.mem_of_getLast? hlast)
    refine ⟨v, hv.1, hvid, by simpa using hv.2, fun b hb hzero hne => ?_⟩
    exact h.sorted.getLast_filter hlast b hb (by simpa using hzero) (hvid ▸ hne)

/-- `bget(1, 10)` recycles `buf[0]`, the tail of `binit`'s list, and
`brelse` moves it to the head; the miss `bget(1, 11)` then recycles `buf[1]`,
the new tail. -/
theorem bcache_lru_release_then_miss :
    ∃ c, Cache.init.run [.bget 1 10, .brelse 0, .bget 1 11] = some c ∧
      (findBuf c.bufs 1).map (fun b => (b.dev, b.blockno)) = some (1, 11) ∧
      ((c.bufs.map Buf.id).Perm (List.range NBUF) ∧
        (∀ b ∈ c.bufs, ∀ b' ∈ c.bufs, b.id ≠ b'.id → b.dev = b'.dev → b.blockno = b'.blockno →
          c.assigned b.id = false ∧ c.assigned b'.id = false) ∧
        (∀ b ∈ c.bufs, c.assigned b.id = true →
          ∃ bufs', bgetLocked b.dev b.blockno c.bufs = some (b.id, bufs')) ∧
        (∀ dev blockno id bufs', cached dev blockno c.bufs = false →
          bgetLocked dev blockno c.bufs = some (id, bufs') →
            ∃ v ∈ c.bufs, v.id = id ∧ v.refcnt = 0 ∧
              ∀ b ∈ c.bufs, b.refcnt = 0 → b.id ≠ id → Newer c.released b v)) := by
  have hrecycled : (Cache.init.run [.bget 1 10, .brelse 0, .bget 1 11]).map
      (fun c => (findBuf c.bufs 1).map fun b => (b.dev, b.blockno)) = some (some (1, 11)) := by
    decide
  obtain ⟨c, hc⟩ := Option.isSome_iff_exists.mp
    (show (Cache.init.run [.bget 1 10, .brelse 0, .bget 1 11]).isSome from by decide)
  rw [hc, Option.map_some, Option.some_inj] at hrecycled
  exact ⟨c, hc, hrecycled, bcache_lru hc⟩

/-- `bget(1, 10)` recycles `buf[0]`, which `bpin` pins and `brelse`
releases, so it keeps one reference and stays in place; `bunpin` then drops
its count to 0, and it still stays, at the tail of the list. The next miss,
`bget(1, 11)`, recycles `buf[0]`, the buffer used last, and not `buf[1]`,
which was never used. -/
theorem bunpin_keeps_lru_place :
    ((Cache.init.run [.bget 1 10, .bpin 0, .brelse 0]).map fun c =>
        (findBuf c.bufs 0).map (·.refcnt)) = some (some 1) ∧
      ((Cache.init.run [.bget 1 10, .bpin 0, .brelse 0, .bunpin 0]).map fun c =>
        ((findBuf c.bufs 0).map (·.refcnt), c.bufs.getLast?.map Buf.id,
          (findBuf c.bufs 1).map (·.refcnt), c.assigned 1,
          (bgetLocked 1 11 c.bufs).map Prod.fst)) =
        some (some 0, some 0, some 0, false, some 0) := by
  decide

/-! ## The kernel's calls run the parts -/

section Unlock

variable {bufs : List Buf} {id : Nat}

end Unlock

end Lru

end Xv6
