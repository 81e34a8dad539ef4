import Xv6.Exec
import Xv6.Library.Memory
import Xv6.Library.StateExcept
import Xv6.Library.Trace
import Mathlib

/-!
# The physical page allocator (`kernel/kalloc.c`)

`kalloc.c` keeps the free pages of physical memory in a list threaded through
the pages themselves: the first word of a free page (`struct run`) holds the
address of the next free page, and `kmem.freelist` the first. `kfree` fills a
page with junk, links it in front and makes it the head; `kalloc` takes the
head, moves the head to its link and fills the page with other junk. `kinit`
frees, one after the other, every whole page from the end of the kernel (`end`,
set by the linker) up to `PHYSTOP`.

Memory is a function from addresses to bytes, and a link the little-endian
word of 8 bytes at the start of a page (`Memory.load`, `Memory.store`).
`kmem.lock` is left out: `kfree` and `kalloc` change `kmem.freelist` only while
they hold it, so each is one step here.

The free list is well formed when it runs from `kmem.freelist` through
distinct pages that `kfree` accepts to a `0` (`Valid`). `kfree` of a page not
on it and `kalloc` keep it so (`Valid.kfree`, `Valid.kalloc_cons`), and a store
anywhere outside the free pages leaves it alone (`Chain.write_away`). `kinit`
builds a list of exactly the pages `kfree` accepts (`kinit_valid`). Kernel code
that frees only the pages it got from `kalloc` and stores only into them is a
system of steps (`step`), whose runs keep every page either free or held and
never both (`Inv.step`): `kfree` never panics in them, and `kalloc` never
hands out a page that is still held. Freeing a page twice breaks this: the next
two `kalloc`s both return it (`kfree_twice_kalloc`).
-/

namespace Xv6

namespace Kalloc

open Memory Trace

/-- `memlayout.h`: where RAM, and the kernel in it, starts. -/
def KERNBASE : Nat := 0x80000000

/-- `memlayout.h`: the end of the RAM the kernel uses. -/
def PHYSTOP : Nat := KERNBASE + 128 * 1024 * 1024

/-- `memset` (`kernel/string.c`): `cdst[i] = c` for every `i < n`, with `c`
the `char` it stores. -/
def memset : (Nat → UInt8) → Nat → UInt8 → Nat → (Nat → UInt8)
  | m, _, _, 0 => m
  | m, dst, c, n + 1 => memset (Function.update m dst c) (dst + 1) c n

theorem memset_eq : ∀ (m : Nat → UInt8) (dst : Nat) (c : UInt8) (n : Nat),
    memset m dst c n = write m dst (List.replicate n c)
  | m, dst, c, 0 => by rw [memset, List.replicate_zero, write_nil]
  | m, dst, c, n + 1 => by rw [memset, memset_eq, List.replicate_succ, write_cons]

/-- Physical memory, with the one variable of the allocator. -/
structure Kmem where
  mem : Nat → UInt8
  /-- `kmem.freelist`: the first free page, `0` when there is none. -/
  freelist : Nat

/-- Kernel code over physical memory: it may panic. -/
abbrev KallocM := StateT Kmem (Except Stop)

section Code

-- `end`, the first address after the kernel (`kernel.ld`)
variable (kend : Nat)

def kfree (pa : Nat) : KallocM Unit := do
  if pa % PGSIZE ≠ 0 ∨ pa < kend ∨ PHYSTOP ≤ pa then throw (.panic "kfree")
  -- Fill with junk to catch dangling refs.
  modify fun s => { s with mem := memset s.mem pa 1 PGSIZE }
  -- `r->next = kmem.freelist; kmem.freelist = r;`
  modify fun s => { mem := store s.mem pa 8 s.freelist, freelist := pa }

/-- `kalloc`: a page, or `0` when none is free. -/
def kalloc : KallocM Nat := do
  let r := (← get).freelist
  if r ≠ 0 then modify fun s => { s with freelist := load s.mem r 8 }
  if r ≠ 0 then modify fun s => { s with mem := memset s.mem r 5 PGSIZE }
  return r

/-- The loop of `freerange`, from the page at `p`. -/
def freerangeLoop (p pa_end : Nat) : KallocM Unit :=
  if p + PGSIZE ≤ pa_end then do
    kfree kend p
    freerangeLoop (p + PGSIZE) pa_end
  else pure ()
termination_by pa_end - p
decreasing_by unfold PGSIZE at *; omega

def freerange (pa_start pa_end : Nat) : KallocM Unit :=
  freerangeLoop kend (Fs.pgroundup pa_start) pa_end

/-- `kinit`, but for the lock's initialisation. -/
def kinit : KallocM Unit :=
  freerange kend kend PHYSTOP

end Code

/-- The pages `freerange`'s loop frees from `p` on, in the order it frees
them. -/
def pagesFrom (p pa_end : Nat) : List Nat :=
  if p + PGSIZE ≤ pa_end then p :: pagesFrom (p + PGSIZE) pa_end else []
termination_by pa_end - p
decreasing_by unfold PGSIZE at *; omega

/-- From an aligned start, the loop frees every aligned page that fits below
`pa_end`. -/
theorem mem_pagesFrom {q : Nat} : ∀ {p pa_end : Nat}, p % PGSIZE = 0 →
    (q ∈ pagesFrom p pa_end ↔ q % PGSIZE = 0 ∧ p ≤ q ∧ q + PGSIZE ≤ pa_end) := by
  intro p pa_end
  fun_induction pagesFrom p pa_end with
  | case1 p h ih =>
    intro hp
    rw [List.mem_cons, ih (by unfold PGSIZE at hp ⊢; omega)]
    unfold PGSIZE at *
    omega
  | case2 p h =>
    intro _
    simp only [List.not_mem_nil, false_iff]
    unfold PGSIZE at *
    omega

/-! ## The free list -/

/-- A page `kfree` accepts. -/
def Page (kend p : Nat) : Prop := p % PGSIZE = 0 ∧ kend ≤ p ∧ p < PHYSTOP

/-- The list from `head` is the pages `ps` in order: the first word of each is
the address of the next, and the word after the last is `0`. -/
def Chain (m : Nat → UInt8) : Nat → List Nat → Prop
  | head, [] => head = 0
  | head, p :: ps => head = p ∧ p ≠ 0 ∧ Chain m (load m p 8) ps

/-- The free list holds the pages `ps`, each a page `kfree` accepts, none
twice. -/
structure Valid (kend : Nat) (s : Kmem) (ps : List Nat) : Prop where
  chain : Chain s.mem s.freelist ps
  nodup : ps.Nodup
  page : ∀ p ∈ ps, Page kend p

/-- The addresses from `a` below `a + n` lie outside every page of `ps`. -/
def Away (ps : List Nat) (a n : Nat) : Prop := ∀ p ∈ ps, a + n ≤ p ∨ p + PGSIZE ≤ a

variable {kend : Nat} {s : Kmem} {m : Nat → UInt8} {head p a : Nat} {ps : List Nat}

/-- Two pages at different aligned addresses do not meet. -/
theorem page_disjoint {q : Nat} (hp : p % PGSIZE = 0) (hq : q % PGSIZE = 0) (hne : p ≠ q) :
    p + PGSIZE ≤ q ∨ q + PGSIZE ≤ p := by
  unfold PGSIZE at *
  omega

theorem Page.ne_zero (hend : 0 < kend) (hp : Page kend p) : p ≠ 0 := by
  have := hp.2.1
  omega

/-- A page's address fits in the 8-byte link of `struct run`. -/
theorem Page.lt_word (hp : Page kend p) : p < 256 ^ 8 := by
  have := hp.2.2
  unfold PHYSTOP KERNBASE at this
  omega

theorem Away.mono {n k : Nat} (h : Away ps a n) (hk : k ≤ n) : Away ps a k :=
  fun p hp => (h p hp).imp (fun h => by omega) id

/-- An aligned page not among aligned pages lies outside them. -/
theorem away_of_not_mem (hp : p % PGSIZE = 0) (hps : ∀ q ∈ ps, q % PGSIZE = 0) (h : p ∉ ps) :
    Away ps p PGSIZE := by
  intro q hq
  have hne : p ≠ q := fun he => h (he ▸ hq)
  exact page_disjoint hp (hps q hq) hne

/-- A chain reads only the first words of its pages. -/
theorem Chain.congr {m' : Nat → UInt8} :
    ∀ {head : Nat} {ps : List Nat}, Chain m head ps →
      (∀ p ∈ ps, ∀ j < 8, m' (p + j) = m (p + j)) → Chain m' head ps
  | _, [], h, _ => h
  | _, p :: ps, h, hm => by
    obtain ⟨hhead, hp, hrest⟩ := h
    refine ⟨hhead, hp, ?_⟩
    rw [load_congr (hm p List.mem_cons_self)]
    exact hrest.congr fun q hq => hm q (List.mem_cons_of_mem _ hq)

/-- A write outside the pages of a chain keeps it. -/
theorem Chain.write_away {bs : List UInt8} (h : Chain m head ps) (ha : Away ps a bs.length) :
    Chain (write m a bs) head ps :=
  h.congr fun p hp j _ => by
    have := ha p hp
    unfold PGSIZE at this
    exact write_of_not_mem (by omega)

theorem Chain.head_lt (h : Chain m head ps) (hps : ∀ p ∈ ps, Page kend p) : head < PHYSTOP := by
  cases ps with
  | nil =>
    rw [show head = 0 from h]
    decide
  | cons p ps =>
    rw [h.1]
    exact (hps p List.mem_cons_self).2.2

/-! ## `kfree` and `kalloc` -/

/-- The state `kfree pa` leaves: the page filled with `1`s, but for its first
word, the old head, and the page the new head. -/
def freed (s : Kmem) (pa : Nat) : Kmem where
  mem := store (memset s.mem pa 1 PGSIZE) pa 8 s.freelist
  freelist := pa

/-- The state `kalloc` leaves when the list is not empty: the head filled
with `5`s, and its link the new head. -/
def taken (s : Kmem) : Kmem where
  mem := memset s.mem s.freelist 5 PGSIZE
  freelist := load s.mem s.freelist 8

/-- The link `kfree` writes into the page is the old head. -/
theorem load_freed (h : s.freelist < 256 ^ 8) : load (freed s p).mem p 8 = s.freelist := by
  rw [freed, load_store_self, Nat.mod_eq_of_lt h]

theorem kfree_run (h : Page kend p) : (kfree kend p).run s = .ok ((), freed s p) := by
  have hc : ¬ (p % PGSIZE ≠ 0 ∨ p < kend ∨ PHYSTOP ≤ p) := by
    unfold Page at h
    omega
  simp only [kfree, hc, if_false, StateT.run_bind, StateT.run_modify, pure_bind]
  rfl

theorem kalloc_run_zero (h : s.freelist = 0) : kalloc.run s = .ok (0, s) := by
  simp only [kalloc, StateT.run_bind, StateT.run_get, pure_bind, h, ne_eq, not_true_eq_false,
    if_false, StateT.run_pure]
  rfl

theorem kalloc_run (h : s.freelist ≠ 0) : kalloc.run s = .ok (s.freelist, taken s) := by
  simp only [kalloc, StateT.run_bind, StateT.run_get, pure_bind, h, ne_eq, not_false_eq_true,
    if_true, StateT.run_pure, StateT.run_modify]
  rfl

/-- `kalloc` never fails. -/
theorem kalloc_run_ok (s : Kmem) : ∃ r k, kalloc.run s = .ok (r, k) := by
  by_cases h : s.freelist = 0
  · exact ⟨0, s, kalloc_run_zero h⟩
  · exact ⟨s.freelist, taken s, kalloc_run h⟩

/-- `kalloc` from a list with a page on it returns the page and leaves the
rest of the list. -/
theorem Valid.kalloc_cons (hv : Valid kend s (p :: ps)) :
    kalloc.run s = .ok (p, taken s) ∧ Valid kend (taken s) ps := by
  obtain ⟨hhead, hp0, hrest⟩ := hv.chain
  have hp : p ∉ ps := (List.nodup_cons.mp hv.nodup).1
  have haway : Away ps p PGSIZE :=
    away_of_not_mem (hv.page p List.mem_cons_self).1
      (fun q hq => (hv.page q (List.mem_cons_of_mem _ hq)).1) hp
  refine ⟨hhead ▸ kalloc_run (hhead ▸ hp0), ⟨?_, (List.nodup_cons.mp hv.nodup).2,
    fun q hq => hv.page q (List.mem_cons_of_mem _ hq)⟩⟩
  rw [taken, hhead, memset_eq]
  exact hrest.write_away (by rwa [List.length_replicate])

/-- `kalloc` from the empty list returns `0` and changes nothing. -/
theorem Valid.kalloc_nil (hv : Valid kend s []) : kalloc.run s = .ok (0, s) :=
  kalloc_run_zero hv.chain

theorem pgroundup_mod (sz : Nat) : Fs.pgroundup sz % PGSIZE = 0 := by
  unfold Fs.pgroundup
  exact Nat.mul_mod_left _ _

/-- Below `2^64 - PGSIZE`, rounding up does not wrap. -/
theorem le_pgroundup {sz : Nat} (h : sz ≤ PHYSTOP) : sz ≤ Fs.pgroundup sz := by
  unfold Fs.pgroundup PGSIZE
  unfold PHYSTOP KERNBASE at h
  rw [Nat.mod_eq_of_lt (by omega)]
  omega

section Free

variable (hend : 0 < kend)
include hend

/-- `kfree` of a page not on the list puts it in front. -/
theorem Valid.kfree (hv : Valid kend s ps) (hp : Page kend p) (hfresh : p ∉ ps) :
    Valid kend (freed s p) (p :: ps) := by
  have hlt : s.freelist < 256 ^ 8 :=
    Nat.lt_of_lt_of_le (hv.chain.head_lt hv.page) (by unfold PHYSTOP KERNBASE; omega)
  have haway : Away ps p PGSIZE := away_of_not_mem hp.1 (fun q hq => (hv.page q hq).1) hfresh
  refine ⟨⟨rfl, hp.ne_zero hend, ?_⟩, List.nodup_cons.mpr ⟨hfresh, hv.nodup⟩, ?_⟩
  · rw [load_freed hlt, freed, store, memset_eq]
    refine (hv.chain.write_away ?_).write_away ?_
    · rwa [List.length_replicate]
    · rw [LEBytes.length_leBytes]
      exact haway.mono (by unfold PGSIZE; omega)
  · exact List.forall_mem_cons.mpr ⟨hp, hv.page⟩

/-! ## `kinit` -/

/-- `freerange`'s loop from an aligned page above every free page frees the
pages from there on, each going in front of the list. -/
theorem freerangeLoop_valid : ∀ (p pa_end : Nat) {s : Kmem} {ps : List Nat},
    Valid kend s ps → p % PGSIZE = 0 → kend ≤ p → pa_end ≤ PHYSTOP → (∀ q ∈ ps, q < p) →
    ∃ s', (freerangeLoop kend p pa_end).run s = .ok ((), s') ∧
      Valid kend s' ((pagesFrom p pa_end).reverse ++ ps) := by
  intro p pa_end
  fun_induction pagesFrom p pa_end with
  | case1 p h ih =>
    intro s ps hv hp hkp hend' hlt
    have hpage : Page kend p := ⟨hp, hkp, by unfold PGSIZE at h; omega⟩
    have hfresh : p ∉ ps := fun hm => Nat.lt_irrefl p (hlt p hm)
    obtain ⟨s', hrun, hv'⟩ := ih (hv.kfree hend hpage hfresh) (by unfold PGSIZE at hp ⊢; omega)
      (by omega) hend' (fun q hq => by
        rcases List.mem_cons.mp hq with rfl | hq
        · unfold PGSIZE; omega
        · have := hlt q hq; omega)
    refine ⟨s', ?_, ?_⟩
    · rw [freerangeLoop, if_pos h, StateExcept.run_bind_of_run (kfree_run hpage)]
      exact hrun
    · rw [List.reverse_cons, List.append_assoc, List.singleton_append]
      exact hv'
  | case2 p h =>
    intro s ps hv _ _ _ _
    refine ⟨s, ?_, ?_⟩
    · rw [freerangeLoop, if_neg h]
      rfl
    · exact hv

/-- `kinit`, from any memory and an empty list, leaves a free list of exactly
the pages `kfree` accepts. -/
theorem kinit_valid (hk : kend ≤ PHYSTOP) (m : Nat → UInt8) :
    ∃ s, (kinit kend).run ⟨m, 0⟩ = .ok ((), s) ∧
      Valid kend s (pagesFrom (Fs.pgroundup kend) PHYSTOP).reverse ∧
      ∀ q, q ∈ (pagesFrom (Fs.pgroundup kend) PHYSTOP).reverse ↔ Page kend q := by
  have hv₀ : Valid kend ⟨m, 0⟩ [] := ⟨rfl, List.nodup_nil, fun _ h => absurd h List.not_mem_nil⟩
  obtain ⟨s, hrun, hv⟩ := freerangeLoop_valid hend (Fs.pgroundup kend) PHYSTOP hv₀
    (pgroundup_mod kend) (le_pgroundup hk) le_rfl (fun _ h => absurd h List.not_mem_nil)
  refine ⟨s, hrun, by rwa [List.append_nil] at hv, fun q => ?_⟩
  have hle := le_pgroundup hk
  rw [List.mem_reverse, mem_pagesFrom (pgroundup_mod kend)]
  unfold Page
  constructor
  · rintro ⟨hq, hup, hlt⟩
    exact ⟨hq, by omega, by unfold PGSIZE at hlt; omega⟩
  · rintro ⟨hq, hkq, hlt⟩
    -- the rounded-up end is the first aligned address at or above `end`
    have hup : Fs.pgroundup kend ≤ q := by
      unfold Fs.pgroundup PGSIZE at *
      unfold PHYSTOP KERNBASE at hk
      rw [Nat.mod_eq_of_lt (by omega)]
      omega
    refine ⟨hq, hup, ?_⟩
    unfold PHYSTOP KERNBASE PGSIZE at *
    omega

/-! ## A page freed twice -/

/-- `kfree` does not notice a page that is already free: after freeing a page
twice, the next two `kalloc`s both return it, and the head is then the junk
the second `kalloc` read from the page. -/
theorem kfree_twice_kalloc (hp : Page kend p) (s : Kmem) :
    ∃ s', (do kfree kend p; kfree kend p; let a ← kalloc; let b ← kalloc; pure (a, b)).run s =
      .ok ((p, p), s') ∧ s'.freelist = 0x0505050505050505 := by
  have hp0 : p ≠ 0 := hp.ne_zero hend
  have hk : p + 8 ≤ p + PGSIZE := by unfold PGSIZE; omega
  have h₂ : (freed (freed s p) p).freelist = p := rfl
  -- the second `kfree` links the page to itself
  have h₃ : load (freed (freed s p) p).mem p 8 = p := load_freed hp.lt_word
  have h₃' : (taken (freed (freed s p) p)).freelist = p := h₃
  -- the second `kalloc` reads its link from the `5`s the first filled the page with
  have h₄ : load (taken (freed (freed s p) p)).mem p 8 = 0x0505050505050505 := by
    have h55 : LEBytes.leValue (List.replicate 8 5) = 0x0505050505050505 := by decide
    rw [taken, h₂, memset_eq, load_write_replicate le_rfl hk, h55]
  have h₄' : (taken (taken (freed (freed s p) p))).freelist = 0x0505050505050505 := by
    show load (taken (freed (freed s p) p)).mem (taken (freed (freed s p) p)).freelist 8 = _
    rw [h₃', h₄]
  refine ⟨taken (taken (freed (freed s p) p)), ?_, h₄'⟩
  rw [StateExcept.run_bind_of_run (kfree_run hp), StateExcept.run_bind_of_run (kfree_run hp),
    StateExcept.run_bind_of_run (kalloc_run (s := freed (freed s p) p) hp0),
    StateExcept.run_bind_of_run (kalloc_run (s := taken (freed (freed s p) p)) (by rw [h₃']; exact hp0)),
    h₂, h₃']
  rfl

omit hend in
theorem kfree_twice_kalloc_top :
    0 < KERNBASE + PGSIZE ∧ Page (KERNBASE + PGSIZE) (PHYSTOP - PGSIZE) ∧
      ∃ s', (do
          kfree (KERNBASE + PGSIZE) (PHYSTOP - PGSIZE)
          kfree (KERNBASE + PGSIZE) (PHYSTOP - PGSIZE)
          let a ← kalloc
          let b ← kalloc
          pure (a, b)).run ⟨fun _ => 0, 0⟩ =
        .ok ((PHYSTOP - PGSIZE, PHYSTOP - PGSIZE), s') ∧ s'.freelist = 0x0505050505050505 :=
  ⟨by decide, by unfold Page; decide,
    kfree_twice_kalloc (by decide) (by unfold Page; decide) _⟩

end Free

/-! ## Kernel code over the allocator -/

/-- What kernel code does with physical pages: take one, give one back, or
store bytes into memory. -/
inductive Op
  | kalloc
  | kfree (pa : Nat)
  | write (a : Nat) (bs : List UInt8)

/-- Physical memory, with the pages `kalloc` has handed out that are not yet
freed. -/
structure World where
  kmem : Kmem
  held : List Nat

/-- A step of kernel code that frees only the pages it holds and stores only
into them; any other step cannot happen (`none`). -/
def step (kend : Nat) (w : World) : Op → Option (Except Stop World)
  | .kalloc => some ((kalloc.run w.kmem).map fun r =>
      ⟨r.2, if r.1 = 0 then w.held else r.1 :: w.held⟩)
  | .kfree pa =>
    if pa ∈ w.held then some (((kfree kend pa).run w.kmem).map fun r => ⟨r.2, w.held.erase pa⟩)
    else none
  | .write a bs =>
    if ∃ p ∈ w.held, p ≤ a ∧ a + bs.length ≤ p + PGSIZE then
      some (.ok ⟨{ w.kmem with mem := write w.kmem.mem a bs }, w.held⟩)
    else none

/-- Every page is on the free list `ps` or held, never both, and every held
page is one `kfree` accepts. -/
structure Inv (kend : Nat) (w : World) (ps : List Nat) : Prop where
  valid : Valid kend w.kmem ps
  held : ∀ p ∈ w.held, Page kend p
  nodup : (ps ++ w.held).Nodup

variable {w w' : World} {e : Op}

theorem Inv.not_mem_held (hi : Inv kend w ps) (hp : p ∈ ps) : p ∉ w.held :=
  List.disjoint_of_nodup_append hi.nodup hp

theorem Inv.step_kalloc (hi : Inv kend w ps) (h : step kend w .kalloc = some (.ok w')) :
    ∃ ps', Inv kend w' ps' ∧ (ps' ++ w'.held).Perm (ps ++ w.held) := by
  cases ps with
  | nil =>
    simp only [step, hi.valid.kalloc_nil, Except.map, if_pos, Option.some.injEq,
      Except.ok.injEq] at h
    subst h
    exact ⟨[], hi, List.Perm.refl _⟩
  | cons p ps =>
    obtain ⟨hrun, hv⟩ := hi.valid.kalloc_cons
    have hp0 : p ≠ 0 := hi.valid.chain.2.1
    simp only [step, hrun, Except.map, hp0, if_false, Option.some.injEq, Except.ok.injEq] at h
    subst h
    have hperm : (ps ++ p :: w.held).Perm ((p :: ps) ++ w.held) := List.perm_middle
    refine ⟨ps, ⟨hv, List.forall_mem_cons.mpr ⟨hi.valid.page p List.mem_cons_self, hi.held⟩,
      hperm.nodup_iff.mpr hi.nodup⟩, hperm⟩

theorem Inv.step_write {a : Nat} {bs : List UInt8} (hi : Inv kend w ps)
    (h : step kend w (.write a bs) = some (.ok w')) :
    ∃ ps', Inv kend w' ps' ∧ (ps' ++ w'.held).Perm (ps ++ w.held) := by
  by_cases hin : ∃ p ∈ w.held, p ≤ a ∧ a + bs.length ≤ p + PGSIZE
  · simp only [step, hin, if_true, Option.some.injEq, Except.ok.injEq] at h
    subst h
    obtain ⟨p, hp, hpa, hap⟩ := hin
    -- the held page is none of the free ones, so the store misses them all
    have haway : Away ps a bs.length := by
      intro q hq
      have hne : p ≠ q := fun he => hi.not_mem_held hq (he ▸ hp)
      have := page_disjoint (hi.held p hp).1 (hi.valid.page q hq).1 hne
      omega
    exact ⟨ps, ⟨⟨hi.valid.chain.write_away haway, hi.valid.nodup, hi.valid.page⟩, hi.held,
      hi.nodup⟩, List.Perm.refl _⟩
  · simp only [step, hin, if_false, reduceCtorEq] at h

section Run

variable (hend : 0 < kend)
include hend

theorem Inv.step_kfree {pa : Nat} (hi : Inv kend w ps) (h : step kend w (.kfree pa) = some (.ok w')) :
    ∃ ps', Inv kend w' ps' ∧ (ps' ++ w'.held).Perm (ps ++ w.held) := by
  by_cases hpa : pa ∈ w.held
  · have hpage := hi.held pa hpa
    simp only [step, hpa, if_true, kfree_run hpage, Except.map, Option.some.injEq,
      Except.ok.injEq] at h
    subst h
    have hfresh : pa ∉ ps := fun hm => hi.not_mem_held hm hpa
    -- the page moves from the held ones to the front of the free list
    have hperm : ((pa :: ps) ++ w.held.erase pa).Perm (ps ++ w.held) :=
      (List.perm_middle.symm.trans (List.Perm.append_left ps (List.perm_cons_erase hpa).symm))
    exact ⟨pa :: ps, ⟨hi.valid.kfree hend hpage hfresh,
      fun q hq => hi.held q (List.mem_of_mem_erase hq), hperm.nodup_iff.mpr hi.nodup⟩, hperm⟩
  · simp only [step, hpa, if_false, reduceCtorEq] at h

/-- Every step keeps every page either free or held, never both. -/
theorem Inv.step (hi : Inv kend w ps) (h : step kend w e = some (.ok w')) :
    ∃ ps', Inv kend w' ps' ∧ (ps' ++ w'.held).Perm (ps ++ w.held) := by
  cases e with
  | kalloc => exact hi.step_kalloc h
  | kfree pa => exact hi.step_kfree hend h
  | write a bs => exact hi.step_write h

omit hend in
/-- No step fails: `kfree` of a held page does not panic. -/
theorem Inv.step_ne_error {x : Stop} (hi : Inv kend w ps) : Kalloc.step kend w e ≠ some (.error x) := by
  cases e with
  | kalloc =>
    obtain ⟨r, k, hr⟩ := kalloc_run_ok w.kmem
    simp [Kalloc.step, hr, Except.map]
  | kfree pa =>
    by_cases hpa : pa ∈ w.held
    · simp [Kalloc.step, hpa, kfree_run (hi.held pa hpa), Except.map]
    · simp [Kalloc.step, hpa]
  | write a bs =>
    by_cases hin : ∃ p ∈ w.held, p ≤ a ∧ a + bs.length ≤ p + PGSIZE
    · simp [Kalloc.step, hin]
    · simp [Kalloc.step, hin]

/-- A run keeps the invariant, with the same pages free or held. -/
theorem Inv.run {es : List Op} (hi : Inv kend w ps) (hrun : runSteps (Kalloc.step kend) w es = some (.ok w')) :
    ∃ ps', Inv kend w' ps' ∧ (ps' ++ w'.held).Perm (ps ++ w.held) := by
  refine runSteps_inv (I := fun w' => ∃ ps', Inv kend w' ps' ∧ (ps' ++ w'.held).Perm (ps ++ w.held))
    (fun w₁ e w₂ hw₁ h => ?_) es ⟨ps, hi, List.Perm.refl _⟩ hrun
  obtain ⟨ps₁, hi₁, hperm₁⟩ := hw₁
  obtain ⟨ps₂, hi₂, hperm₂⟩ := hi₁.step hend h
  exact ⟨ps₂, hi₂, hperm₂.trans hperm₁⟩

/-- No run fails. -/
theorem Inv.run_ne_error {es : List Op} {x : Stop} (hi : Inv kend w ps) :
    runSteps (Kalloc.step kend) w es ≠ some (.error x) := by
  intro hrun
  refine runSteps_error (I := fun w' => ∃ ps', Inv kend w' ps') (P := fun _ => False)
    (fun w₁ e w₂ hw₁ h => ?_) (fun w₁ e x hw₁ h => ?_) es ⟨ps, hi⟩ hrun
  · obtain ⟨ps₁, hi₁⟩ := hw₁
    obtain ⟨ps₂, hi₂, -⟩ := hi₁.step hend h
    exact ⟨ps₂, hi₂⟩
  · obtain ⟨ps₁, hi₁⟩ := hw₁
    exact hi₁.step_ne_error h

/-- The world `kinit` starts: every page `kfree` accepts is free, none held. -/
theorem kinit_inv (hk : kend ≤ PHYSTOP) (m : Nat → UInt8) :
    ∃ s ps, (kinit kend).run ⟨m, 0⟩ = .ok ((), s) ∧ Inv kend ⟨s, []⟩ ps ∧
      ∀ q, q ∈ ps ↔ Page kend q := by
  obtain ⟨s, hrun, hv, hmem⟩ := kinit_valid hend hk m
  exact ⟨s, _, hrun, ⟨hv, fun _ h => absurd h List.not_mem_nil, by rw [List.append_nil]; exact hv.nodup⟩,
    hmem⟩

/-- `kinit` returns, and kernel code that then frees only the pages it holds
and stores only into them never makes `kfree` panic. -/
theorem kinit_run_no_panic (hk : kend ≤ PHYSTOP) (m : Nat → UInt8) :
    ∃ s₀, (kinit kend).run ⟨m, 0⟩ = .ok ((), s₀) ∧
      ∀ (es : List Op) (x : Stop), runSteps (step kend) ⟨s₀, []⟩ es ≠ some (.error x) := by
  obtain ⟨s₀, ps, hrun, hi, -⟩ := kinit_inv hend hk m
  exact ⟨s₀, hrun, fun _ _ => hi.run_ne_error hend⟩

omit hend in
theorem kinit_run_no_panic_small_kernel :
    0 < KERNBASE + PGSIZE ∧ KERNBASE + PGSIZE ≤ PHYSTOP ∧
      ∃ s₀, (kinit (KERNBASE + PGSIZE)).run ⟨fun _ => 0, 0⟩ = .ok ((), s₀) ∧
        ∀ (es : List Op) (x : Stop),
          runSteps (step (KERNBASE + PGSIZE)) ⟨s₀, []⟩ es ≠ some (.error x) :=
  ⟨by decide, by decide, kinit_run_no_panic (by decide) (by decide) _⟩

/-- `kinit` returns, and in every state that such kernel code then reaches,
the pages it holds are distinct pages `kfree` accepts, and `kalloc` returns a
page that is not held, or `0` only once every page is held. -/
theorem kinit_run_kalloc (hk : kend ≤ PHYSTOP) (m : Nat → UInt8) :
    ∃ s₀, (kinit kend).run ⟨m, 0⟩ = .ok ((), s₀) ∧
      ∀ (es : List Op) (w : World), runSteps (step kend) ⟨s₀, []⟩ es = some (.ok w) →
        w.held.Nodup ∧ (∀ q ∈ w.held, Page kend q) ∧
        ∀ r k, kalloc.run w.kmem = .ok (r, k) →
          (r = 0 ∧ ∀ q, Page kend q → q ∈ w.held) ∨ (Page kend r ∧ r ∉ w.held) := by
  obtain ⟨s₀, ps₀, hrun₀, hi₀, hmem⟩ := kinit_inv hend hk m
  refine ⟨s₀, hrun₀, fun es w hrun => ?_⟩
  obtain ⟨ps, hi, hperm⟩ := hi₀.run hend hrun
  refine ⟨List.Nodup.of_append_right hi.nodup, hi.held, fun r k hr => ?_⟩
  -- what `kalloc` returns depends only on whether the free list is empty
  cases ps with
  | nil =>
    rw [hi.valid.kalloc_nil, Except.ok.injEq, Prod.mk.injEq] at hr
    refine .inl ⟨hr.1.symm, fun q hq => ?_⟩
    have := hperm.mem_iff.mpr (List.mem_append_left _ ((hmem q).mpr hq))
    simpa using this
  | cons p ps =>
    rw [hi.valid.kalloc_cons.1, Except.ok.injEq, Prod.mk.injEq] at hr
    rw [← hr.1]
    exact .inr ⟨hi.valid.page p List.mem_cons_self, hi.not_mem_held List.mem_cons_self⟩

omit hend in
theorem kinit_run_kalloc_small_kernel :
    0 < KERNBASE + PGSIZE ∧ KERNBASE + PGSIZE ≤ PHYSTOP ∧
      ∃ s₀, (kinit (KERNBASE + PGSIZE)).run ⟨fun _ => 0, 0⟩ = .ok ((), s₀) ∧
        ∀ (es : List Op) (w : World), runSteps (step (KERNBASE + PGSIZE)) ⟨s₀, []⟩ es = some (.ok w) →
          w.held.Nodup ∧ (∀ q ∈ w.held, Page (KERNBASE + PGSIZE) q) ∧
          ∀ r k, kalloc.run w.kmem = .ok (r, k) →
            (r = 0 ∧ ∀ q, Page (KERNBASE + PGSIZE) q → q ∈ w.held) ∨
              (Page (KERNBASE + PGSIZE) r ∧ r ∉ w.held) :=
  ⟨by decide, by decide, kinit_run_kalloc (by decide) (by decide) _⟩

end Run

end Kalloc

end Xv6
