import Xv6.Proc

/-!
# The invariant of the process table

Over every table reachable from `userinit`: `init` stays alive, every other
process in use has a parent that is alive, free slots hold no parent and no
page table, zombies hold no files and no directory, and processes in use have
distinct pids.

A step changes the table in one of five ways, and each has its lemma:
it keeps every slot's shape (`Inv.of_sameShape`), frees a slot nobody points
to (`Inv.free`), fills a free slot with a child (`Inv.spawn`), hands children
to `init` (`Inv.reparent`), or turns a process into a zombie
(`Inv.zombify`). Each operation is one or a few of these.
-/

namespace Xv6

namespace Procs

/-- Neither free nor a zombie. -/
def Live (s : ProcState) : Prop := s ≠ .UNUSED ∧ s ≠ .ZOMBIE

/-- The invariant. `pidLt` and `nextpidPos` are what keeps pids distinct and
positive as `allocpid` hands out new ones. -/
structure Inv (t : Table) : Prop where
  initLive : ∃ k, t.initproc = some k ∧ Live (t.proc k).state
  parentLive : ∀ i j, (t.proc i).parent = some j → Live (t.proc j).state
  hasParent : ∀ i, (t.proc i).state ≠ .UNUSED → t.initproc ≠ some i → (t.proc i).parent ≠ none
  unusedClear : ∀ i, (t.proc i).state = .UNUSED →
    (t.proc i).parent = none ∧ (t.proc i).pagetable = none
  zombieClosed : ∀ i, (t.proc i).state = .ZOMBIE →
    (∀ f ∈ (t.proc i).ofile, f = none) ∧ (t.proc i).cwd = none
  nextpidPos : 0 < t.nextpid
  pidPos : ∀ i, (t.proc i).state ≠ .UNUSED → 0 < (t.proc i).pid
  pidLt : ∀ i, (t.proc i).state ≠ .UNUSED → (t.proc i).pid < t.nextpid
  pidInj : ∀ i j, (t.proc i).state ≠ .UNUSED → (t.proc j).state ≠ .UNUSED →
    (t.proc i).pid = (t.proc j).pid → i = j

section Derived

variable {t : Table} (h : Inv t)
include h

theorem Inv.init_ne_of_not_live {i : Fin NPROC} (hi : ¬ Live (t.proc i).state) :
    t.initproc ≠ some i := by
  intro hk
  obtain ⟨k, hk', hl⟩ := h.initLive
  rw [hk] at hk'
  cases hk'
  exact hi hl

/-- A free slot or a zombie is nobody's parent. -/
theorem Inv.not_parent_of_not_live {c : Fin NPROC} (hc : ¬ Live (t.proc c).state) (j : Fin NPROC) :
    (t.proc j).parent ≠ some c :=
  fun hj => hc (h.parentLive j c hj)

end Derived

theorem not_live_unused {s : ProcState} (h : s = .UNUSED) : ¬ Live s := fun hl => hl.1 h

theorem not_live_zombie {s : ProcState} (h : s = .ZOMBIE) : ¬ Live s := fun hl => hl.2 h

/-! ## Steps that keep each slot's shape -/

/-- `q` agrees with `p` on all the invariant reads: whether it is free or a
zombie, its parent, pid and page table, and, for a zombie, its files,
directory and exit status. -/
structure SameShape (p q : Proc) : Prop where
  unused : q.state = .UNUSED ↔ p.state = .UNUSED
  zombie : q.state = .ZOMBIE ↔ p.state = .ZOMBIE
  parent : q.parent = p.parent
  pid : q.pid = p.pid
  pagetable : q.pagetable = p.pagetable
  closed : q.state = .ZOMBIE → q.ofile = p.ofile ∧ q.cwd = p.cwd
  xstate : q.state = .ZOMBIE → q.xstate = p.xstate

theorem SameShape.refl (p : Proc) : SameShape p p :=
  ⟨Iff.rfl, Iff.rfl, rfl, rfl, rfl, fun _ => ⟨rfl, rfl⟩, fun _ => rfl⟩

theorem SameShape.live {p q : Proc} (h : SameShape p q) : Live q.state ↔ Live p.state := by
  unfold Live
  rw [Ne, Ne, h.unused, h.zombie]

/-- A change between two live states, keeping parent, pid and page table. -/
theorem SameShape.of_live {p q : Proc} (hp : Live p.state) (hq : Live q.state)
    (hparent : q.parent = p.parent) (hpid : q.pid = p.pid) (hpt : q.pagetable = p.pagetable) :
    SameShape p q where
  unused := ⟨fun h => absurd h hq.1, fun h => absurd h hp.1⟩
  zombie := ⟨fun h => absurd h hq.2, fun h => absurd h hp.2⟩
  parent := hparent
  pid := hpid
  pagetable := hpt
  closed := fun h => absurd h hq.2
  xstate := fun h => absurd h hq.2

theorem Inv.of_sameShape {t t' : Table} (h : Inv t) (hinit : t'.initproc = t.initproc)
    (hnext : t'.nextpid = t.nextpid) (hs : ∀ i, SameShape (t.proc i) (t'.proc i)) : Inv t' where
  initLive := by
    obtain ⟨k, hk, hl⟩ := h.initLive
    exact ⟨k, hinit ▸ hk, (hs k).live.mpr hl⟩
  parentLive := by
    intro i j hij
    rw [(hs i).parent] at hij
    exact (hs j).live.mpr (h.parentLive i j hij)
  hasParent := by
    intro i hi hk
    rw [(hs i).parent]
    exact h.hasParent i (fun hu => hi ((hs i).unused.mpr hu)) (hinit ▸ hk)
  unusedClear := by
    intro i hi
    rw [(hs i).parent, (hs i).pagetable]
    exact h.unusedClear i ((hs i).unused.mp hi)
  zombieClosed := by
    intro i hi
    obtain ⟨hof, hcwd⟩ := (hs i).closed hi
    rw [hof, hcwd]
    exact h.zombieClosed i ((hs i).zombie.mp hi)
  nextpidPos := hnext ▸ h.nextpidPos
  pidPos := by
    intro i hi
    rw [(hs i).pid]
    exact h.pidPos i (fun hu => hi ((hs i).unused.mpr hu))
  pidLt := by
    intro i hi
    rw [(hs i).pid, hnext]
    exact h.pidLt i (fun hu => hi ((hs i).unused.mpr hu))
  pidInj := by
    intro i j hi hj hij
    rw [(hs i).pid, (hs j).pid] at hij
    exact h.pidInj i j (fun hu => hi ((hs i).unused.mpr hu)) (fun hu => hj ((hs j).unused.mpr hu)) hij

theorem sameShape_update {t : Table} {i : Fin NPROC} {f : Proc → Proc}
    (hf : SameShape (t.proc i) (f (t.proc i))) (j : Fin NPROC) :
    SameShape (t.proc j) ((t.update i f).proc j) := by
  by_cases hj : j = i
  · subst hj
    rw [Table.update_proc_self]
    exact hf
  · rw [Table.update_proc_of_ne _ _ _ hj]
    exact SameShape.refl _

/-- Changing one live slot within its shape. -/
theorem Inv.update_sameShape {t : Table} {i : Fin NPROC} {f : Proc → Proc} (h : Inv t)
    (hf : SameShape (t.proc i) (f (t.proc i))) : Inv (t.update i f) :=
  h.of_sameShape rfl rfl (sameShape_update hf)

/-! ## Freeing and filling a slot -/

/-- A step that leaves slot `c` free and cleared, and every other slot as it
was, keeps the invariant when `c` is neither `init` nor anyone's parent. It
frees a zombie, or gives a free slot a new pid. -/
theorem Inv.free {t t' : Table} {c : Fin NPROC} (h : Inv t) (hinit : t'.initproc = t.initproc)
    (hnext : t.nextpid ≤ t'.nextpid) (hother : ∀ j, j ≠ c → t'.proc j = t.proc j)
    (hc : (t'.proc c).state = .UNUSED ∧ (t'.proc c).parent = none ∧ (t'.proc c).pagetable = none)
    (hcinit : t.initproc ≠ some c) (hchild : ∀ j, (t.proc j).parent ≠ some c) : Inv t' where
  initLive := by
    obtain ⟨k, hk, hl⟩ := h.initLive
    have hkc : k ≠ c := fun e => hcinit (e ▸ hk)
    exact ⟨k, hinit ▸ hk, hother k hkc ▸ hl⟩
  parentLive := by
    intro i j hij
    by_cases hi : i = c
    · subst hi
      rw [hc.2.1] at hij
      cases hij
    · rw [hother i hi] at hij
      have hjc : j ≠ c := fun e => hchild i (e ▸ hij)
      exact hother j hjc ▸ h.parentLive i j hij
  hasParent := by
    intro i hi hk
    by_cases hic : i = c
    · subst hic
      exact absurd hc.1 hi
    · rw [hother i hic] at hi ⊢
      exact h.hasParent i hi (hinit ▸ hk)
  unusedClear := by
    intro i hi
    by_cases hic : i = c
    · subst hic
      exact hc.2
    · rw [hother i hic] at hi ⊢
      exact h.unusedClear i hi
  zombieClosed := by
    intro i hi
    by_cases hic : i = c
    · subst hic
      rw [hc.1] at hi
      cases hi
    · rw [hother i hic] at hi ⊢
      exact h.zombieClosed i hi
  nextpidPos := by
    have := h.nextpidPos
    omega
  pidPos := by
    intro i hi
    by_cases hic : i = c
    · subst hic
      exact absurd hc.1 hi
    · rw [hother i hic] at hi ⊢
      exact h.pidPos i hi
  pidLt := by
    intro i hi
    by_cases hic : i = c
    · subst hic
      exact absurd hc.1 hi
    · rw [hother i hic] at hi ⊢
      have := h.pidLt i hi
      omega
  pidInj := by
    intro i j hi hj hij
    by_cases hic : i = c
    · subst hic
      exact absurd hc.1 hi
    by_cases hjc : j = c
    · subst hjc
      exact absurd hc.1 hj
    rw [hother i hic] at hi hij
    rw [hother j hjc] at hj hij
    exact h.pidInj i j hi hj hij

/-- A step that fills the free slot `c` with a `RUNNABLE` child of the live
process `p`, under the pid `allocpid` hands out, and leaves every other slot
as it was. -/
theorem Inv.spawn {t t' : Table} {c p : Fin NPROC} (h : Inv t) (hinit : t'.initproc = t.initproc)
    (hnext : t'.nextpid = t.nextpid + 1) (hother : ∀ j, j ≠ c → t'.proc j = t.proc j)
    (hfree : (t.proc c).state = .UNUSED) (hp : Live (t.proc p).state)
    (hc : (t'.proc c).state = .RUNNABLE ∧ (t'.proc c).parent = some p ∧
      (t'.proc c).pid = t.nextpid) : Inv t' where
  initLive := by
    obtain ⟨k, hk, hl⟩ := h.initLive
    have hkc : k ≠ c := fun e => h.init_ne_of_not_live (not_live_unused hfree) (e ▸ hk)
    exact ⟨k, hinit ▸ hk, hother k hkc ▸ hl⟩
  parentLive := by
    have hpc : p ≠ c := fun e => not_live_unused hfree (e ▸ hp)
    intro i j hij
    by_cases hic : i = c
    · subst hic
      rw [hc.2.1] at hij
      cases hij
      exact hother p hpc ▸ hp
    · rw [hother i hic] at hij
      have hjc : j ≠ c := fun e => h.not_parent_of_not_live (not_live_unused hfree) i (e ▸ hij)
      exact hother j hjc ▸ h.parentLive i j hij
  hasParent := by
    intro i hi hk
    by_cases hic : i = c
    · subst hic
      rw [hc.2.1]
      exact Option.some_ne_none p
    · rw [hother i hic] at hi ⊢
      exact h.hasParent i hi (hinit ▸ hk)
  unusedClear := by
    intro i hi
    by_cases hic : i = c
    · subst hic
      rw [hc.1] at hi
      cases hi
    · rw [hother i hic] at hi ⊢
      exact h.unusedClear i hi
  zombieClosed := by
    intro i hi
    by_cases hic : i = c
    · subst hic
      rw [hc.1] at hi
      cases hi
    · rw [hother i hic] at hi ⊢
      exact h.zombieClosed i hi
  nextpidPos := by
    have := h.nextpidPos
    omega
  pidPos := by
    intro i hi
    by_cases hic : i = c
    · subst hic
      rw [hc.2.2]
      exact h.nextpidPos
    · rw [hother i hic] at hi ⊢
      exact h.pidPos i hi
  pidLt := by
    intro i hi
    by_cases hic : i = c
    · subst hic
      omega
    · rw [hother i hic] at hi ⊢
      have := h.pidLt i hi
      omega
  pidInj := by
    -- the new pid is above every pid in use, so only the child has it
    intro i j hi hj hij
    by_cases hic : i = c <;> by_cases hjc : j = c
    · rw [hic, hjc]
    · subst hic
      rw [hother j hjc] at hj hij
      have := h.pidLt j hj
      omega
    · subst hjc
      rw [hother i hic] at hi hij
      have := h.pidLt i hi
      omega
    · rw [hother i hic] at hi hij
      rw [hother j hjc] at hj hij
      exact h.pidInj i j hi hj hij

/-- `freeproc` of a slot that is neither `init` nor anyone's parent. -/
theorem Inv.freeproc {t : Table} {c : Fin NPROC} (h : Inv t) (hcinit : t.initproc ≠ some c)
    (hchild : ∀ j, (t.proc j).parent ≠ some c) : Inv (freeproc t c) :=
  h.free rfl le_rfl (fun j hj => Table.update_proc_of_ne _ _ _ hj) (by simp [Procs.freeproc]) hcinit hchild

/-! ## Handing children to `init`, and turning into a zombie -/

section Reparent

variable (t : Table) (p i : Fin NPROC)

@[simp] theorem reparent_initproc : (reparent t p).initproc = t.initproc := rfl

@[simp] theorem reparent_nextpid : (reparent t p).nextpid = t.nextpid := rfl

theorem reparent_parent : ((reparent t p).proc i).parent =
    if (t.proc i).parent = some p then t.initproc else (t.proc i).parent := by
  simp only [reparent]
  split <;> rfl

@[simp] theorem reparent_state : ((reparent t p).proc i).state = (t.proc i).state := by
  simp only [reparent]
  split <;> rfl

@[simp] theorem reparent_pid : ((reparent t p).proc i).pid = (t.proc i).pid := by
  simp only [reparent]
  split <;> rfl

@[simp] theorem reparent_pagetable : ((reparent t p).proc i).pagetable = (t.proc i).pagetable := by
  simp only [reparent]
  split <;> rfl

@[simp] theorem reparent_ofile : ((reparent t p).proc i).ofile = (t.proc i).ofile := by
  simp only [reparent]
  split <;> rfl

@[simp] theorem reparent_cwd : ((reparent t p).proc i).cwd = (t.proc i).cwd := by
  simp only [reparent]
  split <;> rfl

@[simp] theorem reparent_xstate : ((reparent t p).proc i).xstate = (t.proc i).xstate := by
  simp only [reparent]
  split <;> rfl

/-- After `reparent`, nobody but `init` itself can still have `p` as parent. -/
theorem reparent_parent_ne {t : Table} {p : Fin NPROC} (hinit : t.initproc ≠ some p) (i : Fin NPROC) :
    ((reparent t p).proc i).parent ≠ some p := by
  rw [reparent_parent]
  split
  · exact hinit
  · assumption

end Reparent

theorem Inv.reparent {t : Table} (h : Inv t) (p : Fin NPROC) : Inv (reparent t p) where
  initLive := by
    obtain ⟨k, hk, hl⟩ := h.initLive
    exact ⟨k, hk, by rw [reparent_state]; exact hl⟩
  parentLive := by
    intro i j hij
    rw [reparent_state]
    rw [reparent_parent] at hij
    split at hij
    · -- handed to `init`
      obtain ⟨k, hk, hl⟩ := h.initLive
      rw [hk] at hij
      cases hij
      exact hl
    · exact h.parentLive i j hij
  hasParent := by
    intro i hi hk
    rw [reparent_state] at hi
    rw [reparent_parent]
    split
    · obtain ⟨k, hk', _⟩ := h.initLive
      rw [hk']
      exact Option.some_ne_none k
    · exact h.hasParent i hi hk
  unusedClear := by
    intro i hi
    rw [reparent_state] at hi
    obtain ⟨hpar, hpt⟩ := h.unusedClear i hi
    rw [reparent_parent, reparent_pagetable, hpar, if_neg (Option.some_ne_none p).symm]
    exact ⟨rfl, hpt⟩
  zombieClosed := by
    intro i hi
    rw [reparent_state] at hi
    rw [reparent_ofile, reparent_cwd]
    exact h.zombieClosed i hi
  nextpidPos := h.nextpidPos
  pidPos := by
    intro i hi
    rw [reparent_state] at hi
    rw [reparent_pid]
    exact h.pidPos i hi
  pidLt := by
    intro i hi
    rw [reparent_state] at hi
    rw [reparent_pid]
    exact h.pidLt i hi
  pidInj := by
    intro i j hi hj hij
    rw [reparent_state] at hi hj
    rw [reparent_pid, reparent_pid] at hij
    exact h.pidInj i j hi hj hij

/-- A live process that is not `init`, has no children and holds no files or
directory becomes a zombie. -/
theorem Inv.zombify {t : Table} {p : Fin NPROC} (h : Inv t) (hp : Live (t.proc p).state)
    (hinit : t.initproc ≠ some p) (hchild : ∀ j, (t.proc j).parent ≠ some p)
    (hclosed : (∀ f ∈ (t.proc p).ofile, f = none) ∧ (t.proc p).cwd = none) (status : Int) :
    Inv (t.update p fun q => { q with xstate := status, state := .ZOMBIE }) where
  initLive := by
    obtain ⟨k, hk, hl⟩ := h.initLive
    have hkp : k ≠ p := fun e => hinit (e ▸ hk)
    exact ⟨k, hk, by rw [Table.update_proc_of_ne _ _ _ hkp]; exact hl⟩
  parentLive := by
    intro i j hij
    have hjp : j ≠ p := by
      intro e
      subst e
      by_cases hip : i = j
      · subst hip
        rw [Table.update_proc_self] at hij
        exact hchild i hij
      · rw [Table.update_proc_of_ne _ _ _ hip] at hij
        exact hchild i hij
    rw [Table.update_proc_of_ne _ _ _ hjp]
    by_cases hip : i = p
    · subst hip
      rw [Table.update_proc_self] at hij
      exact h.parentLive i j hij
    · rw [Table.update_proc_of_ne _ _ _ hip] at hij
      exact h.parentLive i j hij
  hasParent := by
    intro i hi hk
    by_cases hip : i = p
    · subst hip
      rw [Table.update_proc_self]
      exact h.hasParent i hp.1 hk
    · rw [Table.update_proc_of_ne _ _ _ hip] at hi ⊢
      exact h.hasParent i hi hk
  unusedClear := by
    intro i hi
    by_cases hip : i = p
    · subst hip
      rw [Table.update_proc_self] at hi
      cases hi
    · rw [Table.update_proc_of_ne _ _ _ hip] at hi ⊢
      exact h.unusedClear i hi
  zombieClosed := by
    intro i hi
    by_cases hip : i = p
    · subst hip
      rw [Table.update_proc_self]
      exact hclosed
    · rw [Table.update_proc_of_ne _ _ _ hip] at hi ⊢
      exact h.zombieClosed i hi
  nextpidPos := h.nextpidPos
  pidPos := by
    intro i hi
    by_cases hip : i = p
    · subst hip
      rw [Table.update_proc_self]
      exact h.pidPos i hp.1
    · rw [Table.update_proc_of_ne _ _ _ hip] at hi ⊢
      exact h.pidPos i hi
  pidLt := by
    intro i hi
    by_cases hip : i = p
    · subst hip
      rw [Table.update_proc_self]
      exact h.pidLt i hp.1
    · rw [Table.update_proc_of_ne _ _ _ hip] at hi ⊢
      exact h.pidLt i hi
  pidInj := by
    -- the zombie keeps its pid and stays in use
    have hstate : ∀ i, ((t.update p fun q => { q with xstate := status, state := .ZOMBIE }).proc i).state
        ≠ .UNUSED → (t.proc i).state ≠ .UNUSED := by
      intro i hi
      by_cases hip : i = p
      · subst hip
        exact hp.1
      · rwa [Table.update_proc_of_ne _ _ _ hip] at hi
    have hpid : ∀ i, ((t.update p fun q => { q with xstate := status, state := .ZOMBIE }).proc i).pid
        = (t.proc i).pid := by
      intro i
      by_cases hip : i = p
      · subst hip
        rw [Table.update_proc_self]
      · rw [Table.update_proc_of_ne _ _ _ hip]
    intro i j hi hj hij
    rw [hpid, hpid] at hij
    exact h.pidInj i j (hstate i hi) (hstate j hj) hij

/-! ## The operations -/

theorem live_running : Live .RUNNING := ⟨nofun, nofun⟩

theorem live_runnable : Live .RUNNABLE := ⟨nofun, nofun⟩

theorem live_sleeping : Live .SLEEPING := ⟨nofun, nofun⟩

/-- A change of state within a slot, `from` to `to`, both live. -/
theorem sameShape_state {q : Proc} {s : ProcState} (hq : Live q.state) (hs : Live s) :
    SameShape q { q with state := s } :=
  SameShape.of_live hq hs rfl rfl rfl

/-- `kill` marks a slot killed, and wakes it if it sleeps. -/
theorem kill_sameShape (t : Table) (pid : Int) (j : Fin NPROC) :
    SameShape (t.proc j) ((kill t pid).2.proc j) := by
  unfold Procs.kill
  split
  · rename_i i _
    dsimp only
    apply sameShape_update
    by_cases hs : (t.proc i).state = .SLEEPING
    · rw [if_pos hs]
      exact SameShape.of_live (hs ▸ live_sleeping) live_runnable rfl rfl rfl
    · -- only `killed` changes
      rw [if_neg hs]
      exact ⟨Iff.rfl, Iff.rfl, rfl, rfl, rfl, fun _ => ⟨rfl, rfl⟩, fun _ => rfl⟩
  · exact SameShape.refl _

theorem kill_table (t : Table) (pid : Int) :
    (kill t pid).2.initproc = t.initproc ∧ (kill t pid).2.nextpid = t.nextpid := by
  unfold Procs.kill
  split <;> exact ⟨rfl, rfl⟩

theorem Inv.kill {t : Table} (h : Inv t) (pid : Int) : Inv (kill t pid).2 :=
  h.of_sameShape (kill_table t pid).1 (kill_table t pid).2 (kill_sameShape t pid)

theorem wakeup1_sameShape (t : Table) (o : Option (Fin NPROC)) (i : Fin NPROC) :
    SameShape (t.proc i) ((wakeup1 t o).proc i) := by
  cases o with
  | none => exact SameShape.refl _
  | some p =>
    simp only [wakeup1, Table.update_proc]
    split
    · rename_i hip
      subst hip
      split
      · rename_i hs
        exact sameShape_state (hs.2 ▸ live_sleeping) live_runnable
      · exact SameShape.refl _
    · exact SameShape.refl _

@[simp] theorem wakeup1_initproc (t : Table) (o : Option (Fin NPROC)) :
    (wakeup1 t o).initproc = t.initproc := by
  cases o <;> rfl

@[simp] theorem wakeup1_nextpid (t : Table) (o : Option (Fin NPROC)) :
    (wakeup1 t o).nextpid = t.nextpid := by
  cases o <;> rfl

/-- `wakeup1` leaves a process that does not sleep as it is. -/
theorem wakeup1_proc_of_not_sleeping {t : Table} {i : Fin NPROC} (hi : (t.proc i).state ≠ .SLEEPING)
    (o : Option (Fin NPROC)) : (wakeup1 t o).proc i = t.proc i := by
  cases o with
  | none => rfl
  | some p =>
    simp only [wakeup1, Table.update_proc]
    split
    · rename_i hip
      subst hip
      rw [if_neg fun hc => hi hc.2]
    · rfl

theorem Inv.wakeup1 {t : Table} (h : Inv t) (o : Option (Fin NPROC)) : Inv (wakeup1 t o) :=
  h.of_sameShape (wakeup1_initproc t o) (wakeup1_nextpid t o) (wakeup1_sameShape t o)

theorem wakeup_sameShape (t : Table) (c : Chan) (i : Fin NPROC) :
    SameShape (t.proc i) ((wakeup t c).proc i) := by
  simp only [Procs.wakeup]
  split
  · rename_i hs
    exact sameShape_state (hs.1 ▸ live_sleeping) live_runnable
  · exact SameShape.refl _

theorem Inv.wakeup {t : Table} (h : Inv t) (c : Chan) : Inv (wakeup t c) :=
  h.of_sameShape rfl rfl (wakeup_sameShape t c)

section Running

variable {t : Table} {p : Fin NPROC}

theorem sleep_sameShape (hp : (t.proc p).state = .RUNNING) (c : Chan) (j : Fin NPROC) :
    SameShape (t.proc j) ((sleep t p c).proc j) :=
  sameShape_update (SameShape.of_live (hp ▸ live_running) live_sleeping rfl rfl rfl) j

theorem yield_sameShape (hp : (t.proc p).state = .RUNNING) (j : Fin NPROC) :
    SameShape (t.proc j) ((yield t p).proc j) :=
  sameShape_update (sameShape_state (hp ▸ live_running) live_runnable) j

theorem scheduler_sameShape (hp : (t.proc p).state = .RUNNABLE) (j : Fin NPROC) :
    SameShape (t.proc j) ((scheduler t p).proc j) :=
  sameShape_update (SameShape.of_live (hp ▸ live_runnable) live_running rfl rfl rfl) j

theorem Inv.sleep (h : Inv t) (hp : (t.proc p).state = .RUNNING) (c : Chan) : Inv (sleep t p c) :=
  h.of_sameShape rfl rfl (sleep_sameShape hp c)

theorem Inv.yield (h : Inv t) (hp : (t.proc p).state = .RUNNING) : Inv (yield t p) :=
  h.of_sameShape rfl rfl (yield_sameShape hp)

theorem Inv.scheduler (h : Inv t) (hp : (t.proc p).state = .RUNNABLE) : Inv (scheduler t p) :=
  h.of_sameShape rfl rfl (scheduler_sameShape hp)

end Running

/-- `fork` by a running process. Every failure leaves the free slot it took
free and cleared, under a new pid when `allocpid` ran; success fills it
with the child. -/
theorem Inv.fork {t : Table} {p : Fin NPROC} (h : Inv t) (hp : (t.proc p).state = .RUNNING)
    (tf pt : Option Nat) (copyOk : Bool) : Inv (fork t p tf pt copyOk).2 := by
  unfold Procs.fork allocproc
  cases hfind : (List.finRange NPROC).find? (fun i => (t.proc i).state == .UNUSED) with
  | none => exact h
  | some c =>
    have hc : (t.proc c).state = .UNUSED := by simpa using List.find?_some hfind
    have hcp : p ≠ c := fun e => by rw [e, hc] at hp; cases hp
    have hclear := h.unusedClear c hc
    have hcinit := h.init_ne_of_not_live (not_live_unused hc)
    have hchild := h.not_parent_of_not_live (not_live_unused hc)
    have hnext : t.nextpid ≤ t.nextpid + 1 := by omega
    cases tf with
    | none =>
      -- no trapframe: the slot keeps its new pid
      refine h.free rfl hnext (fun j hj => ?_) ?_ hcinit hchild
      · simp [allocpid, hj]
      · simp [allocpid, hc, hclear]
    | some a =>
      cases pt with
      | none =>
        refine h.free rfl hnext (fun j hj => ?_) ?_ hcinit hchild
        · simp [allocpid, Procs.freeproc, hj]
        · simp [allocpid, Procs.freeproc]
      | some pg =>
        cases copyOk with
        | false =>
          refine h.free rfl hnext (fun j hj => ?_) ?_ hcinit hchild
          · simp [allocpid, Procs.freeproc, hj]
          · simp [allocpid, Procs.freeproc]
        | true =>
          refine h.spawn rfl rfl (fun j hj => ?_) hc (hp ▸ live_running) ?_
          · simp [allocpid, hj]
          · simp [allocpid, hcp]

/-- `exit` by a running process other than `init`. -/
theorem Inv.exit {t t' : Table} {p : Fin NPROC} {status : Int} (h : Inv t)
    (hp : (t.proc p).state = .RUNNING) (he : exit t p status = .ok t') : Inv t' := by
  unfold Procs.exit at he
  split at he
  · cases he
  rename_i hinit
  injection he with he
  subst he
  -- the stages: files dropped, init woken, children handed over, parent woken
  let t₁ := t.update p fun q => { q with ofile := List.replicate NOFILE none, cwd := none }
  let t₂ := Procs.wakeup1 t₁ t₁.initproc
  let t₄ := Procs.wakeup1 (Procs.reparent t₂ p) (t₂.proc p).parent
  have h₁ : Inv t₁ := h.update_sameShape (SameShape.of_live (hp ▸ live_running) (hp ▸ live_running) rfl rfl rfl)
  have h₄ : Inv t₄ := ((h₁.wakeup1 _).reparent p).wakeup1 _
  have hst₁ : (t₁.proc p).state = .RUNNING := by simp [t₁, hp]
  have hof₁ : (t₁.proc p).ofile = List.replicate NOFILE none := by simp [t₁]
  have hcwd₁ : (t₁.proc p).cwd = none := by simp [t₁]
  have hp₂ : t₂.proc p = t₁.proc p := wakeup1_proc_of_not_sleeping (by rw [hst₁]; exact nofun) _
  have hp₄ : t₄.proc p = (Procs.reparent t₂ p).proc p :=
    wakeup1_proc_of_not_sleeping (by rw [reparent_state, hp₂, hst₁]; exact nofun) _
  refine h₄.zombify ?_ ?_ ?_ ?_ status
  · rw [hp₄, reparent_state, hp₂, hst₁]
    exact live_running
  · simpa [t₄, t₂, t₁] using hinit
  · intro j
    have hne := reparent_parent_ne (t := t₂) (by simpa [t₂, t₁] using hinit) j
    rwa [← (wakeup1_sameShape _ _ j).parent] at hne
  · rw [hp₄, reparent_ofile, reparent_cwd, hp₂, hof₁, hcwd₁]
    exact ⟨fun f hf => List.eq_of_mem_replicate hf, rfl⟩

/-- One pass of `wait` by a running process. -/
theorem Inv.wait {t : Table} {p : Fin NPROC} (h : Inv t) (hp : (t.proc p).state = .RUNNING)
    (addr : Nat) (copyOk : Bool) : Inv (wait t p addr copyOk).2 := by
  unfold Procs.wait
  cases hfind : (List.finRange NPROC).find?
      (fun c => (t.proc c).parent == some p && (t.proc c).state == .ZOMBIE) with
  | some c =>
    have hc : (t.proc c).state = .ZOMBIE := by
      have := List.find?_some hfind
      simp only [Bool.and_eq_true, beq_iff_eq] at this
      exact this.2
    dsimp only
    split
    · exact h
    · -- the zombie is freed: it is neither `init` nor anyone's parent
      exact h.freeproc (h.init_ne_of_not_live (not_live_zombie hc))
        (h.not_parent_of_not_live (not_live_zombie hc))
  | none =>
    dsimp only
    split
    · exact h
    · dsimp only
      apply h.update_sameShape
      exact SameShape.of_live (hp ▸ live_running) live_sleeping rfl rfl rfl

/-! ## Every reachable table -/

/-- `userinit` on the boot table: slot 0 becomes `init`, with pid 1, and the
other slots stay zeroed. -/
theorem Inv.userinit {t : Table} {tf pt : Option Nat} {root : Nat}
    (h : userinit boot tf pt root = some t) : Inv t := by
  have hfind : (List.finRange NPROC).find? (fun i => (boot.proc i).state == .UNUSED) =
      some ⟨0, by decide⟩ := by decide
  unfold Procs.userinit allocproc at h
  rw [hfind] at h
  obtain _ | a := tf
  · cases h
  obtain _ | pg := pt
  · cases h
  injection h with h
  -- slot 0 is `init`; every other slot is still `Proc.zero`
  have hzero : ∀ i : Fin NPROC, i ≠ ⟨0, by decide⟩ → t.proc i = Proc.zero := by
    intro i hi
    rw [← h]
    simp [boot, hi]
  have h0 : (t.proc ⟨0, by decide⟩).state = .RUNNABLE ∧ (t.proc ⟨0, by decide⟩).parent = none ∧
      (t.proc ⟨0, by decide⟩).pid = 1 := by
    rw [← h]
    simp [boot, Proc.zero]
  have hinit : t.initproc = some ⟨0, by decide⟩ := by rw [← h]; rfl
  have hnext : t.nextpid = 2 := by rw [← h]; rfl
  -- a slot in use is slot 0
  have hused : ∀ i, (t.proc i).state ≠ .UNUSED → i = ⟨0, by decide⟩ := by
    intro i hi
    by_contra hne
    rw [hzero i hne] at hi
    exact hi rfl
  have hparent : ∀ i, (t.proc i).parent = none := by
    intro i
    by_cases hi : i = ⟨0, by decide⟩
    · rw [hi]
      exact h0.2.1
    · rw [hzero i hi]
      rfl
  refine ⟨⟨_, hinit, h0.1 ▸ live_runnable⟩, ?_, ?_, ?_, ?_, ?_, ?_, ?_, ?_⟩
  · intro i j hij
    rw [hparent i] at hij
    cases hij
  · intro i hi hk
    rw [hinit, hused i hi] at hk
    exact absurd rfl hk
  · intro i hi
    have hne : i ≠ ⟨0, by decide⟩ := fun e => by rw [e, h0.1] at hi; cases hi
    rw [hzero i hne]
    exact ⟨rfl, rfl⟩
  · intro i hi
    have hne : i ≠ ⟨0, by decide⟩ := fun e => by rw [e, h0.1] at hi; cases hi
    rw [hzero i hne] at hi
    cases hi
  · rw [hnext]
    decide
  · intro i hi
    rw [hused i hi, h0.2.2]
    decide
  · intro i hi
    rw [hused i hi, h0.2.2, hnext]
    decide
  · intro i j hi hj _
    rw [hused i hi, hused j hj]

theorem Inv.step {t t' : Table} (h : Inv t) (hs : Step t t') : Inv t' := by
  cases hs with
  | fork p tf pt copyOk hp => exact h.fork hp tf pt copyOk
  | exit p status hp he => exact h.exit hp he
  | wait p addr copyOk hp => exact h.wait hp addr copyOk
  | kill p pid _ => exact h.kill pid
  | sleep p a hp => exact h.sleep hp _
  | wakeup c => exact h.wakeup c
  | yield p hp => exact h.yield hp
  | scheduler p hp => exact h.scheduler hp

theorem Reachable.inv {t : Table} (h : Reachable t) : Inv t := by
  induction h with
  | userinit tf pt root hu => exact Inv.userinit hu
  | step _ hs ih => exact ih.step hs

/-! ## What `wait` returns -/

/-- What a step does to one slot, other than its own `exit`: a zombie stays
a zombie with its status, or is freed, and no new zombie appears. -/
structure ZombieFrame (p q : Proc) : Prop where
  kept : p.state = .ZOMBIE → (q.state = .ZOMBIE ∧ q.xstate = p.xstate) ∨ q.state = .UNUSED
  none_new : q.state = .ZOMBIE → p.state = .ZOMBIE

theorem SameShape.zombieFrame {p q : Proc} (h : SameShape p q) : ZombieFrame p q where
  kept hp := .inl ⟨h.zombie.mpr hp, h.xstate (h.zombie.mpr hp)⟩
  none_new := h.zombie.mp

theorem ZombieFrame.of_unused {p q : Proc} (hq : q.state = .UNUSED) : ZombieFrame p q where
  kept _ := .inr hq
  none_new hz := by rw [hq] at hz; cases hz

theorem ZombieFrame.of_not_zombie {p q : Proc} (hp : p.state ≠ .ZOMBIE) (hq : q.state ≠ .ZOMBIE) :
    ZombieFrame p q where
  kept hz := absurd hz hp
  none_new hz := absurd hz hq

/-- `fork` takes a free slot, and leaves it free or a runnable child. -/
theorem fork_zombieFrame (t : Table) (p : Fin NPROC) (tf pt : Option Nat) (copyOk : Bool)
    (j : Fin NPROC) : ZombieFrame (t.proc j) ((fork t p tf pt copyOk).2.proc j) := by
  unfold Procs.fork allocproc
  cases hfind : (List.finRange NPROC).find? (fun i => (t.proc i).state == .UNUSED) with
  | none => exact (SameShape.refl _).zombieFrame
  | some c =>
    have hc : (t.proc c).state = .UNUSED := by simpa using List.find?_some hfind
    by_cases hj : j = c
    · -- the slot taken: it was free
      subst hj
      refine ZombieFrame.of_not_zombie (by rw [hc]; exact nofun) ?_
      cases tf <;> cases pt <;> cases copyOk <;> simp [allocpid, Procs.freeproc, hc]
    · have hsame : (fork t p tf pt copyOk).2.proc j = t.proc j := by
        unfold Procs.fork allocproc
        rw [hfind]
        cases tf <;> cases pt <;> cases copyOk <;> simp [allocpid, Procs.freeproc, hj]
      unfold Procs.fork allocproc at hsame
      rw [hfind] at hsame
      rw [hsame]
      exact (SameShape.refl _).zombieFrame

/-- A pass of `wait` frees a zombie child, or puts the caller to sleep, or
changes nothing. -/
theorem wait_zombieFrame {t : Table} {p : Fin NPROC} (hp : (t.proc p).state = .RUNNING)
    (addr : Nat) (copyOk : Bool) (j : Fin NPROC) :
    ZombieFrame (t.proc j) ((wait t p addr copyOk).2.proc j) := by
  unfold Procs.wait
  cases hfind : (List.finRange NPROC).find?
      (fun c => (t.proc c).parent == some p && (t.proc c).state == .ZOMBIE) with
  | some c =>
    dsimp only
    split
    · exact (SameShape.refl _).zombieFrame
    · by_cases hj : j = c
      · subst hj
        exact ZombieFrame.of_unused (by simp [Procs.freeproc])
      · rw [Procs.freeproc, Table.update_proc_of_ne _ _ _ hj]
        exact (SameShape.refl _).zombieFrame
  | none =>
    dsimp only
    split
    · exact (SameShape.refl _).zombieFrame
    · exact (sleep_sameShape hp (.proc p) j).zombieFrame

/-- `exit` by `p` leaves every other slot's zombie, and its status, as they
were: it only wakes sleepers and hands children to `init`. -/
theorem exit_zombieFrame_of_ne {t t' : Table} {p : Fin NPROC} {status : Int}
    (he : exit t p status = .ok t') {c : Fin NPROC} (hc : c ≠ p) :
    ZombieFrame (t.proc c) (t'.proc c) := by
  unfold Procs.exit at he
  split at he
  · cases he
  injection he with he
  subst he
  rw [Table.update_proc_of_ne _ _ _ hc]
  -- the stages: files dropped, `init` woken, children handed over, parent woken
  let t₁ := t.update p fun q => { q with ofile := List.replicate NOFILE none, cwd := none }
  let t₂ := Procs.wakeup1 t₁ t₁.initproc
  have h₁ : t₁.proc c = t.proc c := Table.update_proc_of_ne _ _ _ hc
  have h₂ := wakeup1_sameShape t₁ t₁.initproc c
  have h₄ := wakeup1_sameShape (Procs.reparent t₂ p) (t₂.proc p).parent c
  rw [h₁] at h₂
  constructor
  · intro hz
    have hz₂ := h₂.zombie.mpr hz
    have hz₃ : ((Procs.reparent t₂ p).proc c).state = .ZOMBIE := by rw [reparent_state]; exact hz₂
    refine .inl ⟨h₄.zombie.mpr hz₃, ?_⟩
    rw [h₄.xstate (h₄.zombie.mpr hz₃), reparent_xstate, h₂.xstate hz₂]
  · intro hz
    have hz₃ := h₄.zombie.mp hz
    rw [reparent_state] at hz₃
    exact h₂.zombie.mp hz₃

/-- `exit` records its status: the process becomes a zombie holding it. -/
theorem exit_zombie {t t' : Table} {p : Fin NPROC} {status : Int} (he : exit t p status = .ok t') :
    (t'.proc p).state = .ZOMBIE ∧ (t'.proc p).xstate = status := by
  unfold Procs.exit at he
  split at he
  · cases he
  injection he with he
  subst he
  simp

/-- Over one step, each slot is framed, or the step is the slot's own `exit`,
which turns the running process into a zombie holding the status passed. -/
theorem Step.zombie {t t' : Table} (hs : Step t t') (c : Fin NPROC) :
    ZombieFrame (t.proc c) (t'.proc c) ∨
      ((t.proc c).state = .RUNNING ∧ ∃ status, Procs.exit t c status = .ok t' ∧
        (t'.proc c).state = .ZOMBIE ∧ (t'.proc c).xstate = status) := by
  cases hs with
  | fork p tf pt copyOk _ => exact .inl (fork_zombieFrame t p tf pt copyOk c)
  | exit p status hp he =>
    by_cases hc : c = p
    · subst hc
      exact .inr ⟨hp, status, he, exit_zombie he⟩
    · exact .inl (exit_zombieFrame_of_ne he hc)
  | wait p addr copyOk hp => exact .inl (wait_zombieFrame hp addr copyOk c)
  | kill p pid _ => exact .inl (kill_sameShape t pid c).zombieFrame
  | sleep p a hp => exact .inl (sleep_sameShape hp _ c).zombieFrame
  | wakeup ch => exact .inl (wakeup_sameShape t ch c).zombieFrame
  | yield p hp => exact .inl (yield_sameShape hp c).zombieFrame
  | scheduler p hp => exact .inl (scheduler_sameShape hp c).zombieFrame

/-! ## The invariant, as the code's comments state it -/

end Procs

end Xv6
