import Xv6.Exec
import Xv6.Fs.Sysfile
import Xv6.Library.Memory
import Xv6.Library.Triple

/-!
# The argument stack `exec` builds

After loading the image, `exec` maps two more pages, clears `PTE_U` of the
lower one (the guard page) and builds the stack in the upper: each argument
string pushed below the last, 16-byte aligned, then the array of pointers to
them, ended by `0`. The stack pointer is checked against the stack's base
before each write.

`exec` reaches `vm.c` only through the interface `Vm`. What it relies on is
stated here over two views of the machine state, the bytes of a page table's
user memory and the `PTE_U` bit of a page (`VmLaws`): what `uvmalloc`
returns, that a `copyout` that succeeds stores its bytes, that `uvmclear`
clears the bit, and that freeing a page table leaves the others.

From these, the strings `pushArgs` has pushed form a stack in the memory
(`Stacked`, by induction over the arguments: `pushArgs_stacked`), the pointer
array lies below them, and a successful `exec` leaves the stack `ArgStack`
describes (`exec_argument_stack`).

The disk `elfImage` holds one root directory with one 120-byte file `e`: an
ELF header and one `LOAD` header with `off = 2^32`, `vaddr = 0` and
`filesz = memsz = 4`. `exec` of `e` with two arguments builds that stack
(`exec_argument_stack_elf`); it also loads the segment, which lies past the
end of the file (`exec_loads_wrapped_segment_offset`).
-/

namespace Xv6

namespace Fs

open LEBytes StateExcept Memory BlockDisk

/-- `MAXVA`: one beyond the highest virtual address (`riscv.h`). -/
def MAXVA : Nat := 2 ^ (9 + 9 + 9 + 12 - 1)

variable {V : Type}

/-- What `exec` relies on of `vm.c`, over two views of the machine state:
`mem v pt` is the user memory of page table `pt`, byte by byte, and
`user v pt va` the `PTE_U` bit of the page at `va`. -/
structure VmLaws (vm : Vm V) (mem : V → Nat → Nat → UInt8) (user : V → Nat → Nat → Bool) :
    Prop where
  /-- `uvmalloc` returns `oldsz` when asked to shrink, `0` when it runs out
  of memory, and `newsz` otherwise; as `walk` panics at `MAXVA`, it returns
  a `newsz` past `MAXVA` only when it mapped no page. -/
  uvmalloc_size : ∀ v pt oldsz newsz,
    (vm.uvmalloc v pt oldsz newsz).1 = 0 ∨
      (newsz < oldsz ∧ (vm.uvmalloc v pt oldsz newsz).1 = oldsz) ∨
      (oldsz ≤ newsz ∧ (vm.uvmalloc v pt oldsz newsz).1 = newsz ∧
        (newsz ≤ MAXVA ∨ newsz ≤ pgroundup oldsz))
  /-- A `copyout` that returns `0` has stored its bytes. -/
  copyout_mem : ∀ v pt va bs, ¬ (vm.copyout v pt va bs).1 < 0 →
    mem (vm.copyout v pt va bs).2 pt = write (mem v pt) va bs
  copyout_user : ∀ v pt va bs, user (vm.copyout v pt va bs).2 = user v
  uvmclear_mem : ∀ v pt va, mem (vm.uvmclear v pt va) = mem v
  uvmclear_user : ∀ v pt va, user (vm.uvmclear v pt va) pt va = false
  /-- Freeing a page table leaves the others. -/
  free_mem : ∀ v pt sz pt', pt' ≠ pt → mem (vm.procFreepagetable v pt sz) pt' = mem v pt'
  free_user : ∀ v pt sz pt', pt' ≠ pt → user (vm.procFreepagetable v pt sz) pt' = user v pt'

/-! ## The stack pointer -/

/-- `sp -= n; sp -= sp % 16;` -/
def pushSp (sp n : Nat) : Nat := sub64 sp n - sub64 sp n % 16

/-- The stack pointer after the strings of `argv`, pushed from `sp` with no
check. -/
def argSp (sp : Nat) : List (List UInt8) → Nat
  | [] => sp
  | a :: argv => argSp (pushSp sp (a.length + 1)) argv

/-- The stack pointer after the array of `argc + 1` pointers, pushed from
`sp`. -/
def arraySp (sp argc : Nat) : Nat := pushSp sp ((argc + 1) * 8)

theorem sub64_of_le {a b : Nat} (hb : b ≤ a) (ha : a < 2 ^ 64) : sub64 a b = a - b := by
  unfold sub64
  rw [Nat.mod_eq_of_lt (Nat.lt_of_le_of_lt hb ha), Nat.sub_add_comm hb, Nat.add_mod_right,
    Nat.mod_eq_of_lt (by omega)]

theorem sub64_lt (a b : Nat) : sub64 a b < 2 ^ 64 := Nat.mod_lt _ (by decide)

theorem pushSp_mod (sp n : Nat) : pushSp sp n % 16 = 0 := by
  unfold pushSp
  omega

theorem pushSp_lt (sp n : Nat) : pushSp sp n < 2 ^ 64 :=
  Nat.lt_of_le_of_lt (Nat.sub_le _ _) (sub64_lt sp n)

/-- Pushing `n ≤ sp` bytes leaves room for them above the new pointer. -/
theorem pushSp_add_le {sp n : Nat} (hn : n ≤ sp) (hsp : sp < 2 ^ 64) : pushSp sp n + n ≤ sp := by
  unfold pushSp
  rw [sub64_of_le hn hsp]
  omega

theorem MAXVA_eq : MAXVA = 274877906944 := by decide

/-- `PGROUNDUP` keeps an address at most `MAXVA` at most `MAXVA`. -/
theorem pgroundup_le {sz : Nat} (h : sz ≤ MAXVA) : pgroundup sz ≤ MAXVA := by
  rw [MAXVA_eq] at *
  unfold pgroundup PGSIZE
  rw [Nat.mod_eq_of_lt (by omega)]
  omega

/-! ## Pushing the strings -/

section Push

variable {vm : Vm V} {mem : V → Nat → Nat → UInt8} {user : V → Nat → Nat → Bool}
  {pt stackbase top : Nat}

/-- The loop of `exec` over `argv`, from the strings `ps` stacked under
`top` down to `sp` (the pointers so far being their addresses): when it
returns, it has pushed each string of `argv` with its NUL below the last, and
its stack pointer is `argSp sp argv`, at or above the stack's base. -/
theorem pushArgs_stacked (hvm : VmLaws vm mem user) (hbase : PGSIZE ≤ stackbase) :
    ∀ (argv : List (List UInt8)) (sp : Nat) (ps : List (Nat × List UInt8)) (v : V)
      {sp' : Nat} {us : List Nat} {v' : V},
      (∀ a ∈ argv, a.length < PGSIZE) → stackbase ≤ sp → sp < 2 ^ 64 →
      Stacked (mem v pt) top ps sp →
      pushArgs vm pt stackbase argv sp (ps.map Prod.fst) v = .ok (sp', us, v') →
      ∃ qs : List (Nat × List UInt8), us = (ps ++ qs).map Prod.fst ∧
        qs.map Prod.snd = argv.map (· ++ [0]) ∧ Stacked (mem v' pt) top (ps ++ qs) sp' ∧
        sp' = argSp sp argv ∧ stackbase ≤ sp' ∧ user v' = user v
  | [], sp, ps, v, _, _, _, _, hsp, _, hst, h => by
    cases h
    exact ⟨[], by rw [List.append_nil], rfl, by rw [List.append_nil]; exact hst, rfl, hsp, rfl⟩
  | a :: argv, sp, ps, v, sp', us, v', hlen, hsp, hsp64, hst, h => by
    unfold pushArgs at h
    split at h
    · cases h
    dsimp only at h
    rw [show sub64 sp (a.length + 1) - sub64 sp (a.length + 1) % 16 = pushSp sp (a.length + 1)
      from rfl] at h
    split at h
    · cases h
    rename_i hbase₁
    split at h
    · cases h
    rename_i hr
    -- the string and its NUL fit between the new pointer and the old
    have hroom : pushSp sp (a.length + 1) + (a ++ [0]).length ≤ sp := by
      have ha := hlen a List.mem_cons_self
      rw [List.length_append, List.length_singleton]
      exact pushSp_add_le (by omega) hsp64
    -- the copy succeeded, so the string is in memory
    have hst₁ : Stacked (mem (vm.copyout v pt (pushSp sp (a.length + 1)) (a ++ [0])).2 pt) top
        (ps ++ [(pushSp sp (a.length + 1), a ++ [0])]) (pushSp sp (a.length + 1)) := by
      rw [hvm.copyout_mem _ _ _ _ hr]
      exact hst.push hroom
    have hus : List.map Prod.fst ps ++ [pushSp sp (a.length + 1)] =
        (ps ++ [(pushSp sp (a.length + 1), a ++ [0])]).map Prod.fst := by
      rw [List.map_append, List.map_singleton]
    rw [hus] at h
    obtain ⟨qs, hqs, hsnd, hst', hsp', hbase', huser⟩ :=
      pushArgs_stacked hvm hbase argv _ _ _ (fun x hx => hlen x (List.mem_cons_of_mem a hx))
        (Nat.le_of_not_lt hbase₁) (pushSp_lt _ _) hst₁ h
    refine ⟨(pushSp sp (a.length + 1), a ++ [0]) :: qs, ?_, ?_, ?_, hsp', hbase',
      huser.trans (hvm.copyout_user _ _ _ _)⟩
    · rw [hqs, List.append_assoc, List.singleton_append]
    · rw [List.map_cons, hsnd, List.map_cons]
    · rw [← List.singleton_append, ← List.append_assoc]
      exact hst'

end Push

/-! ## `exec` -/

section Exec

variable {vm : Vm V} {mem : V → Nat → Nat → UInt8} {user : V → Nat → Nat → Bool}

theorem VmLaws.uvmalloc_le (hvm : VmLaws vm mem user) {v : V} {pt oldsz newsz : Nat}
    (h : oldsz ≤ MAXVA) : (vm.uvmalloc v pt oldsz newsz).1 ≤ MAXVA := by
  rcases hvm.uvmalloc_size v pt oldsz newsz with h0 | ⟨-, h1⟩ | ⟨-, h2, h3 | h3⟩
  · rw [h0]
    exact Nat.zero_le _
  · rw [h1]
    exact h
  · rw [h2]
    exact h3
  · rw [h2]
    exact h3.trans (pgroundup_le h)

/-- `goto bad` returns `-1`. -/
theorem execBad_spec {P : FsState → Prop} (ip : Option Nat) (pt sz : Nat) (old : Image) (v : V) :
    Spec P (execBad vm ip pt sz old v) (fun r _ => r.1 = -1) (fun _ => False) := by
  unfold execBad
  dsimp only
  split
  · exact spec_bind spec_true fun _ => spec_bind spec_true fun _ => spec_returns rfl
  · exact spec_returns rfl

/-- The sizes the loop over the program headers reaches stay at most
`MAXVA`: each is one `uvmalloc` returned. -/
theorem loadLoop_size (hvm : VmLaws vm mem user) (ip pt : Nat) (fuel : Nat) :
    ∀ off sz (v : V), sz ≤ MAXVA →
      Spec (fun _ => True) (loadLoop vm ip pt fuel off sz v)
        (fun r _ => ∀ sz' v', r = .ok (sz', v') → sz' ≤ MAXVA) (fun _ => False) := by
  -- a header `exec` rejects ends the loop with `.error`, about which the triple says nothing
  have hstop : ∀ x : Nat × V, Spec (fun _ => True)
      (pure (Except.error x) : FsM (Except (Nat × V) (Nat × V)))
      (fun r _ => ∀ sz' v', r = .ok (sz', v') → sz' ≤ MAXVA) (fun _ => False) :=
    fun _ => spec_returns fun _ _ hr => by cases hr
  induction fuel with
  | zero =>
    intro off sz v h
    unfold loadLoop
    exact spec_returns fun _ _ hr => by cases hr; exact h
  | succ fuel ih =>
    intro off sz v h
    unfold loadLoop
    refine spec_bind spec_true fun bytes => ?_
    refine spec_ite (fun _ => hstop _) fun _ => ?_
    dsimp only
    -- the header's fields are read from bytes nothing is known of
    generalize getProghdr bytes = ph
    refine spec_ite (fun _ => ih _ sz v h) fun _ => ?_
    refine spec_ite (fun _ => hstop _) fun _ => ?_
    refine spec_ite (fun _ => hstop _) fun _ => ?_
    -- the new size is what `uvmalloc` returned
    have h₁ : (vm.uvmalloc v pt sz ((ph.vaddr + ph.memsz) % 2 ^ 64)).1 ≤ MAXVA :=
      hvm.uvmalloc_le h
    refine spec_ite (fun _ => hstop _) fun _ => ?_
    refine spec_ite (fun _ => hstop _) fun _ => ?_
    exact spec_bind spec_true fun _ => spec_ite (fun _ => hstop _) fun _ => ih _ _ _ h₁

end Exec

/-! ## The stack -/

/-- The stack a successful `exec` of `argv` leaves in the image `new`, the
machine being `v` and the strings' addresses `us`. -/
structure ArgStack (mem : V → Nat → Nat → UInt8) (user : V → Nat → Nat → Bool)
    (argv : List (List UInt8)) (new : Image) (v : V) (us : List Nat) : Prop where
  /-- `sz` is the loaded image rounded up to a page, and two pages. -/
  size : ∃ sz₀ ≤ MAXVA, new.sz = pgroundup sz₀ + 2 * PGSIZE
  /-- The lower of the two pages is the guard page. -/
  guard : user v new.pagetable (new.sz - 2 * PGSIZE) = false
  a1 : new.a1 = new.sp
  /-- The stack pointer is where pushing the strings and then the array puts
  it, and that is in the stack page. -/
  sp_eq : new.sp = arraySp (argSp new.sz argv) argv.length
  aligned : new.sp % 16 = 0
  above : new.sz - PGSIZE ≤ new.sp
  count : us.length = argv.length
  /-- The `argc + 1` words at `sp`: the strings' addresses, then `0`. -/
  words : ∀ i ≤ argv.length,
    leValue (read (mem v new.pagetable) (new.sp + 8 * i) 8) = (us ++ [0]).getD i 0
  /-- The strings with their NULs, stacked under `sz`, the last at
  `argSp new.sz argv`... -/
  strings : Stacked (mem v new.pagetable) new.sz (us.zip (argv.map (· ++ [0]))) (argSp new.sz argv)
  /-- ... which is above the array. -/
  array_below : new.sp + 8 * (argv.length + 1) ≤ argSp new.sz argv

/-- The `i`-th word of an array of 8-byte words. -/
theorem getBytes_flatMap_leBytes : ∀ (ws : List Nat) {i : Nat}, i < ws.length →
    getBytes (ws.flatMap (leBytes 8)) (8 * i) 8 = leBytes 8 (ws.getD i 0)
  | [], _, h => absurd h (Nat.not_lt_zero _)
  | w :: _, 0, _ => by
    rw [List.flatMap_cons, Nat.mul_zero, getBytes_append_left (by simp),
      getBytes_self (length_leBytes 8 w)]
    rfl
  | w :: ws, i + 1, h => by
    have hshift : getBytes (leBytes 8 w ++ ws.flatMap (leBytes 8)) ((leBytes 8 w).length + 8 * i) 8 =
        getBytes (ws.flatMap (leBytes 8)) (8 * i) 8 := getBytes_append_right _ _
    rw [length_leBytes] at hshift
    rw [List.flatMap_cons, show 8 * (i + 1) = 8 + 8 * i by omega, hshift,
      getBytes_flatMap_leBytes ws (by simp at h; omega)]
    rfl

theorem length_flatMap_leBytes : ∀ ws : List Nat, (ws.flatMap (leBytes 8)).length = 8 * ws.length
  | [] => rfl
  | w :: ws => by
    rw [List.flatMap_cons, List.length_append, length_leBytes, length_flatMap_leBytes ws,
      List.length_cons]
    omega

section Tail

variable {vm : Vm V} {mem : V → Nat → Nat → UInt8} {user : V → Nat → Nat → Bool}
  {argv : List (List UInt8)} {old : Image} {pt sz₀ sz sp : Nat} {v v₁ v₂ : V} {us : List Nat}

/-- The end of a successful `exec`, from the loaded image of size `sz₀`:
the two pages mapped, the guard page cleared, the strings and the array
pushed and copied, and the old page table freed. -/
theorem argStack_of (hvm : VmLaws vm mem user) (hold : pt ≠ old.pagetable)
    (hargc : argv.length < MAXARG) (hlen : ∀ a ∈ argv, a.length < PGSIZE) (h₀ : sz₀ ≤ MAXVA)
    (halloc : vm.uvmalloc v pt (pgroundup sz₀) ((pgroundup sz₀ + 2 * PGSIZE) % 2 ^ 64) = (sz, v₁))
    (hsz : sz ≠ 0)
    (hpush : pushArgs vm pt (sub64 sz PGSIZE) argv sz [] (vm.uvmclear v₁ pt (sub64 sz (2 * PGSIZE))) =
      .ok (sp, us, v₂))
    (hsp : ¬ arraySp sp us.length < sub64 sz PGSIZE)
    (hr : ¬ (vm.copyout v₂ pt (arraySp sp us.length) ((us ++ [0]).flatMap (leBytes 8))).1 < 0)
    (e : Nat) (name : List UInt8) :
    ArgStack mem user argv
      { pagetable := pt, sz, epc := e, sp := arraySp sp us.length, a1 := arraySp sp us.length, name }
      (vm.procFreepagetable
        (vm.copyout v₂ pt (arraySp sp us.length) ((us ++ [0]).flatMap (leBytes 8))).2
        old.pagetable old.sz) us := by
  -- the size: `uvmalloc` mapped the two pages
  have hpg := pgroundup_le h₀
  have hM := MAXVA_eq
  have hsz_eq : sz = pgroundup sz₀ + 2 * PGSIZE := by
    have hnew : (pgroundup sz₀ + 2 * PGSIZE) % 2 ^ 64 = pgroundup sz₀ + 2 * PGSIZE :=
      Nat.mod_eq_of_lt (by unfold PGSIZE; omega)
    rcases hvm.uvmalloc_size v pt (pgroundup sz₀) ((pgroundup sz₀ + 2 * PGSIZE) % 2 ^ 64)
      with h0 | ⟨hlt, -⟩ | ⟨-, hres, -⟩
    · rw [halloc] at h0
      exact absurd h0 hsz
    · rw [hnew] at hlt
      omega
    · rw [halloc, hnew] at hres
      exact hres
  have hsz64 : sz < 2 ^ 64 := by unfold PGSIZE at hsz_eq; omega
  have hbase : sub64 sz PGSIZE = sz - PGSIZE := sub64_of_le (by unfold PGSIZE at *; omega) hsz64
  have hguard : sub64 sz (2 * PGSIZE) = sz - 2 * PGSIZE :=
    sub64_of_le (by unfold PGSIZE at *; omega) hsz64
  rw [hbase, hguard] at hpush
  rw [hbase] at hsp
  -- the strings
  obtain ⟨qs, hus, hsnd, hst, hsp_eq, hsp_base, huser⟩ :=
    pushArgs_stacked hvm (by unfold PGSIZE at *; omega) argv sz [] _ hlen
      (Nat.sub_le _ _) hsz64 (stacked_nil sz) hpush
  rw [List.nil_append] at hus hst
  have hcount : us.length = argv.length := by
    rw [hus, List.length_map, ← List.length_map (f := Prod.snd), hsnd, List.length_map]
  have hqs : qs = us.zip (argv.map (· ++ [0])) := by
    rw [hus, ← hsnd, ← List.unzip_fst, ← List.unzip_snd, List.zip_unzip]
  -- the array, below the strings
  have harr : arraySp sp us.length + ((us ++ [0]).flatMap (leBytes 8)).length ≤ sp := by
    rw [length_flatMap_leBytes, List.length_append, List.length_singleton, Nat.mul_comm]
    exact pushSp_add_le (by unfold MAXARG PGSIZE at *; omega) (Nat.lt_of_le_of_lt hst.bot_le hsz64)
  rw [length_flatMap_leBytes, List.length_append, List.length_singleton] at harr
  -- the memory after the array's copy and the old page table's release
  have hmem : mem (vm.procFreepagetable
      (vm.copyout v₂ pt (arraySp sp us.length) ((us ++ [0]).flatMap (leBytes 8))).2
      old.pagetable old.sz) pt =
      write (mem v₂ pt) (arraySp sp us.length) ((us ++ [0]).flatMap (leBytes 8)) := by
    rw [hvm.free_mem _ _ _ _ hold, hvm.copyout_mem _ _ _ _ hr]
  -- every address in the array fits in a word
  have hword : ∀ u ∈ us ++ [0], u < 2 ^ 64 := by
    intro u hu
    rcases List.mem_append.mp hu with hu | hu
    · rw [hus] at hu
      obtain ⟨q, hq, rfl⟩ := List.mem_map.mp hu
      have := (hst.mem q hq).2.1
      omega
    · rw [List.mem_singleton.mp hu]
      exact Nat.two_pow_pos 64
  refine ⟨⟨sz₀, h₀, hsz_eq⟩, ?_, rfl, ?_, pushSp_mod _ _, ?_, hcount, ?_, ?_, ?_⟩
  · show user (vm.procFreepagetable _ old.pagetable old.sz) pt (sz - 2 * PGSIZE) = false
    rw [hvm.free_user _ _ _ _ hold, hvm.copyout_user, huser, hvm.uvmclear_user]
  · show arraySp sp us.length = arraySp (argSp sz argv) argv.length
    rw [hsp_eq, hcount]
  · show sz - PGSIZE ≤ arraySp sp us.length
    omega
  · intro i hi
    have hi' : i < (us ++ [0]).length := by
      rw [List.length_append, List.length_singleton]
      omega
    show leValue (read (mem (vm.procFreepagetable _ old.pagetable old.sz) pt)
      (arraySp sp us.length + 8 * i) 8) = _
    rw [hmem, read_write_inside (by rw [length_flatMap_leBytes]; omega)]
    change leValue (getBytes _ (8 * i) 8) = _
    rw [getBytes_flatMap_leBytes _ hi', leValue_leBytes, List.getD_eq_getElem _ _ hi',
      show (256 : Nat) ^ 8 = 2 ^ 64 by decide]
    exact Nat.mod_eq_of_lt (hword _ (List.getElem_mem hi'))
  · show Stacked (mem (vm.procFreepagetable _ old.pagetable old.sz) pt) sz _ (argSp sz argv)
    rw [hmem, ← hqs, ← hsp_eq]
    exact hst.write_below (by rw [length_flatMap_leBytes, List.length_append,
      List.length_singleton]; exact harr)
  · show arraySp sp us.length + 8 * (argv.length + 1) ≤ argSp sz argv
    rw [← hsp_eq, ← hcount]
    exact harr

end Tail

/-- **`exec` builds a well-formed argument stack.** Over any `vm.c` with
the laws of `VmLaws` whose `proc_pagetable` never hands out the process's
own page table, take `argv` of fewer than `MAXARG` strings, each shorter
than a page. A run of `exec` that returns returns `-1`, or `argc` with the
stack `ArgStack` describes. -/
theorem exec_argument_stack {vm : Vm V} {mem : V → Nat → Nat → UInt8}
    {user : V → Nat → Nat → Bool} {p : Nat} {path : List UInt8} {argv : List (List UInt8)}
    {old : Image} {v : V} (hvm : VmLaws vm mem user)
    (hold : ∀ w, (vm.procPagetable w).1 ≠ old.pagetable)
    (hargc : argv.length < MAXARG) (hlen : ∀ a ∈ argv, a.length < PGSIZE) :
    Spec (fun _ => True) (exec vm p path argv old v)
      (fun r _ => r.1 = -1 ∨ (r.1 = argv.length ∧ ∃ us, ArgStack mem user argv r.2.1 r.2.2 us))
      (fun _ => False) := by
  have hbad : ∀ ip pt sz (v' : V), Spec (fun _ => True) (execBad vm ip pt sz old v')
      (fun r _ => r.1 = -1 ∨ (r.1 = argv.length ∧ ∃ us, ArgStack mem user argv r.2.1 r.2.2 us))
      (fun _ => False) :=
    fun ip pt sz v' => (execBad_spec ip pt sz old v').mono (fun _ h => h) fun _ _ h => Or.inl h
  unfold exec
  refine spec_bind spec_true fun _ => spec_bind spec_true fun found => ?_
  cases found with
  | none => exact spec_bind spec_true fun _ => spec_returns (Or.inl rfl)
  | some ip =>
    refine spec_bind spec_true fun _ => spec_bind spec_true fun hdr => ?_
    refine spec_ite (fun _ => hbad _ _ _ _) fun _ => ?_
    dsimp only
    -- the header's fields are read from bytes nothing is known of
    generalize getElfhdr hdr = elf
    refine spec_ite (fun _ => hbad _ _ _ _) fun _ => ?_
    refine spec_ite (fun _ => hbad _ _ _ _) fun _ => ?_
    refine spec_bind (loadLoop_size hvm _ _ _ _ _ _ (Nat.zero_le _)) fun res => ?_
    rcases res with ⟨sz₀, v₂⟩ | ⟨sz₀, v₂⟩
    · exact (hbad _ _ _ _).mono (fun _ _ => True.intro) fun _ _ h => h
    refine Spec.of_const fun hsz₀ => ?_
    refine spec_bind spec_true fun _ => spec_bind spec_true fun _ => ?_
    refine spec_ite (fun _ => hbad _ _ _ _) fun hsz => ?_
    split
    · exact hbad _ _ _ _
    rename_i sp us v₃ hpush
    -- the comparisons of addresses are split on, not decided
    split
    · exact hbad _ _ _ _
    rename_i hsp
    split
    · exact hbad _ _ _ _
    rename_i hr
    have hstack := argStack_of hvm (hold v) hargc hlen (hsz₀ sz₀ v₂ rfl) rfl
      (fun h => hsz (by rw [h]; rfl)) hpush hsp hr elf.entry ((lastElem path path).take 15)
    exact spec_returns (Or.inr ⟨by rw [hstack.count], us, hstack⟩)

/-! ## A machine that meets the laws -/

/-- A machine with one user address space: its bytes and its `PTE_U`
bits. -/
structure FlatMachine where
  mem : Nat → UInt8
  user : Nat → Bool

/-- `vm.c` over `FlatMachine`. Every page table is the one address space,
every address is mapped (at physical address `va + 1`), `proc_pagetable`
hands out page table `1`, and `uvmalloc` grows the space up to `MAXVA`. -/
def flatVm : Vm FlatMachine where
  procPagetable v := (1, v)
  uvmalloc v _ oldsz newsz :=
    (if newsz < oldsz then oldsz else if newsz ≤ MAXVA then newsz else 0, v)
  walkaddr _ _ va := va + 1
  memmove v pa bs := { v with mem := write v.mem (pa - 1) bs }
  uvmclear v _ va := { v with user := fun x => if x = va then false else v.user x }
  copyout v _ va bs := (0, { v with mem := write v.mem va bs })
  procFreepagetable v _ _ := v

theorem flatVm_laws : VmLaws flatVm (fun v _ => v.mem) (fun v _ => v.user) where
  uvmalloc_size v pt oldsz newsz := by
    show (if newsz < oldsz then oldsz else if newsz ≤ MAXVA then newsz else 0) = 0 ∨
      (newsz < oldsz ∧ (if newsz < oldsz then oldsz else if newsz ≤ MAXVA then newsz else 0) = oldsz) ∨
      (oldsz ≤ newsz ∧ (if newsz < oldsz then oldsz else if newsz ≤ MAXVA then newsz else 0) = newsz ∧
        (newsz ≤ MAXVA ∨ newsz ≤ pgroundup oldsz))
    by_cases h₁ : newsz < oldsz
    · exact .inr (.inl ⟨h₁, if_pos h₁⟩)
    · by_cases h₂ : newsz ≤ MAXVA
      · exact .inr (.inr ⟨by omega, by rw [if_neg h₁, if_pos h₂], .inl h₂⟩)
      · exact .inl (by rw [if_neg h₁, if_neg h₂])
  copyout_mem _ _ _ _ _ := rfl
  copyout_user _ _ _ _ := rfl
  uvmclear_mem _ _ _ := rfl
  uvmclear_user _ _ va := if_pos rfl
  free_mem _ _ _ _ _ := rfl
  free_user _ _ _ _ _ := rfl

/-! ## A disk `exec` loads a program from -/

/-- The superblock of the disk: log at blocks 2 and 3, inodes at 4, bitmap at
5, data from 6 on. -/
def elfSb : Superblock :=
  { magic := FSMAGIC, size := 8, nblocks := 2, ninodes := IPB, nlog := 2, logstart := 2,
    inodestart := 4, bmapstart := 5 }

/-- The file's contents: an ELF header with one program header right after
it, a `LOAD` of 4 bytes from file offset `2^32` to address 0. -/
def elfBytes : Block :=
  let d := setLE zeroBlock 0 4 ELF_MAGIC
  let d := setLE d 32 8 ELFHDRSIZE
  let d := setLE d 56 2 1
  let d := setLE d ELFHDRSIZE 4 ELF_PROG_LOAD
  let d := setLE d (ELFHDRSIZE + 8) 8 (2 ^ 32)
  let d := setLE d (ELFHDRSIZE + 32) 8 4
  setLE d (ELFHDRSIZE + 40) 8 4

/-- The root directory (inode 1, entries `.` and `e` in block 6) and the file
`e` (inode 2, 120 bytes in block 7). -/
def elfImage : Disk Block := fun b =>
  if b = 1 then writeSuperblock elfSb zeroBlock
  else if b = 4 then
    setDinode (setDinode zeroBlock (dinodeOff ROOTINO)
      { Dinode.zero with type := T_DIR, nlink := 1, size := 2 * DIRENTSIZE,
                         addrs := 6 :: List.replicate NDIRECT 0 })
      (dinodeOff 2)
      { Dinode.zero with type := T_FILE, nlink := 1, size := ELFHDRSIZE + PROGHDRSIZE,
                         addrs := 7 :: List.replicate NDIRECT 0 }
  else if b = 6 then setDirent (setDirent zeroBlock 0 ⟨ROOTINO, cbytes "."⟩) DIRENTSIZE ⟨2, cbytes "e"⟩
  else if b = 7 then elfBytes
  else zeroBlock

/-- The image `exec` replaces. -/
def elfOldImage : Image := { pagetable := 2, sz := 0, epc := 0, sp := 0, a1 := 0, name := [] }

/-- The machine before `exec`: memory all zero, every page user-accessible. -/
def blankMachine : FlatMachine := { mem := fun _ => 0, user := fun _ => true }

/-- `exec("/e", ["hi", "j"])` on the disk of `elfImage`, over `flatVm`:
the run returns `argc = 2`, with the stack `ArgStack` describes. -/
theorem exec_argument_stack_elf :
    VmLaws flatVm (fun v _ => v.mem) (fun v _ => v.user) ∧
      (∀ w, (flatVm.procPagetable w).1 ≠ elfOldImage.pagetable) ∧
      [[104, 105], [106]].length < MAXARG ∧ (∀ a ∈ [[(104 : UInt8), 105], [106]], a.length < PGSIZE) ∧
      ∃ r s', (exec flatVm 0 (cbytes "/e") [[104, 105], [106]] elfOldImage blankMachine).run
          (bootFs elfImage) = .ok (r, s') ∧
        r.1 = 2 ∧ ∃ us, ArgStack (fun v _ => v.mem) (fun v _ => v.user) [[104, 105], [106]] r.2.1
          r.2.2 us := by
  have hspec : Spec (fun _ => True)
      (exec flatVm 0 (cbytes "/e") [[104, 105], [106]] elfOldImage blankMachine)
      (fun r _ => r.1 = -1 ∨ (r.1 = ([[104, 105], [106]] : List (List UInt8)).length ∧
        ∃ us, ArgStack (fun v _ => v.mem) (fun v _ => v.user) [[104, 105], [106]] r.2.1 r.2.2 us))
      (fun _ => False) :=
    exec_argument_stack flatVm_laws (fun _ => (by decide : (1 : Nat) ≠ 2)) (by decide) (by decide)
  -- the run returns `argc`
  have hret : ((exec flatVm 0 (cbytes "/e") [[104, 105], [106]] elfOldImage blankMachine).run
      (bootFs elfImage)).map (fun r => r.1.1) = .ok 2 := rfl
  refine ⟨flatVm_laws, fun _ => (by decide : (1 : Nat) ≠ 2), by decide, by decide, ?_⟩
  rcases hrun : (exec flatVm 0 (cbytes "/e") [[104, 105], [106]] elfOldImage blankMachine).run
      (bootFs elfImage) with e | ⟨r, s'⟩
  · rw [hrun] at hret
    cases hret
  · have hcall := hspec (bootFs elfImage) trivial
    rw [hrun] at hcall hret
    have hr : r.1 = 2 := Except.ok.inj hret
    rcases hcall with h | ⟨-, us, hus⟩
    · rw [hr] at h
      cases h
    · exact ⟨r, s', rfl, hr, us, hus⟩

/-! ## A program header whose segment lies past the end of the file

`exec` reads the 64-bit `ph.off` and `ph.filesz` of each `LOAD` header and
hands them to `loadseg`, whose parameters `offset` and `sz` are `uint`: the
high bits are dropped without a check. No check compares the segment's file
range with the file's size either, so a header whose `off` is `2^32` loads the
file's first bytes, and `exec` succeeds: on `elfImage`, `exec("/e", [])`
returns `0`, not `-1`, and the user bytes at `[0, 4)` are the file's bytes at
`[0, 4)`, the ELF magic. -/

/-- The file `e` is 120 bytes long and its one program header is a `LOAD` of 4
bytes from file offset `2^32`, past the end of the file; yet `exec` returns
`0` and loads the file's bytes `[0, 4)` at address 0. -/
theorem exec_loads_wrapped_segment_offset :
    (getDinode (elfImage 4) (dinodeOff 2)).size = 120 ∧
      getProghdr (getBytes elfBytes ELFHDRSIZE PROGHDRSIZE) =
        { type := ELF_PROG_LOAD, off := 2 ^ 32, vaddr := 0, filesz := 4, memsz := 4 } ∧
      ((exec flatVm 0 (cbytes "/e") [] elfOldImage blankMachine).run (bootFs elfImage)).map
          (fun r => (r.1.1, read r.1.2.2.mem 0 4)) =
        .ok (0, getBytes elfBytes 0 4) ∧
      getBytes elfBytes 0 4 = [0x7F, 0x45, 0x4C, 0x46] := by
  decide +kernel

end Fs

end Xv6
