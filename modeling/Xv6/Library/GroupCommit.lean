import Mathlib

/-!
# Group commit with admission control

A write-ahead log shared by concurrent operations. Each operation is
admitted (`begin`), logs blocks (`write`), and leaves (`finish`); the blocks
of all operations since the last commit form one group, a block written twice
is logged once, and the group commits when the last active operation leaves.

The log's header has `slots` entries and its data region `capacity` blocks.
Admission reserves `reserve` blocks for each active operation: a new one is
admitted only while the group's size plus a reservation for every active
operation and for the newcomer fits in `slots`. A write that finds the group
at either limit fails.

The result (`write_fits`): if every operation logs at most `K` distinct
blocks with `K + 2 ≤ reserve`, and `slots ≤ capacity + 1`, then in every
interleaving no write fails. The
invariant behind it says that the group and the unused reservations of the
active operations together fit in the header (`Inv.budget`).

Operations and blocks are of arbitrary types with decidable equality.
-/

namespace GroupCommit

/-- The log's limits. -/
structure Budget where
  slots : Nat
  capacity : Nat
  reserve : Nat

variable {ι β : Type}

/-- The log as the operations see it: the current group, the active
operations, and the distinct blocks each operation has logged. -/
structure Log (ι β : Type) where
  group : Finset β
  active : Finset ι
  written : ι → Finset β

/-- No group, no operation. -/
def Log.empty : Log ι β := ⟨∅, ∅, fun _ => ∅⟩

variable [DecidableEq ι]

/-- `begin`: operation `i` joins, having logged nothing. -/
def Log.enter (l : Log ι β) (i : ι) : Log ι β :=
  { l with active := insert i l.active, written := Function.update l.written i ∅ }

/-- `finish`: operation `i` leaves; the last one to leave commits the
group. -/
def Log.leave (l : Log ι β) (i : ι) : Log ι β :=
  { l with active := l.active.erase i,
           group := if l.active.erase i = ∅ then ∅ else l.group }

section Updates

variable (l : Log ι β) (i : ι)

@[simp] theorem Log.enter_group : (l.enter i).group = l.group := rfl
@[simp] theorem Log.enter_active : (l.enter i).active = insert i l.active := rfl
@[simp] theorem Log.enter_written : (l.enter i).written = Function.update l.written i ∅ := rfl
@[simp] theorem Log.leave_group :
    (l.leave i).group = if l.active.erase i = ∅ then ∅ else l.group := rfl
@[simp] theorem Log.leave_active : (l.leave i).active = l.active.erase i := rfl
@[simp] theorem Log.leave_written : (l.leave i).written = l.written := rfl

end Updates

variable (B : Budget) (K : Nat)

/-- A write fails when the group is at the header's or the region's limit. -/
def Overflows (l : Log ι β) : Prop := B.slots ≤ l.group.card ∨ B.capacity ≤ l.group.card

/-- The unused reservations of the active operations. -/
def slack (l : Log ι β) : Nat := ∑ j ∈ l.active, (B.reserve - (l.written j).card)

/-! ## The slack -/

/-- The slack is the term of one active operation plus that of the others. -/
theorem slack_eq_add {l : Log ι β} {i : ι} (hi : i ∈ l.active) :
    slack B l = (B.reserve - (l.written i).card) +
      ∑ j ∈ l.active.erase i, (B.reserve - (l.written j).card) :=
  (Finset.add_sum_erase _ _ hi).symm

/-- Only the entries of the active operations other than `i` count in the
rest of the sum, so changing `written i` does not touch it. -/
theorem sum_erase_update (l : Log ι β) (i : ι) (w : Finset β) :
    ∑ j ∈ l.active.erase i, (B.reserve - (Function.update l.written i w j).card) =
      ∑ j ∈ l.active.erase i, (B.reserve - (l.written j).card) := by
  apply Finset.sum_congr rfl
  intro j hj
  rw [Function.update_of_ne (Finset.ne_of_mem_erase hj)]

omit [DecidableEq ι] in
theorem slack_le (l : Log ι β) : slack B l ≤ l.active.card * B.reserve := by
  calc slack B l ≤ ∑ _j ∈ l.active, B.reserve := Finset.sum_le_sum fun _ _ => Nat.sub_le _ _
    _ = l.active.card * B.reserve := Finset.sum_const_nat fun _ _ => rfl

variable [DecidableEq β]

/-- `write`: operation `i` logs block `b`, which joins the group once. -/
def Log.record (l : Log ι β) (i : ι) (b : β) : Log ι β :=
  { l with group := insert b l.group,
           written := Function.update l.written i (insert b (l.written i)) }

section Updates

variable (l : Log ι β) (i : ι) (b : β)

@[simp] theorem Log.record_group : (l.record i b).group = insert b l.group := rfl
@[simp] theorem Log.record_active : (l.record i b).active = l.active := rfl
@[simp] theorem Log.record_written :
    (l.record i b).written = Function.update l.written i (insert b (l.written i)) := rfl

end Updates

/-- The steps of an interleaving. An operation logs a block it has not
logged before only while it has logged fewer than `K`. -/
inductive Step : Log ι β → Log ι β → Prop
  | begin (l : Log ι β) (i : ι) (hnew : i ∉ l.active)
      (hroom : l.group.card + (l.active.card + 1) * B.reserve ≤ B.slots) : Step l (l.enter i)
  | write (l : Log ι β) (i : ι) (b : β) (hi : i ∈ l.active)
      (hK : b ∈ l.written i ∨ (l.written i).card < K) (hfits : ¬ Overflows B l) :
      Step l (l.record i b)
  | finish (l : Log ι β) (i : ι) (hi : i ∈ l.active) : Step l (l.leave i)

/-- The states some interleaving reaches from the empty log. -/
inductive Reachable : Log ι β → Prop
  | init : Reachable Log.empty
  | step {l l' : Log ι β} : Reachable l → Step B K l l' → Reachable l'

/-- The invariant. -/
structure Inv (l : Log ι β) : Prop where
  written_sub : ∀ i ∈ l.active, l.written i ⊆ l.group
  written_le : ∀ i ∈ l.active, (l.written i).card ≤ K
  budget : l.group.card + slack B l ≤ B.slots
  idle : l.active = ∅ → l.group = ∅

/-! ## The invariant along every interleaving -/

omit [DecidableEq ι] [DecidableEq β] in
theorem inv_empty : Inv B K (Log.empty : Log ι β) where
  written_sub := by simp [Log.empty]
  written_le := by simp [Log.empty]
  budget := by simp [Log.empty, slack]
  idle := fun _ => rfl

omit [DecidableEq β] in
theorem inv_begin {l : Log ι β} {i : ι} (hinv : Inv B K l) (hnew : i ∉ l.active)
    (hroom : l.group.card + (l.active.card + 1) * B.reserve ≤ B.slots) :
    Inv B K (l.enter i) where
  written_sub := by
    intro j hj
    rw [Log.enter_active, Finset.mem_insert] at hj
    by_cases hji : j = i
    · subst hji; simp
    · simpa [Function.update_of_ne hji] using hinv.written_sub j (hj.resolve_left hji)
  written_le := by
    intro j hj
    rw [Log.enter_active, Finset.mem_insert] at hj
    by_cases hji : j = i
    · subst hji; simp
    · simpa [Function.update_of_ne hji] using hinv.written_le j (hj.resolve_left hji)
  budget := by
    -- the newcomer's full reservation is what admission checked
    have hsplit : slack B (l.enter i) = B.reserve + slack B l := by
      unfold slack
      rw [Log.enter_active, Finset.sum_insert hnew, Log.enter_written, Function.update_self,
        Finset.card_empty, Nat.sub_zero]
      congr 1
      apply Finset.sum_congr rfl
      intro j hj
      have hji : j ≠ i := fun h => hnew (h ▸ hj)
      rw [Function.update_of_ne hji]
    have hle := slack_le B l
    rw [hsplit, Log.enter_group]
    calc l.group.card + (B.reserve + slack B l)
        ≤ l.group.card + (l.active.card + 1) * B.reserve := by
          rw [Nat.add_mul, Nat.one_mul]; omega
      _ ≤ B.slots := hroom
  idle := fun h => absurd h (Finset.insert_ne_empty i l.active)

theorem inv_write {l : Log ι β} {i : ι} {b : β} (hinv : Inv B K l) (hK2 : K + 2 ≤ B.reserve)
    (hi : i ∈ l.active) (hK : b ∈ l.written i ∨ (l.written i).card < K) :
    Inv B K (l.record i b) where
  written_sub := by
    intro j hj
    rw [Log.record_active] at hj
    rw [Log.record_written, Log.record_group]
    by_cases hji : j = i
    · subst hji
      rw [Function.update_self]
      exact Finset.insert_subset_insert b (hinv.written_sub j hj)
    · rw [Function.update_of_ne hji]
      exact (hinv.written_sub j hj).trans (Finset.subset_insert b l.group)
  written_le := by
    intro j hj
    rw [Log.record_active] at hj
    rw [Log.record_written]
    by_cases hji : j = i
    · subst hji
      rw [Function.update_self]
      rcases hK with hb | hlt
      · rw [Finset.insert_eq_of_mem hb]; exact hinv.written_le j hj
      · exact (Finset.card_insert_le b _).trans hlt
    · rw [Function.update_of_ne hji]
      exact hinv.written_le j hj
  budget := by
    have hrest := sum_erase_update B l i (insert b (l.written i))
    have hsplit := slack_eq_add B hi
    have hsplit' := slack_eq_add B (l := l.record i b) hi
    rw [Log.record_written, Log.record_active, Function.update_self] at hsplit'
    rw [Log.record_group]
    have hbud := hinv.budget
    by_cases hb : b ∈ l.written i
    · -- a block the operation logged before: nothing changes
      have hg : b ∈ l.group := hinv.written_sub i hi hb
      rw [Finset.insert_eq_of_mem hg]
      rw [Finset.insert_eq_of_mem hb] at hsplit' hrest
      omega
    · -- a new block: the group grows by at most one, the reservation shrinks by one
      have hlt : (l.written i).card < K := hK.resolve_left hb
      have hcard := Finset.card_insert_of_notMem hb
      have hgrow := Finset.card_insert_le b l.group
      have hless : slack B (l.record i b) + 1 = slack B l := by
        rw [hsplit', hrest, hsplit, hcard]
        omega
      omega
  idle := fun h => absurd h (Finset.ne_empty_of_mem hi)

omit [DecidableEq β] in
theorem inv_finish {l : Log ι β} {i : ι} (hinv : Inv B K l) (hi : i ∈ l.active) :
    Inv B K (l.leave i) where
  written_sub := by
    intro j hj
    rw [Log.leave_active] at hj
    have hne : l.active.erase i ≠ ∅ := Finset.ne_empty_of_mem hj
    rw [Log.leave_written, Log.leave_group, if_neg hne]
    exact hinv.written_sub j (Finset.mem_of_mem_erase hj)
  written_le := fun j hj => hinv.written_le j (Finset.mem_of_mem_erase hj)
  budget := by
    have hsplit := slack_eq_add B hi
    have hbud := hinv.budget
    have hslack : slack B (l.leave i) = ∑ j ∈ l.active.erase i, (B.reserve - (l.written j).card) :=
      rfl
    rw [hslack, Log.leave_group]
    split
    · rw [Finset.card_empty]; omega
    · omega
  idle := by
    intro h
    rw [Log.leave_active] at h
    rw [Log.leave_group, if_pos h]

theorem inv_step {l l' : Log ι β} (hK2 : K + 2 ≤ B.reserve) (hinv : Inv B K l)
    (h : Step B K l l') : Inv B K l' := by
  cases h with
  | begin i hnew hroom => exact inv_begin B K hinv hnew hroom
  | write i b hi hK _ => exact inv_write B K hinv hK2 hi hK
  | finish i hi => exact inv_finish B K hinv hi

theorem reachable_inv {l : Log ι β} (hK2 : K + 2 ≤ B.reserve) (h : Reachable B K l) :
    Inv B K l := by
  induction h with
  | init => exact inv_empty B K
  | step _ hs ih => exact inv_step B K hK2 ih hs

/-! ## No write within the bound fails -/

/-- **No write overflows.** In every state an interleaving reaches, a write
by any active operation finds the group below both limits: the operation's
own unused reservation keeps two slots free. -/
theorem write_fits {l : Log ι β} {i : ι} (hK2 : K + 2 ≤ B.reserve)
    (hcap : B.slots ≤ B.capacity + 1) (h : Reachable B K l) (hi : i ∈ l.active) :
    ¬ Overflows B l := by
  have hinv := reachable_inv B K hK2 h
  have hsplit := slack_eq_add B hi
  have hbud := hinv.budget
  have hown : (l.written i).card ≤ K := hinv.written_le i hi
  have hspare : 2 ≤ B.reserve - (l.written i).card := by omega
  unfold Overflows
  omega

end GroupCommit
