import Mathlib

/-!
# Disks as maps from block numbers, and the writes that change them

A disk is a total map from block numbers to block contents. A device that
writes one whole block at a time, synchronously, changes a disk only through
`Disk.write`; a run of such a device is the list of its writes, and a crash
leaves the disk as it was after some prefix of that list (`crashAt`). The
lemmas are the frame rule for writes and the composition of runs.
-/

namespace BlockDisk

/-- A disk: the contents of every block. -/
abbrev Disk (α : Type) := Nat → α

variable {α : Type}

/-- Write one whole block. -/
def Disk.write (d : Disk α) (b : Nat) (v : α) : Disk α :=
  fun x => if x = b then v else d x

/-- Apply a run of block writes, in order. -/
def applyWrites (d : Disk α) : List (Nat × α) → Disk α
  | [] => d
  | (b, v) :: ws => applyWrites (d.write b v) ws

/-- The disk a crash leaves after the first `j` writes of a run. -/
def crashAt (d : Disk α) (ws : List (Nat × α)) (j : Nat) : Disk α :=
  applyWrites d (ws.take j)

@[simp] theorem Disk.write_same (d : Disk α) (b : Nat) (v : α) : d.write b v b = v := by
  simp [Disk.write]

theorem Disk.write_other (d : Disk α) {b x : Nat} (v : α) (h : x ≠ b) :
    d.write b v x = d x := by
  simp [Disk.write, h]

@[simp] theorem applyWrites_nil (d : Disk α) : applyWrites d [] = d := rfl

/-- The frame rule: a block no write of the run touches keeps its contents. -/
theorem applyWrites_of_not_mem (d : Disk α) {x : Nat} :
    ∀ ws : List (Nat × α), (∀ p ∈ ws, p.1 ≠ x) → applyWrites d ws x = d x
  | [], _ => rfl
  | (b, v) :: ws, h => by
    have hb : x ≠ b := fun hx => h (b, v) List.mem_cons_self hx.symm
    rw [applyWrites, applyWrites_of_not_mem _ ws (fun p hp => h p (List.mem_cons_of_mem _ hp)),
      Disk.write_other _ _ hb]

/-- A crash after the whole run leaves the disk the run produced. -/
theorem crashAt_length (d : Disk α) (ws : List (Nat × α)) :
    crashAt d ws ws.length = applyWrites d ws := by
  rw [crashAt, List.take_length]

end BlockDisk
