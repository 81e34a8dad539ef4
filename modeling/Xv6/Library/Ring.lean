import Mathlib

/-!
# Ring buffers with free-running 32-bit indices

A ring of `N` slots read and written through counters that only ever go up
(or back by one) and wrap at `2^32`: slot `x % N` holds entry `x`. With `N`
dividing `2^32`, the wrap of the counter never moves an entry to another
slot, and the distance between two counters is their unsigned difference.

- `slot N x`: where entry `x` lives;
- `window buf x k`: the `k` entries from `x` on, oldest first.

The counter lemmas say when an unsigned difference behaves like the
difference of naturals (`toNat_sub_add_sub`, `toNat_add_one_sub`,
`toNat_sub_add_one`, `toNat_sub_one_sub`); the window lemmas are the ones a
queue needs: a write outside the window leaves it alone
(`window_update_of_le`), a write at its end extends it (`window_push`), and
moving its start drops its first entry (`window_succ_left`).
-/

namespace RingBuf

/-! ## Counters -/

section Counters

variable {x y z : UInt32}

theorem toNat_sub_eq_zero_iff : (y - x).toNat = 0 ↔ y = x := by
  rw [← UInt32.toNat_inj, UInt32.toNat_sub]
  have := x.toNat_lt
  have := y.toNat_lt
  omega

/-- Distances add up while they stay below `2^32`. -/
theorem toNat_sub_add_sub (h : (y - x).toNat + (z - y).toNat < 2 ^ 32) :
    (z - x).toNat = (y - x).toNat + (z - y).toNat := by
  simp only [UInt32.toNat_sub] at h ⊢
  have := x.toNat_lt
  have := y.toNat_lt
  have := z.toNat_lt
  omega

/-- Moving the far end forward by one. -/
theorem toNat_add_one_sub (h : (y - x).toNat + 1 < 2 ^ 32) :
    (y + 1 - x).toNat = (y - x).toNat + 1 := by
  simp only [UInt32.toNat_sub, UInt32.toNat_add, UInt32.toNat_one] at h ⊢
  have := x.toNat_lt
  have := y.toNat_lt
  omega

/-- Moving the near end forward by one. -/
theorem toNat_sub_add_one (h : y ≠ x) : (y - (x + 1)).toNat = (y - x).toNat - 1 := by
  have hne : y.toNat ≠ x.toNat := fun e => h (UInt32.toNat_inj.mp e)
  rw [UInt32.toNat_sub, UInt32.toNat_sub, UInt32.toNat_add, UInt32.toNat_one]
  have := x.toNat_lt
  have := y.toNat_lt
  omega

/-- Moving the far end back by one. -/
theorem toNat_sub_one_sub (h : y ≠ x) : (y - 1 - x).toNat = (y - x).toNat - 1 := by
  have hne : y.toNat ≠ x.toNat := fun e => h (UInt32.toNat_inj.mp e)
  rw [UInt32.toNat_sub, UInt32.toNat_sub, UInt32.toNat_sub, UInt32.toNat_one]
  have := x.toNat_lt
  have := y.toNat_lt
  omega

/-- A counter is its start moved by the distance. -/
theorem add_toNat_sub (x y : UInt32) : x + (y - x).toNat.toUInt32 = y := by
  rw [← UInt32.toNat_inj, UInt32.toNat_add, Nat.toUInt32_eq, UInt32.toNat_ofNat', UInt32.toNat_sub]
  have := x.toNat_lt
  have := y.toNat_lt
  omega

end Counters

/-! ## Slots and windows -/

variable {α : Type} {N : Nat} [NeZero N]

/-- The slot of entry `x`. -/
def slot (N : Nat) [NeZero N] (x : UInt32) : Fin N :=
  ⟨x.toNat % N, Nat.mod_lt _ (Nat.pos_of_ne_zero (NeZero.ne N))⟩

/-- The `k` entries from `x` on, oldest first. -/
def window (buf : Fin N → α) (x : UInt32) : Nat → List α
  | 0 => []
  | k + 1 => window buf x k ++ [buf (slot N (x + k.toUInt32))]

@[simp] theorem window_zero (buf : Fin N → α) (x : UInt32) : window buf x 0 = [] := rfl

theorem window_succ (buf : Fin N → α) (x : UInt32) (k : Nat) :
    window buf x (k + 1) = window buf x k ++ [buf (slot N (x + k.toUInt32))] := rfl

@[simp] theorem length_window (buf : Fin N → α) (x : UInt32) (k : Nat) :
    (window buf x k).length = k := by
  induction k with
  | zero => rfl
  | succ k ih => simp [window_succ, ih]

/-- A window is two windows end to end. -/
theorem window_add (buf : Fin N → α) (x : UInt32) (a b : Nat) :
    window buf x (a + b) = window buf x a ++ window buf (x + a.toUInt32) b := by
  induction b with
  | zero => simp
  | succ b ih =>
    rw [← Nat.add_assoc, window_succ, ih, window_succ, List.append_assoc, Nat.toUInt32_eq,
      Nat.toUInt32_eq, UInt32.ofNat_add, UInt32.add_assoc]

section Divides

variable (hN : N ∣ 2 ^ 32)
include hN

/-- The counter's wrap at `2^32` does not move an entry to another slot. -/
theorem slot_add_val (x : UInt32) (n : Nat) : (slot N (x + n.toUInt32)).val = (x.toNat + n) % N := by
  simp only [slot, UInt32.toNat_add, Nat.toUInt32_eq, UInt32.toNat_ofNat']
  rw [Nat.mod_mod_of_dvd _ hN, Nat.add_mod, Nat.mod_mod_of_dvd _ hN, ← Nat.add_mod]

/-- Entries `i` and `j` of one window of at most `N` entries have different slots. -/
theorem slot_add_ne (x : UInt32) {i j : Nat} (hij : i < j) (hj : j < i + N) :
    slot N (x + i.toUInt32) ≠ slot N (x + j.toUInt32) := by
  intro h
  have := congrArg Fin.val h
  rw [slot_add_val hN, slot_add_val hN] at this
  have := Nat.sub_mod_eq_zero_of_mod_eq this.symm
  have hpos : 0 < x.toNat + j - (x.toNat + i) := by omega
  have := Nat.le_of_dvd hpos (Nat.dvd_of_mod_eq_zero this)
  omega

/-- A window depends on its start only through the start's slot: an index
kept modulo `N` reads the same window as a free-running counter. -/
theorem window_congr (buf : Fin N → α) {x y : UInt32} (hxy : x.toNat % N = y.toNat % N) (k : Nat) :
    window buf x k = window buf y k := by
  induction k with
  | zero => rfl
  | succ k ih =>
    rw [window_succ, window_succ, ih]
    have hslot : slot N (x + k.toUInt32) = slot N (y + k.toUInt32) := by
      apply Fin.ext
      rw [slot_add_val hN, slot_add_val hN, Nat.add_mod, hxy, ← Nat.add_mod]
    rw [hslot]

/-- A write at entry `j`, past the window's end and less than a ring away, leaves
the window alone. -/
theorem window_update_of_le (buf : Fin N → α) (x : UInt32) (v : α) {k j : Nat}
    (hkj : k ≤ j) (hj : j < N) :
    window (Function.update buf (slot N (x + j.toUInt32)) v) x k = window buf x k := by
  induction k with
  | zero => rfl
  | succ k ih =>
    rw [window_succ, window_succ, ih (by omega),
      Function.update_of_ne (slot_add_ne hN x (by omega) (by omega))]

/-- A write at the window's end extends it. -/
theorem window_push (buf : Fin N → α) (x : UInt32) (v : α) {k : Nat} (hk : k < N) :
    window (Function.update buf (slot N (x + k.toUInt32)) v) x (k + 1) = window buf x k ++ [v] := by
  rw [window_succ, window_update_of_le hN buf x v (Nat.le_refl k) hk, Function.update_self]

end Divides

/-- Moving the window's start forward drops its first entry. -/
theorem window_succ_left (buf : Fin N → α) (x : UInt32) (k : Nat) :
    window buf x (k + 1) = buf (slot N x) :: window buf (x + 1) k := by
  rw [Nat.add_comm, window_add]
  simp [window_succ]

end RingBuf
