import Xv6.Library.Memory

/-!
# `memmove` (`kernel/string.c`, `user/ulib.c`)

The kernel and the user library each have a `memmove`, with the same two copy
loops and different tests for choosing between them. The kernel copies
downward exactly when the source starts below the destination and runs into
it (`s < d && s + n > d`); the user library copies upward exactly when the
source starts above the destination (`src > dst`), so it also copies downward
when the two do not meet or coincide. Each loop is right for the overlaps its
test sends to it: the upward loop whenever the destination does not start
inside the source after its first byte (`copyUp_eq`), the downward loop
whenever the destination starts at or above the source (`copyDown_eq`). Both
functions therefore store the original source bytes at the destination and
change nothing else, for every overlap (`Kernel.memmove_eq`,
`Ulib.memmove_eq`).

Memory is a function from addresses to bytes (`Xv6.Library.Memory`).
Addresses are `Nat`: the bytes C may touch lie below `2^64`, so `s + n` and
`d + n` do not wrap.
-/

namespace Xv6

namespace Memmove

open Memory

/-- `while(n-- > 0) *d++ = *s++;` -/
def copyUp : (Nat → UInt8) → Nat → Nat → Nat → (Nat → UInt8)
  | m, _, _, 0 => m
  | m, d, s, n + 1 => copyUp (Function.update m d (m s)) (d + 1) (s + 1) n

/-- `while(n-- > 0) *--d = *--s;`, from the ends `d` and `s`. -/
def copyDown : (Nat → UInt8) → Nat → Nat → Nat → (Nat → UInt8)
  | m, _, _, 0 => m
  | m, d, s, n + 1 => copyDown (Function.update m (d - 1) (m (s - 1))) (d - 1) (s - 1) n

/-- The upward loop reads each source byte before it is overwritten unless the
destination starts inside the source after its first byte. -/
theorem copyUp_eq : ∀ (m : Nat → UInt8) (d s n : Nat), d ≤ s ∨ s + n ≤ d →
    copyUp m d s n = write m d (read m s n)
  | m, d, s, 0, _ => by
    rw [copyUp, read_zero, write_nil]
  | m, d, s, n + 1, h => by
    rw [copyUp, copyUp_eq _ (d + 1) (s + 1) n (by omega), read_update_of_not_mem (by omega),
      ← write_cons, ← read_succ]

/-- The downward loop, started at the ends of the two strings, reads each
source byte before it is overwritten when the destination starts at or above
the source. -/
theorem copyDown_eq : ∀ (m : Nat → UInt8) (dst src n : Nat), src ≤ dst →
    copyDown m (dst + n) (src + n) n = write m dst (read m src n)
  | m, dst, src, 0, _ => by
    rw [copyDown, read_zero, write_nil]
  | m, dst, src, n + 1, h => by
    rw [copyDown, show dst + (n + 1) - 1 = dst + n by omega, show src + (n + 1) - 1 = src + n by omega,
      copyDown_eq _ dst src n h, read_update_of_not_mem (by omega),
      show dst + n = dst + (read m src n).length by rw [length_read], write_concat, ← read_succ_right]

/-- Storing `n` bytes read from `src` at `dst`: the destination then holds
them, and every other address its old byte. -/
theorem write_read_copies (m : Nat → UInt8) (dst src n : Nat) :
    read (write m dst (read m src n)) dst n = read m src n ∧
      ∀ x, x < dst ∨ dst + n ≤ x → write m dst (read m src n) x = m x := by
  have hlen : (read m src n).length = n := length_read
  constructor
  · -- the destination holds the bytes read from the source
    have h : read (write m dst (read m src n)) dst (read m src n).length = read m src n :=
      read_write_self
    rwa [hlen] at h
  · intro x hx
    exact write_of_not_mem (by rw [hlen]; exact hx)

namespace Kernel

/-- `memmove` of `kernel/string.c`. -/
def memmove (m : Nat → UInt8) (dst src : Nat) (n : UInt32) : Nat → UInt8 :=
  if src < dst ∧ src + n.toNat > dst then copyDown m (dst + n.toNat) (src + n.toNat) n.toNat
  else copyUp m dst src n.toNat

theorem memmove_eq (m : Nat → UInt8) (dst src : Nat) (n : UInt32) :
    memmove m dst src n = write m dst (read m src n.toNat) := by
  unfold memmove
  split
  · -- the source runs into the destination from below: copied downward
    rename_i h
    exact copyDown_eq m dst src n.toNat (Nat.le_of_lt h.1)
  · rename_i h
    exact copyUp_eq m dst src n.toNat (by omega)

end Kernel

namespace Ulib

/-- `memmove` of `user/ulib.c`: `n` is an `int`, and `dst += n; src += n`
moves the pointers back when `n` is negative, where the loop copies nothing. -/
def memmove (m : Nat → UInt8) (dst src : Nat) (n : Int32) : Nat → UInt8 :=
  if src > dst then copyUp m dst src n.toInt.toNat
  else copyDown m (dst + n.toInt).toNat (src + n.toInt).toNat n.toInt.toNat

theorem memmove_eq (m : Nat → UInt8) (dst src : Nat) (n : Int32) :
    memmove m dst src n = write m dst (read m src n.toInt.toNat) := by
  unfold memmove
  split
  · rename_i h
    exact copyUp_eq m dst src _ (.inl (Nat.le_of_lt h))
  · -- the source starts at or below the destination: copied downward
    rename_i h
    rcases Int.le_total 0 n.toInt with hn | hn
    · have hd : (dst + n.toInt).toNat = dst + n.toInt.toNat := by omega
      have hs : (src + n.toInt).toNat = src + n.toInt.toNat := by omega
      rw [hd, hs]
      exact copyDown_eq m dst src _ (Nat.le_of_not_lt h)
    · -- `n ≤ 0`: nothing is copied
      rw [Int.toNat_of_nonpos hn, copyDown, read_zero, write_nil]

end Ulib

/-- Both `memmove`s copy for every overlap: afterwards the `n` bytes at `dst`
are the `n` bytes that were at `src`, and no byte outside them has changed. The
user library's copies nothing when `n ≤ 0`. -/
theorem memmove_copies_any_overlap (m : Nat → UInt8) (dst src : Nat) :
    (∀ n : UInt32, read (Kernel.memmove m dst src n) dst n.toNat = read m src n.toNat ∧
      ∀ x, x < dst ∨ dst + n.toNat ≤ x → Kernel.memmove m dst src n x = m x) ∧
    ∀ n : Int32, read (Ulib.memmove m dst src n) dst n.toInt.toNat = read m src n.toInt.toNat ∧
      ∀ x, x < dst ∨ dst + n.toInt.toNat ≤ x → Ulib.memmove m dst src n x = m x := by
  constructor
  · intro n
    rw [Kernel.memmove_eq]
    exact write_read_copies m dst src n.toNat
  · intro n
    rw [Ulib.memmove_eq]
    exact write_read_copies m dst src n.toInt.toNat

end Memmove

end Xv6
