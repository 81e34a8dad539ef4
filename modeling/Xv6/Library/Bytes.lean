import Mathlib

/-!
# Byte strings as memory: little-endian words and in-place overwrites

A block of a disk, a C struct laid over a buffer, a directory entry: all of
them are byte strings that code reads and writes at fixed offsets. This file
gives the two primitives such code is made of, over plain `List UInt8`:

- `getBytes bs off k` / `setBytes bs off xs`: read `k` bytes at `off`, or
  overwrite the bytes at `off` with `xs` (bytes past the end are read as `0`
  and never written, so a write never changes the length);
- `getLE` / `setLE`: the same for a `k`-byte little-endian unsigned word.

A record of fixed size at a fixed place in a concatenation of such records is
read and replaced as a chunk (`getBytes_flatMap_chunk`,
`setBytes_flatMap_chunk`), and consecutive writes are one write
(`setBytes_setBytes_append`).

The lemmas are the usual ones for a memory: a read after a write at the same
place returns what was written (`getLE_setLE_self`), a read of a disjoint
range is unaffected (`getLE_setLE_of_disjoint`), and a read depends only on
the bytes it covers (`getBytes_congr`).
-/

namespace LEBytes

/-! ## Little-endian words -/

/-- The value of a little-endian byte string. -/
def leValue : List UInt8 → Nat
  | [] => 0
  | b :: bs => b.toNat + 256 * leValue bs

/-- The `k` low bytes of `v`, least significant first. -/
def leBytes : Nat → Nat → List UInt8
  | 0, _ => []
  | k + 1, v => UInt8.ofNat (v % 256) :: leBytes k (v / 256)

@[simp] theorem length_leBytes : ∀ (k v : Nat), (leBytes k v).length = k
  | 0, _ => rfl
  | k + 1, v => by simp [leBytes, length_leBytes k]

theorem leValue_leBytes : ∀ (k v : Nat), leValue (leBytes k v) = v % 256 ^ k
  | 0, v => by simp [leBytes, leValue, Nat.mod_one]
  | k + 1, v => by
    have hbyte : (UInt8.ofNat (v % 256)).toNat = v % 256 := by simp
    simp only [leBytes, leValue, leValue_leBytes k (v / 256), hbyte]
    rw [Nat.pow_succ', Nat.mod_mul]

/-! ## Reading and overwriting byte ranges -/

/-- The `k` bytes at offset `off` (zero past the end). -/
def getBytes (bs : List UInt8) (off k : Nat) : List UInt8 :=
  (List.range k).map fun i => bs.getD (off + i) 0

/-- Overwrite the bytes at offset `off` with `xs`; bytes past the end of `bs`
are dropped, so the length never changes. (One pass over `bs`.) -/
def setBytes : List UInt8 → Nat → List UInt8 → List UInt8
  | [], _, _ => []
  | b :: bs, 0, [] => b :: bs
  | _ :: bs, 0, x :: xs => x :: setBytes bs 0 xs
  | b :: bs, off + 1, xs => b :: setBytes bs off xs

/-- The `k`-byte little-endian word at offset `off`. -/
def getLE (bs : List UInt8) (off k : Nat) : Nat :=
  leValue (getBytes bs off k)

/-- Store the `k` low bytes of `v` at offset `off`, little-endian. -/
def setLE (bs : List UInt8) (off k v : Nat) : List UInt8 :=
  setBytes bs off (leBytes k v)

@[simp] theorem length_getBytes (bs : List UInt8) (off k : Nat) :
    (getBytes bs off k).length = k := by
  simp [getBytes]

@[simp] theorem length_setBytes : ∀ (bs : List UInt8) (off : Nat) (xs : List UInt8),
    (setBytes bs off xs).length = bs.length
  | [], _, _ => rfl
  | _ :: _, 0, [] => rfl
  | _ :: bs, 0, _ :: xs => by simp [setBytes, length_setBytes bs 0 xs]
  | _ :: bs, off + 1, xs => by simp [setBytes, length_setBytes bs off xs]

@[simp] theorem length_setLE (bs : List UInt8) (off k v : Nat) :
    (setLE bs off k v).length = bs.length :=
  length_setBytes _ _ _

/-- A byte outside the overwritten range keeps its value. -/
theorem getD_setBytes_outside : ∀ (bs : List UInt8) (off : Nat) (xs : List UInt8) {i : Nat},
    i < off ∨ off + xs.length ≤ i → (setBytes bs off xs).getD i 0 = bs.getD i 0
  | [], _, _, _, _ => rfl
  | _ :: _, 0, [], _, _ => rfl
  | _ :: bs, 0, _ :: xs, i, h => by
    -- the new first byte is inside the range, so `i` is past it
    obtain ⟨j, rfl⟩ : ∃ j, i = j + 1 := ⟨i - 1, by simp at h; omega⟩
    simpa [setBytes] using getD_setBytes_outside bs 0 xs (i := j) (by simp at h; omega)
  | _ :: bs, off + 1, xs, i, h => by
    cases i with
    | zero => rfl
    | succ j => simpa [setBytes] using getD_setBytes_outside bs off xs (i := j) (by omega)

/-- A byte inside the overwritten range (and inside the string) holds the new
value. -/
theorem getD_setBytes_inside : ∀ (bs : List UInt8) (off : Nat) (xs : List UInt8) {i : Nat},
    off ≤ i → i < off + xs.length → i < bs.length →
      (setBytes bs off xs).getD i 0 = xs.getD (i - off) 0
  | [], _, _, _, _, _, h3 => by simp at h3
  | _ :: _, 0, [], _, _, h2, _ => by simp at h2
  | _ :: bs, 0, x :: xs, i, _, h2, h3 => by
    cases i with
    | zero => rfl
    | succ j =>
      have ih := getD_setBytes_inside bs 0 xs (i := j) (by omega) (by simp at h2; omega)
        (by simpa using h3)
      simpa [setBytes] using ih
  | _ :: bs, off + 1, xs, i, h1, h2, h3 => by
    obtain ⟨j, rfl⟩ : ∃ j, i = j + 1 := ⟨i - 1, by omega⟩
    have ih := getD_setBytes_inside bs off xs (i := j) (by omega) (by omega) (by simpa using h3)
    simpa [setBytes] using ih

/-- A read depends only on the bytes it covers. -/
theorem getBytes_congr {bs bs' : List UInt8} {off k : Nat}
    (h : ∀ i, off ≤ i → i < off + k → bs.getD i 0 = bs'.getD i 0) :
    getBytes bs off k = getBytes bs' off k := by
  unfold getBytes
  apply List.map_congr_left
  intro i hi
  rw [List.mem_range] at hi
  exact h (off + i) (by omega) (by omega)

/-- Reading inside a range that was read is reading the string itself. -/
theorem getBytes_getBytes {bs : List UInt8} {off n j k : Nat} (h : j + k ≤ n) :
    getBytes (getBytes bs off n) j k = getBytes bs (off + j) k := by
  unfold getBytes
  apply List.map_congr_left
  intro i hi
  rw [List.mem_range] at hi
  simp [List.getD_eq_getElem?_getD, show j + i < n by omega, Nat.add_assoc]

theorem getBytes_setBytes_self {bs : List UInt8} {off : Nat} {xs : List UInt8}
    (h : off + xs.length ≤ bs.length) : getBytes (setBytes bs off xs) off xs.length = xs := by
  apply List.ext_getElem (by simp)
  intro i h1 _
  simp only [getBytes, List.getElem_map, List.getElem_range]
  rw [getD_setBytes_inside _ _ _ (by omega) (by simp at h1; omega) (by simp at h1; omega)]
  simp [List.getD_eq_getElem?_getD, show i < xs.length by simpa using h1]

theorem getBytes_setBytes_of_disjoint {bs : List UInt8} {off off' k : Nat} {xs : List UInt8}
    (h : off' + k ≤ off ∨ off + xs.length ≤ off') :
    getBytes (setBytes bs off xs) off' k = getBytes bs off' k :=
  getBytes_congr fun _ h1 h2 => getD_setBytes_outside _ _ _ (by omega)

theorem getLE_setLE_self {bs : List UInt8} {off k v : Nat} (h : off + k ≤ bs.length) :
    getLE (setLE bs off k v) off k = v % 256 ^ k := by
  have hself := @getBytes_setBytes_self bs off (leBytes k v) (by simpa using h)
  rw [length_leBytes] at hself
  rw [getLE, setLE, hself, leValue_leBytes]

theorem getLE_setLE_of_disjoint {bs : List UInt8} {off off' k k' v : Nat}
    (h : off' + k' ≤ off ∨ off + k ≤ off') :
    getLE (setLE bs off k v) off' k' = getLE bs off' k' := by
  rw [getLE, setLE, getBytes_setBytes_of_disjoint (by simpa using h), getLE]

theorem getLE_getBytes {bs : List UInt8} {off n j k : Nat} (h : j + k ≤ n) :
    getLE (getBytes bs off n) j k = getLE bs (off + j) k := by
  rw [getLE, getBytes_getBytes h, getLE]

/-! ## Concatenations and fixed-size chunks

A block laid out as consecutive records of one size (inodes in an inode
block, entries in a directory block) is a concatenation of chunks; reading or
overwriting one record is reading or replacing one chunk. -/

theorem getD_append_left' {xs ys : List UInt8} {i : Nat} (h : i < xs.length) :
    (xs ++ ys).getD i 0 = xs.getD i 0 := by
  simp [List.getD_eq_getElem?_getD, List.getElem?_append_left h]

theorem getD_append_right' {xs ys : List UInt8} (i : Nat) :
    (xs ++ ys).getD (xs.length + i) 0 = ys.getD i 0 := by
  simp [List.getD_eq_getElem?_getD, List.getElem?_append_right]

theorem getBytes_append_left {xs ys : List UInt8} {off k : Nat} (h : off + k ≤ xs.length) :
    getBytes (xs ++ ys) off k = getBytes xs off k :=
  getBytes_congr fun _ _ h2 => getD_append_left' (by omega)

theorem getBytes_append_right {xs ys : List UInt8} (off k : Nat) :
    getBytes (xs ++ ys) (xs.length + off) k = getBytes ys off k := by
  unfold getBytes
  apply List.map_congr_left
  intro i _
  rw [Nat.add_assoc, getD_append_right']

theorem getBytes_self {xs : List UInt8} {k : Nat} (h : xs.length = k) : getBytes xs 0 k = xs := by
  apply List.ext_getElem (by simp [h])
  intro i h1 h2
  simp [getBytes, List.getD_eq_getElem?_getD, h2]

theorem getLE_leBytes (k v : Nat) : getLE (leBytes k v) 0 k = v % 256 ^ k := by
  rw [getLE, getBytes_self (length_leBytes k v), leValue_leBytes]

theorem getLE_append_left {xs ys : List UInt8} {off k : Nat} (h : off + k ≤ xs.length) :
    getLE (xs ++ ys) off k = getLE xs off k := by
  rw [getLE, getBytes_append_left h, getLE]

/-- A record's first field is the word it starts with ... -/
theorem getLE_leBytes_append (k v : Nat) (ys : List UInt8) :
    getLE (leBytes k v ++ ys) 0 k = v % 256 ^ k := by
  rw [getLE_append_left (by simp), getLE_leBytes]

/-- ... and a later field is read past it. -/
theorem getLE_leBytes_append_shift (k v : Nat) (ys : List UInt8) (off n : Nat) :
    getLE (leBytes k v ++ ys) (off + k) n = getLE ys off n := by
  have h := @getBytes_append_right (leBytes k v) ys off n
  rw [length_leBytes, Nat.add_comm] at h
  rw [getLE, h, getLE]

theorem length_flatMap_range {f : Nat → List UInt8} {c : Nat} (hf : ∀ j, (f j).length = c) :
    ∀ n, ((List.range n).flatMap f).length = c * n
  | 0 => rfl
  | n + 1 => by
    rw [List.range_succ, List.flatMap_append, List.flatMap_singleton, List.length_append,
      length_flatMap_range hf n, hf, Nat.mul_succ]

/-- A read of the `i`-th of `n` chunks of `c` bytes each is that chunk. -/
theorem getBytes_flatMap_chunk {f : Nat → List UInt8} {c : Nat} (hf : ∀ j, (f j).length = c) :
    ∀ {n i : Nat}, i < n → getBytes ((List.range n).flatMap f) (c * i) c = f i
  | 0, _, h => absurd h (Nat.not_lt_zero _)
  | n + 1, i, h => by
    have hlen := length_flatMap_range hf n
    rw [List.range_succ, List.flatMap_append, List.flatMap_singleton]
    rcases Nat.lt_succ_iff_lt_or_eq.mp h with hi | rfl
    · have hfit : c * i + c ≤ c * n := by
        rw [← Nat.mul_succ]; exact Nat.mul_le_mul_left c hi
      rw [getBytes_append_left (by rw [hlen]; exact hfit), getBytes_flatMap_chunk hf hi]
    · have hlast := @getBytes_append_right ((List.range i).flatMap f) (f i) 0 c
      rw [Nat.add_zero] at hlast
      rw [← hlen, hlast, getBytes_self (hf i)]

theorem setBytes_nil (xs : List UInt8) : setBytes xs 0 [] = xs := by
  cases xs <;> rfl

theorem setBytes_self : ∀ {xs zs : List UInt8}, zs.length = xs.length → setBytes xs 0 zs = zs
  | [], [], _ => rfl
  | _ :: _, _ :: _, h => by
    rw [setBytes, setBytes_self (by simpa using h)]

theorem setBytes_append_left : ∀ {xs ys zs : List UInt8} {off : Nat},
    off + zs.length ≤ xs.length → setBytes (xs ++ ys) off zs = setBytes xs off zs ++ ys
  | [], [], [], 0, _ => rfl
  | [], _ :: _, [], 0, _ => rfl
  | _ :: _, _, [], 0, _ => rfl
  | _ :: xs, ys, _ :: zs, 0, h => by
    simp only [List.cons_append, setBytes]
    rw [@setBytes_append_left xs ys _ _ (by simp at h; omega)]
  | _ :: xs, ys, zs, off + 1, h => by
    simp only [List.cons_append, setBytes]
    rw [@setBytes_append_left xs ys _ _ (by simp at h; omega)]
  | [], _, _ :: _, _, h => by simp at h
  | [], _, [], _ + 1, h => by simp at h

theorem setBytes_append_right : ∀ (xs ys zs : List UInt8) (off : Nat),
    setBytes (xs ++ ys) (xs.length + off) zs = xs ++ setBytes ys off zs
  | [], _, _, _ => by simp
  | _ :: xs, ys, zs, off => by
    rw [List.cons_append, List.length_cons, Nat.add_right_comm, setBytes,
      setBytes_append_right xs ys zs off, List.cons_append]

/-- Two writes, the second starting where the first ends, are one write. -/
theorem setBytes_setBytes_append : ∀ (bs : List UInt8) (off : Nat) (xs ys : List UInt8),
    setBytes (setBytes bs off xs) (off + xs.length) ys = setBytes bs off (xs ++ ys)
  | [], _, _, _ => rfl
  | _ :: _, 0, [], _ => rfl
  | _ :: bs, 0, x :: xs, ys => by
    have ih := setBytes_setBytes_append bs 0 xs ys
    rw [Nat.zero_add] at ih
    rw [setBytes, List.length_cons, Nat.zero_add, setBytes, ih, List.cons_append, setBytes]
  | _ :: bs, off + 1, xs, ys => by
    rw [setBytes, Nat.add_right_comm, setBytes, setBytes_setBytes_append bs off xs ys, setBytes]

/-- Overwriting the `i`-th of `n` chunks of `c` bytes replaces that chunk. -/
theorem setBytes_flatMap_chunk {f : Nat → List UInt8} {g : List UInt8} {c : Nat}
    (hf : ∀ j, (f j).length = c) (hg : g.length = c) :
    ∀ {n i : Nat}, i < n →
      setBytes ((List.range n).flatMap f) (c * i) g = (List.range n).flatMap (Function.update f i g)
  | 0, _, h => absurd h (Nat.not_lt_zero _)
  | n + 1, i, h => by
    have hlen := length_flatMap_range hf n
    rw [List.range_succ, List.flatMap_append, List.flatMap_singleton, List.flatMap_append,
      List.flatMap_singleton]
    rcases Nat.lt_succ_iff_lt_or_eq.mp h with hi | rfl
    · -- the chunk is in the first `n`; the last one is untouched
      have hfit : c * i + c ≤ c * n := by
        rw [← Nat.mul_succ]; exact Nat.mul_le_mul_left c hi
      rw [setBytes_append_left (by rw [hlen, hg]; exact hfit), setBytes_flatMap_chunk hf hg hi,
        Function.update_of_ne (Nat.ne_of_gt hi)]
    · -- the last chunk; the first `n` are untouched
      have hpre : (List.range i).flatMap (Function.update f i g) = (List.range i).flatMap f := by
        apply List.flatMap_congr
        intro j hj
        rw [Function.update_of_ne (Nat.ne_of_lt (List.mem_range.mp hj))]
      have hlast := setBytes_append_right ((List.range i).flatMap f) (f i) g 0
      rw [Nat.add_zero] at hlast
      rw [← hlen, hlast, setBytes_self (by rw [hg, hf]), hpre, Function.update_self]

end LEBytes
