import Mathlib

/-!
# `NUL`-terminated strings in a byte buffer

The string at index `i` of a buffer is its bytes from `i` up to the first
`NUL`. Code that cuts a buffer into strings writes `NUL`s into it at a list
of indices (`setAll`); `getElem?_setAll` says what each byte is then, and
`cstr_eq` reads a string back from the bytes around it.
-/

namespace CString

variable {α : Type}

/-- The `NUL`-terminated string at index `i` of `buf`. -/
def cstr (buf : List UInt8) (i : Nat) : List UInt8 := (buf.drop i).takeWhile (· != 0)

/-- `x` written at each of the indices `ps` in turn; an index past the end
writes nothing. -/
def setAll (x : α) (ps : List Nat) (l : List α) : List α := ps.foldl (fun l p => l.set p x) l

@[simp] theorem setAll_nil (x : α) (l : List α) : setAll x [] l = l := rfl

theorem setAll_append (x : α) (ps ps' : List Nat) (l : List α) :
    setAll x (ps ++ ps') l = setAll x ps' (setAll x ps l) :=
  List.foldl_append

/-- A byte after the writes: `x` where an index was written, the old one
elsewhere. -/
theorem getElem?_setAll (x : α) (ps : List Nat) (l : List α) (i : Nat) :
    (setAll x ps l)[i]? = if i ∈ ps then l[i]?.map (fun _ => x) else l[i]? := by
  induction ps generalizing l with
  | nil => simp
  | cons p ps ih =>
    show (setAll x ps (l.set p x))[i]? = _
    rw [ih, List.getElem?_set']
    by_cases hp : p = i
    · subst hp
      by_cases hi : p ∈ ps
      · simp [hi, Option.map_map, Function.comp_def]
      · simp [hi]
        rfl
    · simp [hp, Ne.symm hp]

/-- The string at `i` is `w` when the buffer holds `w` there, followed by a
`NUL`. -/
theorem cstr_eq {buf : List UInt8} {w : List UInt8} (hw : 0 ∉ w) :
    ∀ {i : Nat}, (∀ j (hj : j < w.length), buf[i + j]? = some w[j]) → buf[i + w.length]? = some 0 →
      cstr buf i = w := by
  induction w with
  | nil =>
    intro i _ hend
    simp only [List.length_nil, Nat.add_zero] at hend
    obtain ⟨hi, h0⟩ := List.getElem?_eq_some_iff.mp hend
    rw [cstr, List.drop_eq_getElem_cons hi]
    simp [h0]
  | cons a w ih =>
    intro i hbytes hend
    have ha := hbytes 0 (by simp)
    simp only [Nat.add_zero, List.getElem_cons_zero] at ha
    obtain ⟨hi, hai⟩ := List.getElem?_eq_some_iff.mp ha
    have ha0 : a ≠ 0 := fun h => hw (h ▸ List.mem_cons_self)
    have hrest : cstr buf (i + 1) = w := by
      refine ih (fun h => hw (List.mem_cons_of_mem a h)) (fun j hj => ?_) ?_
      · have := hbytes (j + 1) (by simpa using hj)
        rwa [show i + (j + 1) = i + 1 + j by omega] at this
      · rw [show i + 1 + w.length = i + (a :: w).length by simp; omega]
        exact hend
    rw [cstr, List.drop_eq_getElem_cons hi, List.takeWhile_cons_of_pos (by simpa [hai] using ha0), hai]
    exact congrArg (a :: ·) hrest

end CString
