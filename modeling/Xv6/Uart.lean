import Xv6.Library.Ring
import Mathlib

/-!
# The UART's transmit ring (`kernel/uart.c`)

`write()` to the console hands bytes to `uartputc`, which stores them in the
ring `uart_tx_buf` at `uart_tx_w`; `uartstart` moves them to the device's
transmit register `THR` from `uart_tx_r` on, while the device reports
`LSR_TX_IDLE`. Both indices are `int`s the code keeps below
`UART_TX_BUF_SIZE`, so they are `Fin UART_TX_BUF_SIZE` here, and one slot is
given up to tell a full ring from an empty one.

- `uartstart` takes the device's answer at each poll as an argument `idle`:
  the device may be busy or idle at any poll.
- `uartputc` spins once the kernel has panicked, sleeps on `&uart_tx_r`
  while the ring is full (it is woken and tests again, which is a new call
  here), and otherwise stores the byte and runs `uartstart`.
- `Step` interleaves calls of `uartputc` that return with runs of
  `uartstart` from `uartintr`, under `uart_tx_lock`; it keeps the bytes
  passed to the calls that returned, in order. The receive half of
  `uartintr` does not touch the ring and is left out.

The ring read from `uart_tx_r` is `pending` (the library's `window`). Over
every run, the bytes written to `THR` followed by `pending` are the bytes
passed to `uartputc`, so the device gets a prefix of them, in order, none lost
or doubled; and `uartputc` sleeps exactly when `pending` holds
`UART_TX_BUF_SIZE - 1` bytes (`uart_lossless_fifo`).
-/

namespace Xv6

namespace Uart

open RingBuf

/-- `#define UART_TX_BUF_SIZE 32` -/
def UART_TX_BUF_SIZE : Nat := 32

instance : NeZero UART_TX_BUF_SIZE := ⟨by decide⟩

theorem UART_TX_BUF_SIZE_dvd : UART_TX_BUF_SIZE ∣ 2 ^ 32 := ⟨2 ^ 27, by decide⟩

/-- The transmit half: `uart_tx_buf`, `uart_tx_w`, `uart_tx_r`, and the
bytes written to `THR` so far. -/
structure Tx where
  buf : Fin UART_TX_BUF_SIZE → UInt8
  w : Fin UART_TX_BUF_SIZE
  r : Fin UART_TX_BUF_SIZE
  thr : List UInt8

/-- The globals as the kernel starts with them. -/
def Tx.init : Tx := ⟨fun _ => 0, 0, 0, []⟩

/-! ## Index arithmetic -/

section Index

variable (a b : Fin UART_TX_BUF_SIZE)

theorem toNat_val_toUInt32 : a.val.toUInt32.toNat = a.val := by
  have := a.isLt
  rw [Nat.toUInt32_eq, UInt32.toNat_ofNat']
  simp only [UART_TX_BUF_SIZE] at this
  omega

/-- An index as the counter the library reads windows from. -/
theorem val_slot (n : Nat) :
    (slot UART_TX_BUF_SIZE (a.val.toUInt32 + n.toUInt32)).val = (a.val + n) % UART_TX_BUF_SIZE := by
  rw [slot_add_val UART_TX_BUF_SIZE_dvd, toNat_val_toUInt32]

/-- The distance from `b` to `a`, on the values. -/
theorem val_sub_eq : (a - b).val = (UART_TX_BUF_SIZE - b.val + a.val) % UART_TX_BUF_SIZE :=
  Fin.val_sub a b

theorem val_add_one : (a + 1).val = (a.val + 1) % UART_TX_BUF_SIZE := by
  rw [Fin.val_add, Fin.val_one']
  simp only [UART_TX_BUF_SIZE]

/-- The full test `(w + 1) % UART_TX_BUF_SIZE == r`: the ring holds
`UART_TX_BUF_SIZE - 1` bytes. -/
theorem add_one_eq_iff : a + 1 = b ↔ (a - b).val = UART_TX_BUF_SIZE - 1 := by
  have ha := a.isLt
  have hb := b.isLt
  rw [Fin.ext_iff, val_add_one, val_sub_eq]
  simp only [UART_TX_BUF_SIZE] at *
  omega

/-- Storing at `w` moves the far end on by one. -/
theorem val_add_one_sub (h : a + 1 ≠ b) : (a + 1 - b).val = (a - b).val + 1 := by
  have ha := a.isLt
  have hb := b.isLt
  have hne : (a.val + 1) % UART_TX_BUF_SIZE ≠ b.val := fun e => h (Fin.ext (by rw [val_add_one, e]))
  rw [val_sub_eq, val_sub_eq, val_add_one]
  simp only [UART_TX_BUF_SIZE] at *
  omega

/-- Sending from `r` moves the near end on by one. -/
theorem val_sub_add_one (h : a ≠ b) : (a - (b + 1)).val + 1 = (a - b).val := by
  have ha := a.isLt
  have hb := b.isLt
  have hne : a.val ≠ b.val := fun e => h (Fin.ext e)
  rw [val_sub_eq, val_sub_eq, val_add_one]
  simp only [UART_TX_BUF_SIZE] at *
  omega

end Index

/-- `uartstart`: while the ring is not empty and the device is idle at
poll `k`, write `uart_tx_buf[uart_tx_r]` to `THR` and move `uart_tx_r` on.
The `wakeup` of a sleeping `uartputc` is the next call of the model. -/
def uartstart (idle : Nat → Bool) (k : Nat) (s : Tx) : Tx :=
  if s.w = s.r then s
  else if idle k = false then s
  else uartstart idle (k + 1) { s with r := s.r + 1, thr := s.thr ++ [s.buf s.r] }
termination_by (s.w - s.r).val
decreasing_by
  have := val_sub_add_one s.w s.r ‹_›
  omega

/-- A busy device takes no byte: `uartstart` returns at once. -/
theorem uartstart_of_busy {idle : Nat → Bool} {k : Nat} (s : Tx) (h : idle k = false) :
    uartstart idle k s = s := by
  rw [uartstart]
  split_ifs <;> rfl

/-- What a call of `uartputc` comes to. -/
inductive Putc
  /-- `panicked`: the call loops for ever. -/
  | spin
  /-- the ring is full: the caller sleeps, and nothing changes. -/
  | sleep
  /-- the byte is stored and the call returns. -/
  | done (s : Tx)

/-- `uartputc(c)`, under `uart_tx_lock`. Its one caller, `consolewrite`,
passes a `char`, so `c` is the byte the ring stores. -/
def uartputc (panicked : Bool) (idle : Nat → Bool) (c : UInt8) (s : Tx) : Putc :=
  if panicked then .spin
  else if s.w + 1 = s.r then .sleep
  else .done (uartstart idle 0 { s with buf := Function.update s.buf s.w c, w := s.w + 1 })

/-- One call that changes the ring, beside the bytes passed so far to the
calls of `uartputc` that returned. -/
inductive Step : Tx × List UInt8 → Tx × List UInt8 → Prop
  | putc {s s' : Tx} (acc : List UInt8) (panicked : Bool) (idle : Nat → Bool) (c : UInt8)
      (h : uartputc panicked idle c s = .done s') : Step (s, acc) (s', acc ++ [c])
  | intr (s : Tx) (acc : List UInt8) (idle : Nat → Bool) : Step (s, acc) (uartstart idle 0 s, acc)

/-! ## The ring as a queue -/

/-- The bytes from `r` up to `w`, oldest first. -/
def queued (buf : Fin UART_TX_BUF_SIZE → UInt8) (w r : Fin UART_TX_BUF_SIZE) : List UInt8 :=
  window buf r.val.toUInt32 (w - r).val

/-- The bytes waiting in the ring. -/
def pending (s : Tx) : List UInt8 := queued s.buf s.w s.r

@[simp] theorem length_queued (buf : Fin UART_TX_BUF_SIZE → UInt8) (w r : Fin UART_TX_BUF_SIZE) :
    (queued buf w r).length = (w - r).val :=
  length_window _ _ _

/-- A store at `w` into a ring that is not full appends to the queue. -/
theorem queued_store (buf : Fin UART_TX_BUF_SIZE → UInt8) {w r : Fin UART_TX_BUF_SIZE}
    (h : w + 1 ≠ r) (c : UInt8) :
    queued (Function.update buf w c) (w + 1) r = queued buf w r ++ [c] := by
  -- `w` is the slot of the entry just past the queue
  have hw : slot UART_TX_BUF_SIZE (r.val.toUInt32 + (w - r).val.toUInt32) = w := by
    apply Fin.ext
    have := w.isLt
    rw [val_slot, val_sub_eq]
    simp only [UART_TX_BUF_SIZE] at *
    omega
  have hpush := window_push UART_TX_BUF_SIZE_dvd buf r.val.toUInt32 c (w - r).isLt
  rw [hw] at hpush
  rw [queued, queued, val_add_one_sub w r h, hpush]

/-- Sending from a ring that is not empty takes the front of the queue. -/
theorem queued_send (buf : Fin UART_TX_BUF_SIZE → UInt8) {w r : Fin UART_TX_BUF_SIZE} (h : w ≠ r) :
    queued buf w r = buf r :: queued buf w (r + 1) := by
  have hr : slot UART_TX_BUF_SIZE r.val.toUInt32 = r := by
    apply Fin.ext
    simpa [Nat.mod_eq_of_lt r.isLt] using val_slot r 0
  have hnext : (r.val.toUInt32 + 1).toNat % UART_TX_BUF_SIZE =
      (r + 1).val.toUInt32.toNat % UART_TX_BUF_SIZE := by
    have := val_slot r 1
    rw [toNat_val_toUInt32, val_add_one]
    simpa [slot] using this
  rw [queued, queued, ← val_sub_add_one w r h, window_succ_left, hr,
    window_congr UART_TX_BUF_SIZE_dvd _ hnext]

/-! ## What the calls do to the queue -/

/-- A run of `uartstart` moves bytes from the front of the queue to `THR`,
whatever the device answers: the bytes sent followed by the queue do not
change. -/
theorem uartstart_thr_pending (idle : Nat → Bool) (k : Nat) (s : Tx) :
    (uartstart idle k s).thr ++ pending (uartstart idle k s) = s.thr ++ pending s := by
  fun_induction uartstart idle k s with
  | case1 k s hempty => rfl
  | case2 k s hne hbusy => rfl
  | case3 k s hne hidle ih =>
    -- one byte moves from the front of the queue to the end of `THR`
    rw [ih]
    simp only [pending, queued_send s.buf hne, List.append_assoc, List.singleton_append]

/-- `uartputc` stores when the ring is not full, and sleeps when it is. -/
theorem uartputc_sleep_iff (panicked : Bool) (idle : Nat → Bool) (c : UInt8) (s : Tx) :
    uartputc panicked idle c s = .sleep ↔
      panicked = false ∧ (pending s).length = UART_TX_BUF_SIZE - 1 := by
  rw [pending, length_queued, ← add_one_eq_iff]
  cases panicked with
  | true => simp [uartputc]
  | false =>
    by_cases hfull : s.w + 1 = s.r <;> simp [uartputc, hfull]

/-- A call of `uartputc` that returns appends its byte to the queue, and
the `uartstart` it runs moves bytes on to `THR`. -/
theorem uartputc_thr_pending {panicked : Bool} {idle : Nat → Bool} {c : UInt8} {s s' : Tx}
    (h : uartputc panicked idle c s = .done s') : s'.thr ++ pending s' = s.thr ++ pending s ++ [c] := by
  unfold uartputc at h
  split at h
  · cases h
  · split at h
    · cases h
    · rename_i hroom
      cases h
      rw [uartstart_thr_pending]
      simp only [pending, queued_store s.buf hroom c, List.append_assoc]

/-! ## Every run -/

/-- The bytes sent followed by the queue are the bytes passed. -/
def Fifo (st : Tx × List UInt8) : Prop := st.1.thr ++ pending st.1 = st.2

theorem fifo_init : Fifo (Tx.init, []) := rfl

theorem Fifo.step {st st' : Tx × List UInt8} (h : Fifo st) (hs : Step st st') : Fifo st' := by
  cases hs with
  | putc acc panicked idle c hput =>
    unfold Fifo at h ⊢
    rw [uartputc_thr_pending hput, h]
  | intr s acc idle =>
    unfold Fifo at h ⊢
    rw [uartstart_thr_pending, h]

theorem Fifo.run {st st' : Tx × List UInt8} (h : Fifo st) (hrun : Relation.ReflTransGen Step st st') :
    Fifo st' := by
  induction hrun with
  | refl => exact h
  | tail _ hs ih => exact ih.step hs

/-- The transmit ring is a lossless FIFO. On every run from the kernel's
start, whatever the device answers at each poll: the ring holds
`(uart_tx_w - uart_tx_r) mod UART_TX_BUF_SIZE`, at most
`UART_TX_BUF_SIZE - 1`, bytes; the bytes written to `THR`, followed by the
bytes in the ring, are the bytes passed to `uartputc`, in order; and
`uartputc` sleeps exactly when the ring is full, unless the kernel has
panicked, when it spins. -/
theorem uart_lossless_fifo {s : Tx} {acc : List UInt8}
    (hrun : Relation.ReflTransGen Step (Tx.init, []) (s, acc)) :
    (pending s).length = (s.w - s.r).val ∧ (s.w - s.r).val ≤ UART_TX_BUF_SIZE - 1 ∧
      s.thr ++ pending s = acc ∧
      ∀ panicked idle c, uartputc panicked idle c s = .sleep ↔
        panicked = false ∧ (pending s).length = UART_TX_BUF_SIZE - 1 := by
  refine ⟨length_queued _ _ _, Nat.le_sub_one_of_lt (s.w - s.r).isLt, fifo_init.run hrun, ?_⟩
  intro panicked idle c
  exact uartputc_sleep_iff panicked idle c s

/-- Two bytes passed while the device is busy, then an interrupt with it
idle: both reach `THR`, in order. -/
theorem uart_lossless_fifo_two_bytes :
    ∃ s, Relation.ReflTransGen Step (Tx.init, []) (s, [97, 98]) ∧ s.thr = [97, 98] ∧
      ((pending s).length = (s.w - s.r).val ∧ (s.w - s.r).val ≤ UART_TX_BUF_SIZE - 1 ∧
        s.thr ++ pending s = [97, 98] ∧
        ∀ panicked idle c, uartputc panicked idle c s = .sleep ↔
          panicked = false ∧ (pending s).length = UART_TX_BUF_SIZE - 1) := by
  have h₁ : uartputc false (fun _ => false) 97 Tx.init =
      .done ⟨Function.update (fun _ => 0) 0 97, 1, 0, []⟩ := by
    rw [uartputc, if_neg (by decide), if_neg (by decide), uartstart_of_busy _ rfl]
    rfl
  have h₂ : uartputc false (fun _ => false) 98 ⟨Function.update (fun _ => 0) 0 97, 1, 0, []⟩ =
      .done ⟨Function.update (Function.update (fun _ => 0) 0 97) 1 98, 2, 0, []⟩ := by
    rw [uartputc, if_neg (by decide), if_neg (by decide), uartstart_of_busy _ rfl]
    rfl
  have hrun := ((Relation.ReflTransGen.refl.tail (Step.putc [] false _ 97 h₁)).tail
    (Step.putc [97] false _ 98 h₂)).tail (Step.intr _ [97, 98] fun _ => true)
  refine ⟨_, hrun, ?_, uart_lossless_fifo hrun⟩
  -- the interrupt sends both bytes and stops at the empty ring
  rw [uartstart, if_neg (by decide), if_neg (by decide), uartstart, if_neg (by decide),
    if_neg (by decide), uartstart, if_pos (by decide)]
  rfl

end Uart

end Xv6
