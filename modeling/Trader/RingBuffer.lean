import Mathlib.Data.List.DropRight

set_option autoImplicit false

/-!
# An overwriting ring buffer

A buffer of bounded capacity whose `pushBack` drops the oldest element
when there is no room. Its bound is a field, so a buffer over capacity
cannot be built. After any number of pushes it holds the last elements of
everything it has held, as many as fit (`foldl_pushBack_items`).
-/

/-- **A ring buffer**, oldest element first. -/
structure RingBuffer (α : Type) (capacity : ℕ) where
  /-- The elements it holds, oldest first. -/
  items : List α
  /-- It never holds more than it has room for. -/
  bound : items.length ≤ capacity

namespace RingBuffer

variable {α : Type} {capacity : ℕ}

/-- The buffer that holds nothing. -/
def empty : RingBuffer α capacity := ⟨[], Nat.zero_le _⟩

/-- Append an element, dropping the oldest when the buffer is full. -/
def pushBack (r : RingBuffer α capacity) (a : α) : RingBuffer α capacity :=
  if h : r.items.length < capacity then
    ⟨r.items ++ [a], by
      rw [List.length_append, List.length_singleton]
      exact h⟩
  else
    ⟨(r.items ++ [a]).tail, by
      rw [List.length_tail, List.length_append, List.length_singleton, Nat.add_sub_cancel]
      exact r.bound⟩

/-- The last `n` elements of a list that is short enough are all of it. -/
theorem rtake_of_length_le {n : ℕ} {l : List α} (h : l.length ≤ n) : l.rtake n = l := by
  rw [List.rtake, Nat.sub_eq_zero_of_le h, List.drop_zero]

/-- Dropping the oldest elements before appending more, or after, leaves the
same last ones. -/
theorem rtake_append {n : ℕ} (l l' : List α) :
    (l.rtake n ++ l').rtake n = (l ++ l').rtake n := by
  unfold List.rtake
  rcases Nat.le_total l.length n with h | h
  · rw [Nat.sub_eq_zero_of_le h, List.drop_zero]
  · have hlen : (l.drop (l.length - n)).length = n := by
      rw [List.length_drop]
      omega
    rw [List.length_append, List.length_append, hlen, Nat.add_sub_cancel_left,
      show l.length + l'.length - n = (l.length - n) + l'.length by omega,
      ← List.drop_drop, List.drop_append_of_le_length (Nat.sub_le _ _)]

/-- **A push keeps the last elements** of those held and the new one. -/
theorem pushBack_items (r : RingBuffer α capacity) (a : α) :
    (r.pushBack a).items = (r.items ++ [a]).rtake capacity := by
  have hlen : (r.items ++ [a]).length = r.items.length + 1 := by
    rw [List.length_append, List.length_singleton]
  unfold pushBack
  split
  · next h => rw [rtake_of_length_le (by omega)]
  · next h =>
    have hfull : r.items.length = capacity := Nat.le_antisymm r.bound (Nat.le_of_not_lt h)
    rw [List.rtake, hlen, hfull, Nat.add_sub_cancel_left, List.drop_one]

/-- **After any number of pushes**, a buffer holds the last elements of what
it held followed by what was pushed. -/
theorem foldl_pushBack_items (l : List α) (r : RingBuffer α capacity) :
    (l.foldl pushBack r).items = (r.items ++ l).rtake capacity := by
  induction l generalizing r with
  | nil => rw [List.foldl_nil, List.append_nil, rtake_of_length_le r.bound]
  | cons a l ih =>
    rw [List.foldl_cons, ih, pushBack_items, rtake_append, List.append_assoc]
    rfl

end RingBuffer
