import Eidnara.Lib.Checked

/-!
# Slices of lists

The part of a list from one index up to another, and how slices join.
-/

namespace Eidnara.Lib

open List

variable {α : Type*}

def slice (xs : List α) (start stop : Nat) : List α := (xs.take stop).drop start

theorem slice_self (xs : List α) (index : Nat) : slice xs index index = [] := by
  simp [slice]

variable {xs : List α} {start stop : Nat}

theorem slice_append_slice {middle : Nat} (hstart : start ≤ middle) (hstop : middle ≤ stop) :
    slice xs start middle ++ slice xs middle stop = slice xs start stop := by
  have htake : xs.take middle = (xs.take stop).take middle := by
    rw [take_take, Nat.min_eq_left hstop]
  unfold slice
  rw [htake]
  generalize xs.take stop = ys
  rw [drop_take]
  have hsplit : ys.drop middle = (ys.drop start).drop (middle - start) := by
    rw [drop_drop, Nat.add_sub_cancel' hstart]
  rw [hsplit, take_append_drop]

theorem slice_append_drop (xs : List α) {middle : Nat} (hstart : start ≤ middle) :
    slice xs start middle ++ xs.drop middle = xs.drop start := by
  rcases Nat.le_total middle xs.length with hlength | hlength
  · have hall : slice xs start middle ++ slice xs middle xs.length = slice xs start xs.length :=
      slice_append_slice hstart hlength
    simpa [slice] using hall
  · simp [slice, take_of_length_le hlength, drop_eq_nil_of_le hlength]

theorem slice_middle (left middle right : List α) :
    slice (left ++ middle ++ right) left.length (left.length + middle.length) = middle := by
  rw [slice, ← length_append, take_left, drop_left]

theorem slice_one {index : Nat} (h : index < xs.length) :
    slice xs index (index + 1) = [xs[index]] := by
  rw [slice, take_succ_eq_append_getElem h]
  have hlength : (xs.take index).length = index := by
    rw [length_take]
    omega
  conv_lhs => arg 1; rw [← hlength]
  rw [drop_left]

theorem length_slice (h : stop ≤ xs.length) : (slice xs start stop).length = stop - start := by
  rw [slice, length_drop, length_take, Nat.min_eq_left h]

def checkedSlice (xs : List α) (start stop : Nat) : Option (List α) :=
  if start ≤ stop ∧ stop ≤ xs.length then some (slice xs start stop) else none

theorem checkedSlice_eq_some (hstart : start ≤ stop) (hstop : stop ≤ xs.length) :
    checkedSlice xs start stop = some (slice xs start stop) :=
  if_pos ⟨hstart, hstop⟩

/-- The list `ys` stands in `xs` at `offset`. -/
def OccursAt (xs : List α) (offset : Nat) (ys : List α) : Prop :=
  ∃ left right, xs = left ++ ys ++ right ∧ left.length = offset

variable {ys : List α} {offset : Nat}

theorem OccursAt.slice_eq (h : OccursAt xs offset ys) :
    slice xs offset (offset + ys.length) = ys := by
  obtain ⟨left, right, rfl, rfl⟩ := h
  exact slice_middle left ys right

theorem OccursAt.end_le (h : OccursAt xs offset ys) : offset + ys.length ≤ xs.length := by
  obtain ⟨left, right, rfl, rfl⟩ := h
  simp only [length_append]
  omega

theorem OccursAt.left {zs : List α} (h : OccursAt xs offset (ys ++ zs)) :
    OccursAt xs offset ys := by
  obtain ⟨left, right, rfl, rfl⟩ := h
  exact ⟨left, zs ++ right, by simp, rfl⟩

theorem OccursAt.right {zs : List α} (h : OccursAt xs offset (ys ++ zs)) :
    OccursAt xs (offset + ys.length) zs := by
  obtain ⟨left, right, rfl, rfl⟩ := h
  exact ⟨left ++ ys, right, by simp, by simp⟩

theorem occursAt_of_slice_eq (hend : offset + ys.length ≤ xs.length)
    (h : slice xs offset (offset + ys.length) = ys) : OccursAt xs offset ys := by
  refine ⟨xs.take offset, xs.drop (offset + ys.length), ?_, by rw [length_take]; omega⟩
  have hjoin := slice_append_drop xs (Nat.le_add_right offset ys.length)
  rw [h] at hjoin
  rw [append_assoc, hjoin, take_append_drop]

theorem OccursAt.append (h : OccursAt xs offset ys) (zs : List α) :
    OccursAt (xs ++ zs) offset ys := by
  obtain ⟨left, right, rfl, rfl⟩ := h
  exact ⟨left, right ++ zs, by simp, rfl⟩

theorem OccursAt.extend (h : OccursAt xs offset ys) (hend : offset + ys.length = xs.length)
    (zs : List α) : OccursAt (xs ++ zs) offset (ys ++ zs) := by
  obtain ⟨left, right, rfl, rfl⟩ := h
  have hright : right = [] := by
    simp only [length_append] at hend
    exact eq_nil_of_length_eq_zero (by omega)
  exact ⟨left, [], by simp [hright], rfl⟩

theorem occursAt_self (xs : List α) : OccursAt xs 0 xs :=
  ⟨[], [], by simp, rfl⟩

/-! ## Chunks of one length -/

def chunks (n : Nat) : Nat → List α → List (List α)
  | 0, _ => []
  | count + 1, xs => xs.take n :: chunks n count (xs.drop n)

/-- `slice::chunks_exact`, which leaves out what is no whole chunk. -/
def chunksExact (n : Nat) (xs : List α) : List (List α) := chunks n (xs.length / n) xs

variable {n : Nat} {parts : List (List α)}

theorem length_flatten_parts (hparts : ∀ part ∈ parts, part.length = n) :
    parts.flatten.length = parts.length * n := by
  induction parts with
  | nil => simp
  | cons part parts ih =>
    rw [forall_mem_cons] at hparts
    rw [flatten_cons, length_append, hparts.1, ih hparts.2, length_cons,
      Nat.succ_mul, Nat.add_comm]

theorem chunksExact_flatten (hn : 0 < n) (hparts : ∀ part ∈ parts, part.length = n) :
    chunksExact n parts.flatten = parts := by
  rw [chunksExact, length_flatten_parts hparts, Nat.mul_div_cancel _ hn]
  induction parts with
  | nil => rfl
  | cons part parts ih =>
    rw [forall_mem_cons] at hparts
    rw [length_cons, chunks, flatten_cons, take_left' hparts.1,
      drop_left' hparts.1, ih hparts.2]

theorem flatten_chunksExact (hn : 0 < n) (h : n ∣ xs.length) :
    (chunksExact n xs).flatten = xs := by
  obtain ⟨count, hcount⟩ := h
  rw [chunksExact, hcount, Nat.mul_div_cancel_left _ hn]
  induction count generalizing xs with
  | zero => rw [eq_nil_of_length_eq_zero hcount, chunks, flatten_nil]
  | succ count ih =>
    rw [chunks, flatten_cons, ih (by rw [length_drop, hcount, Nat.mul_succ]; omega),
      take_append_drop]

theorem length_of_mem_chunksExact {part : List α} (h : part ∈ chunksExact n xs) :
    part.length = n := by
  have hbound := Nat.div_mul_le_self xs.length n
  rw [chunksExact] at h
  generalize xs.length / n = count at h hbound
  induction count generalizing xs with
  | zero => cases h
  | succ count ih =>
    rw [Nat.succ_mul] at hbound
    rcases mem_cons.mp h with rfl | hlater
    · rw [length_take]
      omega
    · exact ih hlater (by rw [length_drop]; omega)

theorem slice_flatten (hparts : ∀ part ∈ parts, part.length = n) {i : Nat} {part : List α}
    (h : parts[i]? = some part) : slice parts.flatten (i * n) (i * n + n) = part := by
  obtain ⟨hlt, rfl⟩ := List.getElem?_eq_some_iff.mp h
  have hsplit : parts.flatten =
      (parts.take i).flatten ++ parts[i] ++ (parts.drop (i + 1)).flatten := by
    rw [append_assoc, ← flatten_cons, ← flatten_append,
      ← drop_eq_getElem_cons hlt, take_append_drop]
  have hstart : (parts.take i).flatten.length = i * n := by
    rw [length_flatten_parts fun part hpart => hparts part (mem_of_mem_take hpart),
      length_take, Nat.min_eq_left (Nat.le_of_lt hlt)]
  have hmiddle := slice_middle (parts.take i).flatten parts[i] (parts.drop (i + 1)).flatten
  rwa [← hsplit, hstart, hparts _ (getElem_mem hlt)] at hmiddle

end Eidnara.Lib
