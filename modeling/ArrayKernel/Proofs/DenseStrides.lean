import ArrayKernel.Proofs.Built
import ArrayKernel.Proofs.Offset
import Mathlib.Data.Set.Function
import Mathlib.Order.Interval.Set.Defs

/-!
# Arrays without gaps

The strides of an array without gaps are those of row-major order: a step along an axis
passes all elements of the axes behind it.  With them the offset of an element is its
number, so the offsets run through all numbers up to the element count, each once, and
grow with the index, the last axis fastest.

The strides are the products of the last extents.  The first extent is in none of them, so
an array can have strides that fit in 64 bits although its elements can NOT be counted.
-/

namespace ArrayKernel

namespace Shape

variable {s : Shape}

/-- The strides of row-major order. -/
def rowMajorStrides : Shape → List Nat
  | [] => []
  | _ :: extents => volume extents :: rowMajorStrides extents

@[simp] theorem length_rowMajorStrides (s : Shape) : s.rowMajorStrides.length = s.length := by
  induction s with
  | nil => rfl
  | cons extent extents ih => exact congrArg (· + 1) ih

theorem weightedSum_rowMajorStrides (s : Shape) (index : List Nat) :
    weightedSum index s.rowMajorStrides = s.rowMajor index := by
  induction s generalizing index with
  | nil => cases index <;> rfl
  | cons extent extents ih =>
      cases index with
      | nil => rfl
      | cons i index => rw [rowMajorStrides, weightedSum, rowMajor, ih]

theorem mul?_eq_some_iff {a b n : Nat} : mul? a b = some n ↔ n = a * b ∧ a * b < wordSize := by
  unfold mul?
  split
  · next hFits => simp [hFits, eq_comm]
  · next hNot => simp [hNot]

theorem forall_volume_drop_lt_iff {extent : Nat} {extents : Shape} :
    (∀ k, volume ((extent :: extents).drop k) < wordSize) ↔
      volume (extent :: extents) < wordSize ∧ ∀ k, volume (extents.drop k) < wordSize := by
  constructor
  · intro h
    exact ⟨h 0, fun k => h (k + 1)⟩
  · rintro ⟨hWhole, hRest⟩ k
    cases k with
    | zero => exact hWhole
    | succ k => exact hRest k

/-- An array without gaps has the strides of row-major order, if the products of its last
extents fit in 64 bits. -/
theorem denseStrides?_eq_some_iff {strides : List Nat} :
    s.denseStrides? = some strides ↔
      strides = s.rowMajorStrides ∧ ∀ k, volume (s.tail.drop k) < wordSize := by
  have hOne : 1 < wordSize := by decide
  induction s generalizing strides with
  | nil => simp [denseStrides?, rowMajorStrides, volume, hOne, eq_comm]
  | cons first rest ih =>
      cases rest with
      | nil => simp [denseStrides?, rowMajorStrides, volume, hOne, eq_comm]
      | cons extent extents =>
          rw [List.tail_cons, forall_volume_drop_lt_iff, denseStrides?, Option.bind_eq_bind,
            Option.bind_eq_some_iff]
          simp only [ih, List.tail_cons]
          constructor
          · rintro ⟨inner, ⟨rfl, hRest⟩, hStride⟩
            obtain ⟨stride, hMul, hEq⟩ := Option.bind_eq_some_iff.mp hStride
            cases hEq
            obtain ⟨rfl, hFits⟩ := mul?_eq_some_iff.mp hMul
            have hVolume : volume extents * extent = volume (extent :: extents) :=
              Nat.mul_comm _ _
            refine ⟨congrArg (· :: _) hVolume, ?_, hRest⟩
            rw [← hVolume]
            exact hFits
          · rintro ⟨rfl, hFits, hRest⟩
            rw [volume, Nat.mul_comm] at hFits
            have hMul : mul? (volume extents) extent = some (volume (extent :: extents)) :=
              mul?_eq_some_iff.mpr ⟨Nat.mul_comm _ _, hFits⟩
            exact ⟨_, ⟨rfl, hRest⟩, Option.bind_eq_some_iff.mpr ⟨_, hMul, rfl⟩⟩

/-- Without a zero, the last extents have no more elements than the whole shape. -/
theorem volume_drop_le (h : 0 ∉ s) (k : Nat) : volume (s.drop k) ≤ volume s := by
  induction s generalizing k with
  | nil => simp
  | cons extent extents ih =>
      rw [List.mem_cons, not_or] at h
      cases k with
      | zero => exact Nat.le_refl _
      | succ k =>
          have hExtent : 0 < extent := Nat.pos_of_ne_zero (Ne.symm h.1)
          exact Nat.le_trans (ih h.2 k) (Nat.le_mul_of_pos_left _ hExtent)

/-- Without a zero, all strides fit in 64 bits if the largest of them does. -/
theorem denseStrides_eq_ok_iff_of_positive {strides : List Nat} (h : 0 ∉ s) :
    s.denseStrides = .ok strides ↔ strides = s.rowMajorStrides ∧ volume s.tail < wordSize := by
  rw [denseStrides_eq_ok_iff, denseStrides?_eq_some_iff]
  refine and_congr_right fun _ => ⟨fun hAll => hAll 0, fun hLargest k => ?_⟩
  have hTail : 0 ∉ s.tail := fun hMem => h (List.mem_of_mem_tail hMem)
  exact Nat.lt_of_le_of_lt (volume_drop_le hTail k) hLargest

/-! ## Numbers of elements -/

/-- Row-major order numbers the elements from zero up to their count, each once. -/
theorem bijOn_rowMajor (s : Shape) :
    Set.BijOn s.rowMajor {index | s.InBounds index} (Set.Iio s.volume) := by
  have hInv : Set.InvOn s.ofRowMajor s.rowMajor {index | s.InBounds index} (Set.Iio s.volume) :=
    ⟨fun _ hIndex => ofRowMajor_rowMajor hIndex, fun _ hn => rowMajor_ofRowMajor hn⟩
  exact hInv.bijOn (fun _ hIndex => rowMajor_lt_volume hIndex) fun _ hn => ofRowMajor_inBounds hn

/-- The elements are numbered in the order of their indices, the first axis before the
others. -/
theorem rowMajor_lt_of_lex {i j : List Nat} (hi : s.InBounds i) (hj : s.InBounds j)
    (h : List.Lex (· < ·) i j) : s.rowMajor i < s.rowMajor j := by
  induction h generalizing s with
  | nil =>
      cases s with
      | nil => exact hj.elim
      | cons extent extents => exact hi.elim
  | @rel a i b j hLess =>
      cases s with
      | nil => exact hi.elim
      | cons extent extents =>
          -- the rest of the index does not reach the next step along this axis
          calc
            rowMajor (extent :: extents) (a :: i) < (a + 1) * volume extents :=
              rowMajor_cons_lt (rowMajor_lt_volume hi.2)
            _ ≤ b * volume extents := Nat.mul_le_mul_right _ hLess
            _ ≤ b * volume extents + rowMajor extents j := Nat.le_add_right _ _
  | cons hLex ih =>
      cases s with
      | nil => exact hi.elim
      | cons extent extents => exact Nat.add_lt_add_left (ih hi.2 hj.2) _

end Shape

/-- **Dense strides enumerate storage.**  An array without empty axes has dense strides
exactly where the extents behind the first axis have a product below 2^64.  There is then one
stride for each axis, every number below the element count is the offset of exactly one
element, and offsets grow with the index in lexicographic order. -/
theorem dense_strides_enumerate {s : Shape} (hPositive : 0 ∉ s) :
    ((∃ strides, s.denseStrides = .ok strides) ↔ Shape.volume s.tail < Shape.wordSize) ∧
    ∀ strides, s.denseStrides = .ok strides →
      strides.length = s.length ∧
      Set.BijOn (fun index => weightedSum index strides) {index | s.InBounds index}
        (Set.Iio s.volume) ∧
      ∀ i j, s.InBounds i → s.InBounds j → List.Lex (· < ·) i j →
        weightedSum i strides < weightedSum j strides := by
  constructor
  · simp only [Shape.denseStrides_eq_ok_iff_of_positive hPositive, exists_eq_left]
  · intro strides hStrides
    obtain ⟨rfl, -⟩ := (Shape.denseStrides_eq_ok_iff_of_positive hPositive).mp hStrides
    simp only [Shape.weightedSum_rowMajorStrides]
    exact ⟨s.length_rowMajorStrides, s.bijOn_rowMajor, fun i j => Shape.rowMajor_lt_of_lex⟩

/-- Four rows of 2^63 elements have dense strides, although there are more than 2^64 elements:
the last element of the first row comes before the first element of the second.  With an axis
of extent one in front the rows have none. -/
theorem dense_strides_enumerate_longRows :
    Set.BijOn (fun index => weightedSum index [0x8000000000000000, 1])
      {index | Shape.InBounds [4, 0x8000000000000000] index} (Set.Iio 0x20000000000000000) ∧
    weightedSum [0, 0x7fffffffffffffff] [0x8000000000000000, 1] <
      weightedSum [1, 0] [0x8000000000000000, 1] ∧
    ¬ ∃ strides, Shape.denseStrides [1, 4, 0x8000000000000000] = .ok strides := by
  obtain ⟨-, hRows⟩ := dense_strides_enumerate (s := [4, 0x8000000000000000]) (by decide)
  obtain ⟨hFit, -⟩ := dense_strides_enumerate (s := [1, 4, 0x8000000000000000]) (by decide)
  obtain ⟨-, hBij, hGrows⟩ := hRows [0x8000000000000000, 1] rfl
  exact ⟨hBij, hGrows _ _ (by decide) (by decide) (.rel (by decide)), fun h =>
    absurd (hFit.mp h) (by decide)⟩

end ArrayKernel
