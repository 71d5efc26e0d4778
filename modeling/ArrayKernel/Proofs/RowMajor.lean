import ArrayKernel.Shape

/-!
# Row-major order

The elements of an array are numbered row by row: the last axis varies fastest.
`rowMajor` numbers the indices inside a shape, `ofRowMajor` gives the index with a
number, and the two are inverse to each other.
-/

namespace ArrayKernel
namespace Shape

/-- The number of elements, without a bound. -/
def volume : Shape → Nat
  | [] => 1
  | extent :: extents => extent * volume extents

/-- An index has one component for each axis, which is less than the extent. -/
def InBounds : Shape → List Nat → Prop
  | [], [] => True
  | extent :: extents, i :: index => i < extent ∧ InBounds extents index
  | _, _ => False

instance decidableInBounds : (s : Shape) → (index : List Nat) → Decidable (InBounds s index)
  | [], [] => isTrue trivial
  | extent :: extents, i :: index =>
    have := decidableInBounds extents index
    inferInstanceAs (Decidable (i < extent ∧ InBounds extents index))
  | [], _ :: _ => isFalse id
  | _ :: _, [] => isFalse id

/-- The number of the element with an index. -/
def rowMajor : Shape → List Nat → Nat
  | _ :: extents, i :: index => i * volume extents + rowMajor extents index
  | _, _ => 0

/-- The index of the element with a number. -/
def ofRowMajor : Shape → Nat → List Nat
  | [], _ => []
  | _ :: extents, n => n / volume extents :: ofRowMajor extents (n % volume extents)

theorem InBounds.length_eq {s : Shape} {index : List Nat} (h : InBounds s index) :
    index.length = s.length := by
  fun_induction InBounds s index with
  | case1 => rfl
  | case2 extent extents i index ih => exact congrArg (· + 1) (ih h.2)
  | case3 => exact h.elim

/-- An array that has an index has no axis of extent zero. -/
theorem InBounds.zero_not_mem {s : Shape} {index : List Nat} (h : InBounds s index) : 0 ∉ s := by
  fun_induction InBounds s index with
  | case1 => exact List.not_mem_nil
  | case2 extent extents i index ih =>
      rw [List.mem_cons, not_or]
      exact ⟨by omega, ih h.2⟩
  | case3 => exact h.elim

theorem volume_pos {s : Shape} (h : 0 ∉ s) : 0 < volume s := by
  induction s with
  | nil => exact Nat.one_pos
  | cons extent extents ih =>
      rw [List.mem_cons, not_or] at h
      exact Nat.mul_pos (Nat.pos_of_ne_zero fun hz => h.1 hz.symm) (ih h.2)

theorem volume_pos_of_lt {extent n : Nat} {extents : Shape} (h : n < volume (extent :: extents)) :
    0 < volume extents := by
  refine Nat.pos_of_ne_zero fun hz => ?_
  rw [volume, hz] at h
  omega

/-- The elements at a place along the first axis come before those at the next place. -/
theorem rowMajor_cons_lt {extent i : Nat} {extents : Shape} {index : List Nat}
    (h : rowMajor extents index < volume extents) :
    rowMajor (extent :: extents) (i :: index) < (i + 1) * volume extents :=
  calc
    rowMajor (extent :: extents) (i :: index) = i * volume extents + rowMajor extents index := rfl
    _ < i * volume extents + volume extents := Nat.add_lt_add_left h _
    _ = (i + 1) * volume extents := (Nat.succ_mul i _).symm

theorem rowMajor_lt_volume {s : Shape} {index : List Nat} (h : InBounds s index) :
    rowMajor s index < volume s := by
  fun_induction InBounds s index with
  | case1 => exact Nat.one_pos
  | case2 extent extents i index ih =>
      calc
        rowMajor (extent :: extents) (i :: index) < (i + 1) * volume extents :=
          rowMajor_cons_lt (ih h.2)
        _ ≤ extent * volume extents := Nat.mul_le_mul_right _ h.1
  | case3 => exact h.elim

theorem ofRowMajor_inBounds {s : Shape} {n : Nat} (h : n < volume s) :
    InBounds s (ofRowMajor s n) := by
  induction s generalizing n with
  | nil => exact trivial
  | cons extent extents ih =>
      have hPos : 0 < volume extents := volume_pos_of_lt h
      exact ⟨(Nat.div_lt_iff_lt_mul hPos).mpr h, ih (Nat.mod_lt n hPos)⟩

/-- The index with a number has that number. -/
theorem rowMajor_ofRowMajor {s : Shape} {n : Nat} (h : n < volume s) :
    rowMajor s (ofRowMajor s n) = n := by
  induction s generalizing n with
  | nil =>
      rw [volume] at h
      exact (Nat.lt_one_iff.mp h).symm
  | cons extent extents ih =>
      have hPos : 0 < volume extents := volume_pos_of_lt h
      show n / volume extents * volume extents +
        rowMajor extents (ofRowMajor extents (n % volume extents)) = n
      rw [ih (Nat.mod_lt n hPos)]
      exact Nat.div_add_mod' n _

/-- An index is the index with its number. -/
theorem ofRowMajor_rowMajor {s : Shape} {index : List Nat} (h : InBounds s index) :
    ofRowMajor s (rowMajor s index) = index := by
  fun_induction InBounds s index with
  | case1 => rfl
  | case2 extent extents i index ih =>
      have hRest : rowMajor extents index < volume extents := rowMajor_lt_volume h.2
      have hPos : 0 < volume extents := by omega
      have hDiv : (i * volume extents + rowMajor extents index) / volume extents = i := by
        rw [Nat.add_comm, Nat.add_mul_div_right _ _ hPos, Nat.div_eq_of_lt hRest, Nat.zero_add]
      have hMod : (i * volume extents + rowMajor extents index) % volume extents =
          rowMajor extents index := by
        rw [Nat.add_comm, Nat.add_mul_mod_self_right, Nat.mod_eq_of_lt hRest]
      show (i * volume extents + rowMajor extents index) / volume extents ::
        ofRowMajor extents ((i * volume extents + rowMajor extents index) % volume extents) = _
      rw [hDiv, hMod, ih h.2]
  | case3 => exact h.elim

/-! ## Counts that fit in 64 bits -/

theorem foldlM_mul?_eq_some_iff {s : Shape} {a n : Nat} (ha : a < wordSize) :
    s.foldlM mul? a = some n ↔ n = a * volume s ∧ ∀ k, a * volume (s.take k) < wordSize := by
  induction s generalizing a with
  | nil => simp [volume, ha, eq_comm]
  | cons extent extents ih =>
      have hTake : (∀ k, a * volume ((extent :: extents).take k) < wordSize) ↔
          ∀ k, a * extent * volume (extents.take k) < wordSize := by
        constructor
        · intro h k
          have hk := h (k + 1)
          rwa [List.take_succ_cons, volume, ← Nat.mul_assoc] at hk
        · intro h k
          cases k with
          | zero => simpa [volume] using ha
          | succ k =>
              rw [List.take_succ_cons, volume, ← Nat.mul_assoc]
              exact h k
      rw [List.foldlM_cons, mul?, hTake, volume, ← Nat.mul_assoc]
      split
      · next hLt => exact ih hLt
      · next hNot =>
        constructor
        · intro h
          cases h
        · rintro ⟨-, hAll⟩
          have hFirst := hAll 0
          simp only [List.take_zero, volume, Nat.mul_one] at hFirst
          exact absurd hFirst hNot

/-- The count is the number of elements.  It fits in 64 bits if no product of the first
extents leaves them; a zero further on does not make up for that. -/
theorem count?_eq_some_iff {s : Shape} {n : Nat} :
    s.count? = some n ↔ n = volume s ∧ ∀ k, volume (s.take k) < wordSize := by
  have hFold := foldlM_mul?_eq_some_iff (s := s) (a := 1) (n := n) (by decide)
  simp only [Nat.one_mul] at hFold
  exact hFold

theorem volume_of_count? {s : Shape} {n : Nat} (h : s.count? = some n) : n = volume s :=
  (count?_eq_some_iff.mp h).1

theorem volume_lt_of_count? {s : Shape} {n : Nat} (h : s.count? = some n) :
    volume s < wordSize := by
  have hWhole := (count?_eq_some_iff.mp h).2 s.length
  rwa [List.take_length] at hWhole

/-- Without a zero, the first extents have no more elements than the whole shape. -/
theorem volume_take_le {s : Shape} (h : 0 ∉ s) (k : Nat) : volume (s.take k) ≤ volume s := by
  induction s generalizing k with
  | nil => simp
  | cons extent extents ih =>
      have hPos := volume_pos h
      rw [List.mem_cons, not_or] at h
      cases k with
      | zero => exact hPos
      | succ k =>
          rw [List.take_succ_cons, volume, volume]
          exact Nat.mul_le_mul_left extent (ih h.2 k)

theorem count?_of_lt {s : Shape} (hZero : 0 ∉ s) (h : volume s < wordSize) :
    s.count? = some (volume s) :=
  count?_eq_some_iff.mpr ⟨rfl, fun k => Nat.lt_of_le_of_lt (volume_take_le hZero k) h⟩

end Shape
end ArrayKernel
