import ArrayKernel.Proofs.BroadcastAgreement
import Mathlib.Order.Bounds.Basic

/-!
# Broadcasting is a partial join

Shapes without empty axes are ordered by fitting: `s ≤ t` when, with the last axes aligned,
every extent of `s` is one or the extent of `t` beside it, and `t` has at least as many
axes.  This is a partial order, and the shape of an elementwise operation on two arrays is
the least upper bound of their shapes: it exists exactly where some shape is above both.

The laws of the operation follow from the order alone.  In particular nested operations
have a shape, and the same one, however they are bracketed.

With empty axes the shape of an operation is NOT an upper bound: zero beside one gives one.
-/

namespace ArrayKernel

namespace Shape

variable {s t u v : Shape}

theorem FitsAxes.antisymm (hst : FitsAxes s t) (hts : FitsAxes t s) : s = t := by
  induction s generalizing t with
  | nil =>
      have hLength := hst.length_eq
      simpa [eq_comm] using hLength
  | cons l ls ih =>
      cases t with
      | nil => exact hst.elim
      | cons r rs =>
          obtain ⟨hHead, hTail⟩ := hst
          obtain ⟨hHead', hTail'⟩ := hts
          have hEq : l = r := by omega
          rw [hEq, ih hTail hTail']

theorem Fits.antisymm (hst : Fits s t) (hts : Fits t s) : s = t := by
  obtain ⟨hLe, hAxes⟩ := hst
  obtain ⟨hLe', hAxes'⟩ := hts
  have hLength : s.length = t.length := by omega
  simp only [hLength, Nat.sub_self, List.drop_zero] at hAxes hAxes'
  exact hAxes.antisymm hAxes'

/-- Aligned shapes that fit a third one can be joined, and their join fits it as well. -/
theorem FitsAxes.exists_joinExtents? (hs : FitsAxes s v) (ht : FitsAxes t v) :
    ∃ u, joinExtents? s t = some u ∧ FitsAxes u v := by
  induction v generalizing s t with
  | nil =>
      have hNil : s = [] := List.length_eq_zero_iff.mp hs.length_eq
      rw [hNil]
      exact ⟨[], rfl, trivial⟩
  | cons target targets ih =>
      match s, t with
      | [], _ => exact hs.elim
      | _ :: _, [] => exact ht.elim
      | l :: ls, r :: rs =>
          obtain ⟨hHead, hTail⟩ := hs
          obtain ⟨hHead', hTail'⟩ := ht
          obtain ⟨extents, hExtents, hFits⟩ := ih hTail hTail'
          have hAgree : l = r ∨ l = 1 ∨ r = 1 := by omega
          have hMax : max l r = 1 ∨ max l r = target := by omega
          refine ⟨max l r :: extents, ?_, hMax, hFits⟩
          rw [joinExtents?, joinExtent?, if_pos hAgree, hExtents]
          rfl

theorem zero_not_mem_joinExtents? (hLength : s.length = t.length) (hs : 0 ∉ s)
    (h : joinExtents? s t = some u) : 0 ∉ u := by
  induction s generalizing t u with
  | nil =>
      cases h
      exact List.not_mem_nil
  | cons l ls ih =>
      cases t with
      | nil => cases hLength
      | cons r rs =>
          obtain ⟨extents, rfl, -, hExtents⟩ := joinExtents?_cons h
          simp only [List.mem_cons, not_or] at hs ⊢
          refine ⟨by omega, ih (Nat.succ.inj hLength) hs.2 hExtents⟩

theorem zero_not_mem_broadcast? (hs : 0 ∉ s) (h : broadcast? s t = some u) : 0 ∉ u := by
  refine zero_not_mem_joinExtents? ?_ (zero_not_mem_padTo hs _) h
  rw [length_padTo, length_padTo]
  omega

/-- Shapes that fit a third one can be broadcast, and the result fits it as well. -/
theorem exists_broadcast?_of_fits (hs : Fits s v) (ht : Fits t v) :
    ∃ u, broadcast? s t = some u ∧ Fits u v := by
  -- only the last axes of the third shape matter, as many as the longer of the two has
  have hRank : max s.length t.length ≤ v.length := Nat.max_le.mpr ⟨hs.1, ht.1⟩
  have hLast {x : Shape} (hx : Fits x v) (hLe : x.length ≤ max s.length t.length) :
      FitsAxes (padTo (max s.length t.length) x)
        (v.drop (v.length - max s.length t.length)) := by
    refine fitsAxes_replicate_append ?_ ?_
    · rw [List.length_drop]
      omega
    · have hOffset : v.length - max s.length t.length + (max s.length t.length - x.length) =
          v.length - x.length := by
        omega
      rw [List.drop_drop, hOffset]
      exact hx.2
  obtain ⟨u, hu, hFits⟩ := (hLast hs (Nat.le_max_left _ _)).exists_joinExtents?
    (hLast ht (Nat.le_max_right _ _))
  have hLength := hFits.length_eq
  rw [List.length_drop] at hLength
  refine ⟨u, hu, by omega, ?_⟩
  have hOffset : v.length - max s.length t.length = v.length - u.length := by omega
  rwa [hOffset] at hFits

end Shape

/-- A shape without empty axes. -/
@[ext] structure PositiveShape where
  shape : Shape
  zero_not_mem : 0 ∉ shape

namespace PositiveShape

open Shape

/-- Shapes are ordered by fitting. -/
instance : PartialOrder PositiveShape where
  le s t := s.shape.Fits t.shape
  le_refl s := .refl s.shape
  le_trans _ _ _ hst htu := hst.trans htu
  le_antisymm _ _ hst hts := PositiveShape.ext (hst.antisymm hts)

variable {s t u r : PositiveShape}

theorem isLUB_pair_iff :
    IsLUB {s, t} r ↔ (s ≤ r ∧ t ≤ r) ∧ ∀ v, s ≤ v → t ≤ v → r ≤ v := by
  simp [IsLUB, IsLeast, mem_lowerBounds]

/-- Where some shape is above both, broadcasting gives the least one. -/
theorem exists_isLUB_broadcast? (hs : s ≤ u) (ht : t ≤ u) :
    ∃ r : PositiveShape, broadcast? s.shape t.shape = some r.shape ∧ IsLUB {s, t} r := by
  obtain ⟨shape, hShape, -⟩ := exists_broadcast?_of_fits hs ht
  have hZero := zero_not_mem_broadcast? s.zero_not_mem hShape
  have hBoth := fits_of_broadcast? hShape s.zero_not_mem t.zero_not_mem
  refine ⟨⟨shape, hZero⟩, hShape, isLUB_pair_iff.mpr ⟨hBoth, ?_⟩⟩
  intro v hsv htv
  obtain ⟨other, hOther, hFits⟩ := exists_broadcast?_of_fits hsv htv
  rw [hShape] at hOther
  cases hOther
  exact hFits

/-- Broadcasting gives a shape exactly where it is the least upper bound. -/
theorem broadcast_eq_ok_iff_isLUB :
    s.shape.broadcast t.shape = .ok r.shape ↔ IsLUB {s, t} r := by
  rw [broadcast_eq_ok_iff]
  constructor
  · intro h
    obtain ⟨hLeft, hRight⟩ := fits_of_broadcast? h s.zero_not_mem t.zero_not_mem
    obtain ⟨x, hx, hLub⟩ := exists_isLUB_broadcast? (u := r) hLeft hRight
    have hEq : r = x := PositiveShape.ext (Option.some.inj (h.symm.trans hx))
    rwa [hEq]
  · intro h
    obtain ⟨⟨hLeft, hRight⟩, -⟩ := isLUB_pair_iff.mp h
    obtain ⟨x, hx, hLub⟩ := exists_isLUB_broadcast? hLeft hRight
    rw [h.unique hLub]
    exact hx

/-- Broadcasting gives nothing but least upper bounds. -/
theorem broadcast_eq_ok_iff_exists {shape : Shape} :
    s.shape.broadcast t.shape = .ok shape ↔
      ∃ r : PositiveShape, r.shape = shape ∧ IsLUB {s, t} r := by
  constructor
  · intro h
    have hZero := zero_not_mem_broadcast? s.zero_not_mem (broadcast_eq_ok_iff.mp h)
    exact ⟨⟨shape, hZero⟩, rfl, broadcast_eq_ok_iff_isLUB.mp h⟩
  · rintro ⟨r, rfl, hr⟩
    exact broadcast_eq_ok_iff_isLUB.mpr hr

/-- Joining two shapes first and then a third one gives the least shape above all three. -/
theorem exists_isLUB_pair_iff :
    (∃ x, IsLUB {s, t} x ∧ IsLUB {x, u} r) ↔ IsLUB {s, t, u} r := by
  -- what is above the join of two shapes is what is above both
  have hUpper {x : PositiveShape} (hx : IsLUB {s, t} x) :
      upperBounds {x, u} = upperBounds ({s, t, u} : Set PositiveShape) := by
    ext v
    have hv : x ≤ v ↔ s ≤ v ∧ t ≤ v := by
      rw [isLUB_le_iff hx]
      simp
    simp [hv, and_assoc]
  constructor
  · rintro ⟨x, hx, hr⟩
    rwa [IsLUB, hUpper hx] at hr
  · intro hr
    have hs : s ≤ r := hr.1 (by simp)
    have ht : t ≤ r := hr.1 (by simp)
    obtain ⟨x, -, hx⟩ := exists_isLUB_broadcast? hs ht
    refine ⟨x, hx, ?_⟩
    rwa [IsLUB, hUpper hx]

theorem broadcast_left_eq_ok_iff {shape : Shape} :
    (s.shape.broadcast t.shape >>= fun x => x.broadcast u.shape) = .ok shape ↔
      ∃ r : PositiveShape, r.shape = shape ∧ IsLUB {s, t, u} r := by
  rw [bind_eq_ok]
  constructor
  · rintro ⟨middle, hMiddle, hShape⟩
    obtain ⟨x, rfl, hx⟩ := broadcast_eq_ok_iff_exists.mp hMiddle
    obtain ⟨r, rfl, hr⟩ := broadcast_eq_ok_iff_exists.mp hShape
    exact ⟨r, rfl, exists_isLUB_pair_iff.mp ⟨x, hx, hr⟩⟩
  · rintro ⟨r, rfl, hr⟩
    obtain ⟨x, hx, hr⟩ := exists_isLUB_pair_iff.mpr hr
    exact ⟨x.shape, broadcast_eq_ok_iff_isLUB.mpr hx, broadcast_eq_ok_iff_isLUB.mpr hr⟩

theorem broadcast_comm {shape : Shape} :
    s.shape.broadcast t.shape = .ok shape ↔ t.shape.broadcast s.shape = .ok shape := by
  rw [broadcast_eq_ok_iff_exists, broadcast_eq_ok_iff_exists, Set.pair_comm]

theorem broadcast_right_eq_ok_iff {shape : Shape} :
    (t.shape.broadcast u.shape >>= fun x => s.shape.broadcast x) = .ok shape ↔
      ∃ r : PositiveShape, r.shape = shape ∧ IsLUB {s, t, u} r := by
  have hRotate : ({s, t, u} : Set PositiveShape) = {t, u, s} := by
    rw [Set.insert_comm, Set.pair_comm s u]
  rw [hRotate, ← broadcast_left_eq_ok_iff, bind_eq_ok, bind_eq_ok]
  refine exists_congr fun middle => and_congr_right fun hMiddle => ?_
  obtain ⟨x, rfl, -⟩ := broadcast_eq_ok_iff_exists.mp hMiddle
  exact broadcast_comm

end PositiveShape

/-- **Broadcasting is a partial join** of the shapes without empty axes.  Two shapes can be
broadcast if and only if some shape is above both, and the result is the least such shape.
Therefore a shape broadcast with itself stays as it is, the order of two shapes makes no
difference, and of three shapes it makes no difference which two are broadcast first:
either way there is no result, or the same one. -/
theorem broadcast_partial_join (s t u : PositiveShape) :
    ((∃ shape, s.shape.broadcast t.shape = .ok shape) ↔ ∃ v, s ≤ v ∧ t ≤ v) ∧
    (∀ shape, s.shape.broadcast t.shape = .ok shape ↔
      ∃ r : PositiveShape, r.shape = shape ∧ IsLUB {s, t} r) ∧
    s.shape.broadcast s.shape = .ok s.shape ∧
    (∀ shape, s.shape.broadcast t.shape = .ok shape ↔ t.shape.broadcast s.shape = .ok shape) ∧
    ∀ shape, (s.shape.broadcast t.shape >>= fun x => x.broadcast u.shape) = .ok shape ↔
      (t.shape.broadcast u.shape >>= fun x => s.shape.broadcast x) = .ok shape := by
  refine ⟨?_, fun shape => PositiveShape.broadcast_eq_ok_iff_exists, ?_,
    fun shape => PositiveShape.broadcast_comm, fun shape => ?_⟩
  · constructor
    · rintro ⟨shape, hShape⟩
      obtain ⟨r, -, hr⟩ := PositiveShape.broadcast_eq_ok_iff_exists.mp hShape
      exact ⟨r, (PositiveShape.isLUB_pair_iff.mp hr).1⟩
    · rintro ⟨v, hsv, htv⟩
      obtain ⟨r, -, hr⟩ := PositiveShape.exists_isLUB_broadcast? hsv htv
      exact ⟨r.shape, PositiveShape.broadcast_eq_ok_iff_isLUB.mpr hr⟩
  · rw [PositiveShape.broadcast_eq_ok_iff_isLUB, Set.pair_eq_singleton]
    exact isLUB_singleton
  · rw [PositiveShape.broadcast_left_eq_ok_iff, PositiveShape.broadcast_right_eq_ok_iff]

end ArrayKernel
