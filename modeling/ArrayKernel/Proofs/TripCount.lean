import ArrayKernel.Loop
import ArrayKernel.Shape

/-!
# Trip counts

A scalar loop runs its body while the counter has not reached the end, which it approaches
from below or from above by the sign of the step.  The trip count is the number of these
runs.  Seen from the side of the start, both directions are one: the body runs as long as
the way that the counter has gone is shorter than the way to the end.

There is a count whenever the distance from start to end fits in 64 bits with a sign.  The
count itself then fits in 64 bits without a sign, but NOT always with one.
-/

namespace ArrayKernel
namespace LoopBounds

variable {b : LoopBounds}

/-- The number fits in 64 bits with a sign. -/
def FitsSigned (x : Int) : Prop := -spanLimit ≤ x ∧ x < spanLimit

instance (x : Int) : Decidable (FitsSigned x) :=
  inferInstanceAs (Decidable (-spanLimit ≤ x ∧ x < spanLimit))

/-- The body runs for a value of the counter. -/
def Continues (b : LoopBounds) (i : Int) : Prop :=
  0 < b.step ∧ i < b.stop ∨ b.step < 0 ∧ b.stop < i

/-- From a value of the counter on, the body runs a number of times. -/
inductive Runs (b : LoopBounds) : Int → Nat → Prop
  | done {i : Int} (h : ¬ b.Continues i) : Runs b i 0
  | next {i : Int} {n : Nat} (h : b.Continues i) (hRest : Runs b (i + b.step) n) :
      Runs b i (n + 1)

/-- The way to the end, in the direction of the step.  It is negative where the loop starts
behind its end. -/
def way (b : LoopBounds) : Int := b.step.sign * (b.stop - b.start)

theorem way_cases (b : LoopBounds) :
    b.step < 0 ∧ b.way = b.start - b.stop ∨ b.step = 0 ∧ b.way = 0 ∨
      0 < b.step ∧ b.way = b.stop - b.start := by
  unfold way
  rcases Int.lt_trichotomy b.step 0 with hDown | hZero | hUp
  · rw [Int.sign_eq_neg_one_of_neg hDown]
    omega
  · simp [hZero]
  · rw [Int.sign_eq_one_of_pos hUp]
    omega

/-- A loop continues while the steps that it has made are shorter than the way. -/
theorem continues_iff (k : Nat) :
    b.Continues (b.start + k * b.step) ↔
      b.step ≠ 0 ∧ ((k * b.step.natAbs : Nat) : Int) < b.way := by
  unfold Continues
  rcases b.way_cases with ⟨hDown, hWay⟩ | ⟨hZero, -⟩ | ⟨hUp, hWay⟩
  · have hSteps : ((k * b.step.natAbs : Nat) : Int) = -(k * b.step) := by
      rw [Int.natCast_mul, Int.ofNat_natAbs_of_nonpos (Int.le_of_lt hDown), Int.mul_neg]
    omega
  · simp [hZero]
  · have hSteps : ((k * b.step.natAbs : Nat) : Int) = k * b.step := by
      rw [Int.natCast_mul, Int.natAbs_of_nonneg (Int.le_of_lt hUp)]
    omega

/-- A distance in the direction of the step is the way. -/
theorem way_eq_natAbs (h : (b.stop - b.start).sign = b.step.sign) :
    b.way = (b.stop - b.start).natAbs := by
  rw [way, ← h, Int.sign_mul_self]

/-- Against the direction of the step there is no way to go. -/
theorem way_nonpos (h : (b.stop - b.start).sign ≠ b.step.sign) : b.way ≤ 0 := by
  refine Int.not_lt.mp fun hPos => h ?_
  rcases b.way_cases with ⟨hDown, hWay⟩ | ⟨-, hWay⟩ | ⟨hUp, hWay⟩
  · rw [Int.sign_eq_neg_one_of_neg hDown, Int.sign_eq_neg_one_of_neg (by omega)]
  · omega
  · rw [Int.sign_eq_one_of_pos hUp, Int.sign_eq_one_of_pos (by omega)]

theorem way_le_spanLimit (h : FitsSigned (b.stop - b.start)) : b.way ≤ spanLimit := by
  obtain ⟨hLow, hHigh⟩ := h
  have hLimit : (0 : Int) ≤ spanLimit := by decide
  rcases b.way_cases with ⟨-, hWay⟩ | ⟨-, hWay⟩ | ⟨-, hWay⟩ <;> omega

/-- The quotient rounded up exceeds the numbers of steps that fall short of the whole. -/
theorem lt_roundedUp_iff {k whole step : Nat} (hStep : 0 < step) :
    k < (whole + step - 1) / step ↔ k * step < whole := by
  rw [← Nat.succ_le_iff, Nat.le_div_iff_mul_le hStep, Nat.succ_mul]
  omega

theorem tripCount_eq_error_iff :
    b.tripCount = .error .spanOverflow ↔ b.step ≠ 0 ∧ ¬ FitsSigned (b.stop - b.start) := by
  unfold tripCount FitsSigned
  split
  · next hZero => simp [hZero]
  · next hStep =>
    dsimp only
    split
    · next hSpan =>
      refine ⟨fun _ => ⟨hStep, ?_⟩, fun _ => rfl⟩
      omega
    · next hSpan =>
      have hFits : -spanLimit ≤ b.stop - b.start ∧ b.stop - b.start < spanLimit := by omega
      split <;> simp [hFits]

/-- The count tells for which numbers of steps the loop still runs. -/
theorem lt_iff_of_tripCount {n : Nat} (h : b.tripCount = .ok n) (k : Nat) :
    k < n ↔ b.Continues (b.start + k * b.step) := by
  rw [continues_iff]
  unfold tripCount at h
  split at h
  · next hZero =>
    cases h
    simp [hZero]
  · next hStep =>
    dsimp only at h
    split at h
    · cases h
    · split at h
      · next hSign =>
        cases h
        have hWay := way_nonpos hSign
        omega
      · next hSign =>
        cases h
        rw [way_eq_natAbs (Decidable.not_not.mp hSign), Int.ofNat_lt,
          lt_roundedUp_iff (Int.natAbs_pos.mpr hStep)]
        simp [hStep]

/-- Steps of length one make the most runs, one for each unit of the way. -/
theorem tripCount_lt_wordSize {n : Nat} (h : b.tripCount = .ok n) : n < Shape.wordSize := by
  cases n with
  | zero => decide
  | succ n =>
      obtain ⟨hStep, hWay⟩ := (continues_iff n).mp ((lt_iff_of_tripCount h n).mp n.lt_succ_self)
      have hFits : FitsSigned (b.stop - b.start) := by
        refine Decidable.not_not.mp fun hNot => ?_
        rw [tripCount_eq_error_iff.mpr ⟨hStep, hNot⟩] at h
        cases h
      have hSteps : n ≤ n * b.step.natAbs := Nat.le_mul_of_pos_right n (Int.natAbs_pos.mpr hStep)
      have hLimit := way_le_spanLimit hFits
      unfold spanLimit at hLimit
      unfold Shape.wordSize
      omega

/-- A loop that continues after exactly the numbers of steps below `n` runs `n` times. -/
theorem runs_of_lt_iff {n : Nat} {i : Int}
    (h : ∀ k : Nat, k < n ↔ b.Continues (i + k * b.step)) : b.Runs i n := by
  induction n generalizing i with
  | zero =>
      have hFirst : ¬ b.Continues i := by simpa using h 0
      exact .done hFirst
  | succ n ih =>
      have hFirst : b.Continues i := by simpa using (h 0).mp n.succ_pos
      refine .next hFirst (ih fun k => ?_)
      have hNext : i + b.step + k * b.step = i + ((k + 1 : Nat) : Int) * b.step := by
        rw [Int.natCast_add, Int.add_mul]
        omega
      rw [hNext, ← h (k + 1)]
      omega

end LoopBounds

/-- **The trip count counts iterations.**  There is no count exactly where the step is not zero
and the distance from start to end does not fit in 64 bits with a sign.  Otherwise the numbers
below the count are those after which the counter is still short of the end, in the direction
of the step; the body runs so many times, and the count fits in 64 bits. -/
theorem trip_count_counts_iterations (b : LoopBounds) :
    (b.tripCount = .error .spanOverflow ↔
      b.step ≠ 0 ∧ ¬ LoopBounds.FitsSigned (b.stop - b.start)) ∧
    (b.step = 0 ∨ LoopBounds.FitsSigned (b.stop - b.start) → ∃ n, b.tripCount = .ok n ∧
      (∀ k : Nat, k < n ↔ 0 < b.step ∧ b.start + k * b.step < b.stop ∨
        b.step < 0 ∧ b.stop < b.start + k * b.step) ∧
      b.Runs b.start n ∧ n < Shape.wordSize) := by
  refine ⟨LoopBounds.tripCount_eq_error_iff, fun hFits => ?_⟩
  cases hCount : b.tripCount with
  | error e =>
      cases e
      obtain ⟨hStep, hNot⟩ := LoopBounds.tripCount_eq_error_iff.mp hCount
      exact absurd hFits (not_or.mpr ⟨hStep, hNot⟩)
  | ok n =>
      have hIff := LoopBounds.lt_iff_of_tripCount hCount
      exact ⟨n, rfl, hIff, LoopBounds.runs_of_lt_iff hIff,
        LoopBounds.tripCount_lt_wordSize hCount⟩

/-- From zero down to the least signed number the body runs 2^63 times in steps of one, a count
that does not fit in 64 bits with a sign, and once in a step of the whole length.  From one
down there is no count. -/
theorem trip_count_full_descent :
    LoopBounds.Runs ⟨0, 0, -0x8000000000000000, -1⟩ 0 0x8000000000000000 ∧
    LoopBounds.Runs ⟨0, 0, -0x8000000000000000, -0x8000000000000000⟩ 0 1 ∧
    LoopBounds.tripCount ⟨0, 1, -0x8000000000000000, -1⟩ = .error .spanOverflow := by
  obtain ⟨-, hUnit⟩ := trip_count_counts_iterations ⟨0, 0, -0x8000000000000000, -1⟩
  obtain ⟨-, hWhole⟩ :=
    trip_count_counts_iterations ⟨0, 0, -0x8000000000000000, -0x8000000000000000⟩
  obtain ⟨hNone, -⟩ := trip_count_counts_iterations ⟨0, 1, -0x8000000000000000, -1⟩
  obtain ⟨n, hUnits, -, hRuns, -⟩ := hUnit (.inr (by decide))
  obtain ⟨m, hOnce, -, hRun, -⟩ := hWhole (.inr (by decide))
  cases hUnits
  cases hOnce
  exact ⟨hRuns, hRun, hNone.mpr (by decide)⟩

end ArrayKernel
