import ArrayKernel.Helper.Basic

/-!
# Sets of helpers

A set of helpers lists its members in the order of helpers, each once.
-/

namespace ArrayKernel

/-- Helpers in order, each once. -/
structure HelperSet where
  toList : List Helper
  sorted : toList.Pairwise Helper.Before
  deriving DecidableEq, Repr

namespace HelperSet

/-- Puts a helper in its place in an ordered list. -/
def place (h : Helper) : List Helper → List Helper
  | [] => [h]
  | x :: xs => if h = x then x :: xs else if h.Before x then h :: x :: xs else x :: place h xs

@[simp] theorem mem_place {h x : Helper} {xs : List Helper} :
    x ∈ place h xs ↔ x = h ∨ x ∈ xs := by
  induction xs with
  | nil => simp [place]
  | cons y ys ih =>
    rw [place]
    split
    · next hy => simp [hy]
    · split
      · simp
      · simp only [List.mem_cons, ih]
        exact or_left_comm

theorem place_sorted {h : Helper} {xs : List Helper} (hxs : xs.Pairwise Helper.Before) :
    (place h xs).Pairwise Helper.Before := by
  induction xs with
  | nil => simp [place]
  | cons y ys ih =>
    obtain ⟨hy, hys⟩ := List.pairwise_cons.mp hxs
    rw [place]
    split
    · exact hxs
    · next hne =>
      split
      · next hb =>
        refine List.pairwise_cons.mpr ⟨fun z hz => ?_, hxs⟩
        rcases List.mem_cons.mp hz with rfl | hz
        · exact hb
        · exact hb.trans (hy z hz)
      · next hb =>
        refine List.pairwise_cons.mpr ⟨fun z hz => ?_, ih hys⟩
        rcases mem_place.mp hz with rfl | hz
        · exact Helper.Before.of_not_before hb hne
        · exact hy z hz

/-- The set without members. -/
def empty : HelperSet := ⟨[], List.Pairwise.nil⟩

/-- The set with one more member. -/
def insert (s : HelperSet) (h : Helper) : HelperSet := ⟨place h s.toList, place_sorted s.sorted⟩

/-- The set with the members of a list added. -/
def insertAll (s : HelperSet) (hs : List Helper) : HelperSet := hs.foldl insert s

/-- The members of a list. -/
def ofList (hs : List Helper) : HelperSet := empty.insertAll hs

/-- The definition lines of the members, in order. -/
def definitions (s : HelperSet) : Text := s.toList.flatMap fun h => h.definition ++ ['\n']

instance : Membership Helper HelperSet := ⟨fun s h => h ∈ s.toList⟩

theorem mem_def {s : HelperSet} {h : Helper} : h ∈ s ↔ h ∈ s.toList := Iff.rfl

@[simp] theorem not_mem_empty (h : Helper) : h ∉ empty := List.not_mem_nil

@[simp] theorem mem_insert {s : HelperSet} {h x : Helper} : x ∈ s.insert h ↔ x = h ∨ x ∈ s :=
  mem_place

@[simp] theorem mem_insertAll {s : HelperSet} {hs : List Helper} {x : Helper} :
    x ∈ s.insertAll hs ↔ x ∈ hs ∨ x ∈ s := by
  induction hs generalizing s with
  | nil => simp [insertAll]
  | cons h hs ih =>
    have step : s.insertAll (h :: hs) = (s.insert h).insertAll hs := rfl
    rw [step, ih, mem_insert, List.mem_cons]
    exact or_left_comm.trans or_assoc.symm

@[simp] theorem mem_ofList {hs : List Helper} {x : Helper} : x ∈ ofList hs ↔ x ∈ hs := by
  simp [ofList]

end HelperSet

end ArrayKernel
