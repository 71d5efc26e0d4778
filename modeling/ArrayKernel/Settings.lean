import ArrayKernel.Text.Basic

/-!
# Settings

How symbols are named and whether contiguous access is wanted.
-/

namespace ArrayKernel

/-- The settings of a lowering. -/
structure Settings where
  /-- The stem of generated names. -/
  nameStem : Text := "obj"
  /-- The stem of the names of loop counters. -/
  inductionStem : Text := "sforidx"
  /-- Whether buffers with a last stride of one are accessed without it. -/
  contiguous : Bool := true
  deriving DecidableEq, Repr

namespace Settings

/-- A stem that is given and not empty, else another. -/
def stemOr (otherwise : Text) (stem : Option Text) : Text :=
  (stem.filter fun t => !t.isEmpty).getD otherwise

/-- Settings from optional values, where an empty stem counts as none and strided
access can be forced. -/
def ofOptions (nameStem inductionStem : Option Text) (forceStrided : Bool) : Settings where
  nameStem := stemOr ({} : Settings).nameStem nameStem
  inductionStem := stemOr ({} : Settings).inductionStem inductionStem
  contiguous := !forceStrided

end Settings

end ArrayKernel
