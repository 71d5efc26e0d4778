import ArrayKernel.Tree.Call

/-!
# Steps that fail change nothing

Appending is the only way to change a tree, and what has been appended stays when a later
check fails.  The steps of the builders never get there: each of them reads and checks first
and appends last, so that a step that fails leaves the tree as it was.
-/

namespace ArrayKernel
namespace Growth

open MonadExcept (ofExcept)

variable {α β : Type} {g : Growth α} {t next : Tree} {e : TreeError}

/-- The step leaves every tree as it is, whether it fails or not. -/
def ReadsOnly (g : Growth α) : Prop := ∀ t, g.after t = t

/-- When the step fails, it leaves the tree as it was. -/
def Atomic (g : Growth α) : Prop := ∀ t e next, g.run t = .error e next → next = t

theorem after_of_run_eq_ok {a : α} (h : g.run t = .ok a next) : g.after t = next := by
  rw [after, h]

theorem after_of_run_eq_error (h : g.run t = .error e next) : g.after t = next := by
  rw [after, h]

theorem ReadsOnly.atomic (h : g.ReadsOnly) : g.Atomic := by
  intro t e next hRun
  rw [← after_of_run_eq_error hRun]
  exact h t

theorem readsOnly_ofExcept (x : Except TreeError α) : ReadsOnly (ofExcept x) := by
  intro t
  cases x <;> rfl

theorem readsOnly_operand (position : Nat) : (operand position).ReadsOnly := fun t =>
  readsOnly_ofExcept (t.operand position) t

theorem readsOnly_throw (e : TreeError) : ReadsOnly (throw e : Growth α) := fun _ => rfl

theorem atomic_push (n : Node) : (push n).Atomic := fun _ _ _ hRun =>
  (run_push_eq_error_iff.mp hRun).2

/-- What has only been read when a step fails is as it was. -/
theorem ReadsOnly.bind_atomic {f : α → Growth β} (hg : g.ReadsOnly) (hf : ∀ a, (f a).Atomic) :
    Atomic (g >>= f) := by
  intro t e next hRun
  rw [EStateM.run_bind] at hRun
  cases hFirst : g.run t with
  | error e' middle =>
      rw [hFirst] at hRun
      cases hRun
      exact hg.atomic t e next hFirst
  | ok a middle =>
      rw [hFirst] at hRun
      -- the first step has only read, so the second one starts from the same tree
      have hMiddle : middle = t := (after_of_run_eq_ok hFirst).symm.trans (hg t)
      rw [← hMiddle]
      exact hf a middle e next hRun

-- A step that appends before it fails is not atomic.
example : ((do let _ ← hostScalar .int32; throw .empty : Growth Nat).after .empty).size = 1 := rfl

/-! ## Outcomes -/

theorem outcome_eq_ok_iff {a : α} : g.outcome t = .ok (next, a) ↔ g.run t = .ok a next := by
  unfold outcome
  cases g.run t with
  | ok b later => simp [and_comm]
  | error e later => simp

theorem Atomic.outcome_eq_error_iff (h : g.Atomic) :
    g.outcome t = .error e ↔ g.run t = .error e t := by
  unfold outcome
  cases hRun : g.run t with
  | ok b later => simp
  | error e' later => simp [h t e' later hRun]

theorem outcome_push (n : Node) : (push n).outcome t = t.push n := rfl

theorem outcome_ofExcept_bind (x : Except TreeError α) (f : α → Growth β) :
    (ofExcept x >>= f).outcome t = x >>= fun a => (f a).outcome t := by
  cases x <;> rfl

theorem outcome_operand_bind (position : Nat) (f : Node → Growth β) :
    (operand position >>= f).outcome t = t.operand position >>= fun n => (f n).outcome t :=
  outcome_ofExcept_bind (t.operand position) f

/-! ## The builders -/

theorem atomic_buffer (dtype : ScalarType) (shape : Shape) (strides : List Nat) (start : Nat) :
    (buffer dtype shape strides start).Atomic :=
  atomic_push _

theorem atomic_hostScalar (dtype : ScalarType) : (hostScalar dtype).Atomic := atomic_push _

theorem atomic_placeholder (level : Nat) : (placeholder level).Atomic := atomic_push _

theorem atomic_dense (dtype : ScalarType) (shape : Shape) : (dense dtype shape).Atomic :=
  (readsOnly_ofExcept _).bind_atomic fun strides => atomic_buffer dtype shape strides 0

theorem atomic_unaryAs (op : UnaryOp) (arg : Nat) (dtype : ScalarType) :
    (unaryAs op arg dtype).Atomic :=
  (readsOnly_operand arg).bind_atomic fun _ => atomic_push _

theorem atomic_unary (op : UnaryOp) (arg : Nat) : (unary op arg).Atomic :=
  (readsOnly_operand arg).bind_atomic fun n => atomic_unaryAs op arg n.dtype

theorem atomic_binary (op : BinaryOp) (lhs rhs : Nat) : (binary op lhs rhs).Atomic := by
  refine (readsOnly_operand lhs).bind_atomic fun l => ?_
  refine (readsOnly_operand rhs).bind_atomic fun r => ?_
  exact (readsOnly_ofExcept _).bind_atomic fun _ => atomic_push _

theorem atomic_assign (target value : Nat) : (assign target value).Atomic :=
  atomic_binary .assign target value

theorem atomic_reduce (op : ReduceOp) (arg : Nat) (axes : List Nat) :
    (reduce op arg axes).Atomic := by
  refine (readsOnly_operand arg).bind_atomic fun n => ?_
  exact (readsOnly_ofExcept _).bind_atomic fun _ => atomic_push _

theorem atomic_reshape (arg : Nat) (shape : Shape) : (reshape arg shape).Atomic := by
  refine (readsOnly_operand arg).bind_atomic fun n => ?_
  -- both counts may overflow, the second one after the first has been taken
  refine (readsOnly_ofExcept _).bind_atomic fun input => ?_
  refine (readsOnly_ofExcept _).bind_atomic fun output => ?_
  split
  · exact atomic_push _
  · exact (readsOnly_throw _).atomic

theorem atomic_transpose (arg : Nat) : (transpose arg).Atomic :=
  (readsOnly_operand arg).bind_atomic fun _ => atomic_push _

theorem atomic_diagonal (arg : Nat) : (diagonal arg).Atomic := by
  refine (readsOnly_operand arg).bind_atomic fun n => ?_
  split
  · exact atomic_push _
  · exact (readsOnly_throw _).atomic

theorem atomic_loop (body : Nat) (bounds : LoopBounds) : (loop body bounds).Atomic :=
  (readsOnly_operand body).bind_atomic fun _ => atomic_push _

end Growth

/-- A call that fails leaves the tree as it was. -/
theorem Tree.Call.atomic_step (c : Tree.Call) : c.step.Atomic := by
  cases c with
  | buffer dtype shape strides start => exact Growth.atomic_buffer dtype shape strides start
  | dense dtype shape => exact Growth.atomic_dense dtype shape
  | hostScalar dtype => exact Growth.atomic_hostScalar dtype
  | placeholder level => exact Growth.atomic_placeholder level
  | unary op arg => exact Growth.atomic_unary op arg
  | unaryAs op arg dtype => exact Growth.atomic_unaryAs op arg dtype
  | binary op lhs rhs => exact Growth.atomic_binary op lhs rhs
  | assign target value => exact Growth.atomic_assign target value
  | reduce op arg axes => exact Growth.atomic_reduce op arg axes
  | reshape arg shape => exact Growth.atomic_reshape arg shape
  | transpose arg => exact Growth.atomic_transpose arg
  | diagonal arg => exact Growth.atomic_diagonal arg
  | loop body bounds => exact Growth.atomic_loop body bounds

end ArrayKernel
