import Scoping.Handle

/-!
# The stack of active scopes

A reader of a program enters a scope when a construct begins and leaves it when
the construct ends. The scope at the bottom is never left.
-/

namespace Scoping

/-- The scopes that are open, innermost last. There is always one at the bottom. -/
@[ext]
structure ScopeStack where
  scopes : Array ScopeId
  rooted : 0 < scopes.size
deriving DecidableEq

namespace ScopeStack

/-- No scope entered above `root`. -/
def new (root : ScopeId) : ScopeStack := ⟨#[root], Nat.one_pos⟩

/-- Enter a scope. -/
def push (st : ScopeStack) (s : ScopeId) : ScopeStack :=
  ⟨st.scopes.push s, Array.size_push s ▸ Nat.succ_pos _⟩

/-- The innermost scope. -/
def current (st : ScopeStack) : ScopeId :=
  have := st.rooted
  st.scopes[st.scopes.size - 1]

/-- Leave the innermost scope and tell which it was; the bottom stays. -/
def pop (st : ScopeStack) : Option ScopeId × ScopeStack :=
  if above : 1 < st.scopes.size then
    (some st.current, ⟨st.scopes.pop, Array.size_pop ▸ Nat.sub_pos_of_lt above⟩)
  else (none, st)

/-- How many scopes are entered above the bottom. -/
def depth (st : ScopeStack) : Nat := st.scopes.size - 1

@[simp]
theorem current_push (st : ScopeStack) (s : ScopeId) : (st.push s).current = s := by
  simp [current, push]

@[simp]
theorem depth_push (st : ScopeStack) (s : ScopeId) : (st.push s).depth = st.depth + 1 := by
  have := st.rooted
  simp only [depth, push, Array.size_push]
  omega

/-- Leaving a scope right after entering it restores the stack. -/
@[simp]
theorem pop_push (st : ScopeStack) (s : ScopeId) : (st.push s).pop = (some s, st) := by
  have above : 1 < (st.push s).scopes.size := by
    rw [push, Array.size_push]
    exact Nat.succ_lt_succ st.rooted
  rw [pop, dif_pos above, current_push]
  exact Prod.ext rfl (ScopeStack.ext Array.pop_push)

/-- At the bottom there is nothing to leave. -/
theorem pop_of_depth_eq_zero {st : ScopeStack} (lowest : st.depth = 0) :
    st.pop = (none, st) := by
  have low : ¬ 1 < st.scopes.size := Nat.not_lt.mpr (Nat.sub_eq_zero_iff_le.mp lowest)
  rw [pop, dif_neg low]

/-- The last of the scopes is the innermost one. -/
theorem getElem?_current (st : ScopeStack) :
    st.scopes[st.scopes.size - 1]? = some st.current :=
  Array.getElem?_eq_getElem (Nat.sub_lt st.rooted Nat.one_pos)

end ScopeStack

end Scoping
