import SymbolIndex.Symbol.Kind

/-! A value for each symbol category. -/

namespace SymbolIndex

structure PerCategory (α : Type) where
  types : α
  funcs : α
  vars : α
  deriving DecidableEq, Inhabited

namespace PerCategory

variable {α β : Type}

def same (a : α) : PerCategory α := ⟨a, a, a⟩

def get (x : PerCategory α) : Category → α
  | .type => x.types
  | .func => x.funcs
  | .var => x.vars

def set (x : PerCategory α) (c : Category) (a : α) : PerCategory α :=
  match c with
  | .type => { x with types := a }
  | .func => { x with funcs := a }
  | .var => { x with vars := a }

def modify (x : PerCategory α) (c : Category) (f : α → α) : PerCategory α := x.set c (f (x.get c))

def build (f : Category → α) : PerCategory α := ⟨f .type, f .func, f .var⟩

@[simp] theorem get_build (f : Category → α) (c : Category) : (build f).get c = f c := by
  cases c <;> rfl

@[simp] theorem get_same (a : α) (c : Category) : (same a).get c = a := by cases c <;> rfl

theorem get_set (x : PerCategory α) (c d : Category) (a : α) :
    (x.set c a).get d = if d = c then a else x.get d := by
  cases c <;> cases d <;> rfl

theorem get_modify (x : PerCategory α) (c d : Category) (f : α → α) :
    (x.modify c f).get d = if d = c then f (x.get d) else x.get d := by
  cases c <;> cases d <;> rfl

theorem ext_get {x y : PerCategory α} (h : ∀ c, x.get c = y.get c) : x = y := by
  cases x; cases y
  have ht := h .type; have hf := h .func; have hv := h .var
  cases ht; cases hf; cases hv; rfl

end PerCategory

end SymbolIndex
