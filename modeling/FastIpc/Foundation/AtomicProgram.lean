import Mathlib.Logic.Function.Basic

/-!
# Sequential programs over atomic shared locations

A `Prog` is the code of one call as an observer of the shared state sees it: a
tree of atomic loads and stores that ends in a result.  An interleaving executes one
access of one of several programs at a time; a crash stops one program between two
of its stores.

Main results:

- Definition `Prog.bind` and its reduction lemmas let code be written with
  `do` and reduced to its tree of accesses by `simp`.
- Definition `Prog.LoadOnly`: programs without a store.
- Definition `Prog.advance` runs a program up to its next store, which is the
  unit of progress that survives a crash.
- Definition `Prog.storeTrace`: the locations a program stores to.
- Definition `Prog.outcome`: the result for given values of the loads.
-/

namespace FastIpc
namespace Foundation

/-- A sequential program over locations `Loc` holding values `Val`. -/
inductive Prog (Loc Val α : Type) where
  | ret (result : α)
  | load (loc : Loc) (next : Val → Prog Loc Val α)
  | store (loc : Loc) (value : Val) (next : Prog Loc Val α)

namespace Prog

variable {Loc Val α β : Type}

/-- Sequential composition of programs. -/
def bind : Prog Loc Val α → (α → Prog Loc Val β) → Prog Loc Val β
  | .ret a, f => f a
  | .load x next, f => .load x fun v => bind (next v) f
  | .store x v next, f => .store x v (bind next f)

instance : Monad (Prog Loc Val) where
  pure := .ret
  bind := bind

@[simp]
theorem pure_eq (a : α) : (pure a : Prog Loc Val α) = .ret a := rfl

@[simp]
theorem ret_bind (a : α) (f : α → Prog Loc Val β) : (Prog.ret a >>= f) = f a := rfl

@[simp]
theorem load_bind (x : Loc) (next : Val → Prog Loc Val α) (f : α → Prog Loc Val β) :
    (Prog.load x next >>= f) = .load x fun v => next v >>= f :=
  rfl

@[simp]
theorem store_bind (x : Loc) (v : Val) (next : Prog Loc Val α) (f : α → Prog Loc Val β) :
    (Prog.store x v next >>= f) = .store x v (next >>= f) :=
  rfl

/-- A program that never stores, whatever it loads. -/
inductive LoadOnly : Prog Loc Val α → Prop where
  | ret (a : α) : LoadOnly (.ret a)
  | load {x : Loc} {next : Val → Prog Loc Val α} (h : ∀ v, LoadOnly (next v)) :
      LoadOnly (.load x next)

/-- The result of a program that loads every location at most once, if its loads find the values
`seen`. -/
def outcome (seen : Loc → Val) : Prog Loc Val α → α
  | .ret a => a
  | .load x next => outcome seen (next (seen x))
  | .store _ _ next => outcome seen next

@[simp]
theorem outcome_ret (seen : Loc → Val) (a : α) : outcome seen (.ret a) = a := rfl

@[simp]
theorem outcome_load (seen : Loc → Val) (x : Loc) (next : Val → Prog Loc Val α) :
    outcome seen (.load x next) = outcome seen (next (seen x)) :=
  rfl

@[simp]
theorem outcome_store (seen : Loc → Val) (x : Loc) (v : Val) (next : Prog Loc Val α) :
    outcome seen (.store x v next) = outcome seen next :=
  rfl

variable [DecidableEq Loc]

/-- Run a program up to and including its next store: the memory after it and the
rest of the program, or nothing when only loads are left. -/
def advance (mem : Loc → Val) : Prog Loc Val α → Option ((Loc → Val) × Prog Loc Val α)
  | .ret _ => none
  | .load x next => advance mem (next (mem x))
  | .store x v next => some (Function.update mem x v, next)

@[simp]
theorem advance_ret (mem : Loc → Val) (a : α) : advance mem (.ret a : Prog Loc Val α) = none := rfl

@[simp]
theorem advance_load (mem : Loc → Val) (x : Loc) (next : Val → Prog Loc Val α) :
    advance mem (.load x next) = advance mem (next (mem x)) :=
  rfl

@[simp]
theorem advance_store (mem : Loc → Val) (x : Loc) (v : Val) (next : Prog Loc Val α) :
    advance mem (.store x v next) = some (Function.update mem x v, next) :=
  rfl

/-- The locations a program stores to when it runs alone to its end. -/
def storeTrace (mem : Loc → Val) : Prog Loc Val α → List Loc
  | .ret _ => []
  | .load x next => storeTrace mem (next (mem x))
  | .store x v next => x :: storeTrace (Function.update mem x v) next

end Prog

end Foundation
end FastIpc
