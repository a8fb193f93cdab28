import Mathlib.Data.Nat.Basic

/-!
# Results of the embedded functions

A C function of the repository either returns, or throws a JavaScript exception
and returns `NJS_ERROR`, or does something that C leaves undefined. The last
outcome is part of the model, so that its absence can be proved.
-/

namespace Njs

/-- The exceptions thrown by the functions of the model, with the format of the
message and the byte strings put into it. -/
inductive Exception
  | memoryError
  | rangeError (message : String)
  | typeError (format : String) (args : List (List UInt8))
  | uriError
  deriving DecidableEq

/-- Why a function does not return a value. -/
inductive Stop
  /-- `NJS_ERROR` with an exception in `vm->retval`. -/
  | throw (e : Exception)
  /-- An access outside an allocated object, which C leaves undefined. -/
  | fault
  deriving DecidableEq

/-- The outcome of a function of the source. -/
abbrev Result (α : Type) : Type := Except Stop α

/-- What the functions of the model do not control: which requests `njs_mp_alloc`
grants, and the stale contents of the memory that it returns. -/
structure Env where
  /-- Whether an allocation of so many bytes succeeds. -/
  mpAlloc : ℕ → Bool
  /-- Byte `i` of a fresh block. -/
  garbage : ℕ → UInt8

-- Unfolding `bind` itself would make the kernel compare numbers in the value in unary.
theorem ok_bind {ε α β : Type} (a : α) (f : α → Except ε β) : (Except.ok a >>= f) = f a := rfl

/-- The result is a value with the property `P`, unless an allocation was refused,
in which case a memory error is thrown. -/
def Returns {α : Type} (env : Env) (x : Result α) (P : α → Prop) : Prop :=
  (∃ a, x = .ok a ∧ P a) ∨ (x = .error (.throw .memoryError) ∧ ∃ n, env.mpAlloc n = false)

theorem Returns.ok {α : Type} {env : Env} {x : Result α} {P : α → Prop} {a : α}
    (h : x = .ok a) (ha : P a) : Returns env x P :=
  Or.inl ⟨a, h, ha⟩

/-- Where every request is granted, the value is there. -/
theorem Returns.exists_ok {α : Type} {env : Env} {x : Result α} {P : α → Prop}
    (h : Returns env x P) (henv : ∀ n, env.mpAlloc n = true) : ∃ a, x = .ok a ∧ P a := by
  rcases h with h | ⟨-, n, hn⟩
  · exact h
  · simp [henv n] at hn

/-- A property of the returned value may be weakened. -/
theorem Returns.mono {α : Type} {env : Env} {x : Result α} {P Q : α → Prop}
    (h : Returns env x P) (himp : ∀ a, P a → Q a) : Returns env x Q := by
  rcases h with ⟨a, hx, ha⟩ | h
  · exact Or.inl ⟨a, hx, himp a ha⟩
  · exact Or.inr h

/-- A function that goes on with the value of another. -/
theorem Returns.bind {α β : Type} {env : Env} {x : Result α} {f : α → Result β}
    {P : α → Prop} {Q : β → Prop} (h : Returns env x P)
    (hf : ∀ a, P a → Returns env (f a) Q) : Returns env (x >>= f) Q := by
  rcases h with ⟨a, rfl, ha⟩ | ⟨rfl, hn⟩
  · exact hf a ha
  · exact Or.inr ⟨rfl, hn⟩

end Njs
