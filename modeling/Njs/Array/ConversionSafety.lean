import Njs.Array.Reentrancy

/-!
# Re-entrancy of argument conversion

The code that a conversion runs may be any sequence of the methods that change the array.
The four methods that convert their arguments after they have read the length are safe if
and only if what they select still fits the array.
-/

namespace Njs.Array

variable {α : Type} {pool : Pool α} {s s' : State α}

/-! ## Functions of the script -/

/-- Every operation, with any numbers, keeps the header consistent and leaves the blocks
that do not belong to the array alone. -/
theorem step_changes (hok : s.Ok) (op : Op α) :
    Lib.Outcome (step pool op) s (fun _ s' => s'.Ok ∧ Changes s s')
      (fun _ s' => s'.Ok ∧ Changes s s') := by
  obtain ⟨hfresh, l, hholds⟩ := hok
  have hexact : op.Exact → Lib.Outcome (step pool op) s (fun _ s' => s'.Ok ∧ Changes s s')
      (fun _ s' => s'.Ok ∧ Changes s s') := by
    intro hop
    refine (step_spec hfresh hholds hop).mono ?_ ?_
    · rintro r s' ⟨l', -, hholds', hchanges⟩
      exact ⟨hholds'.ok hchanges.fresh, hchanges⟩
    · rintro e s' ⟨hun, -⟩
      exact ⟨(hun.holds hholds).ok hun.changes.fresh, hun.changes⟩
  rcases op with values | - | - | values | args | num | ⟨index, v⟩
  · exact hexact trivial
  · exact hexact trivial
  · exact hexact trivial
  · exact hexact trivial
  · have hlength := hholds.length_eq
    have hrun : ∃ r, (spliceRange args.toArguments).run s = some (.ok r, s) := by
      rcases args with - | n | ⟨n, m, items⟩
      · exact ⟨_, rfl⟩
      · exact ⟨_, rfl⟩
      · exact ⟨_, rfl⟩
    obtain ⟨r, hrun⟩ := hrun
    obtain ⟨-, st, d, rfl, hle⟩ :=
      (spliceRange_spec ⟨hfresh, l, hholds⟩ args.toArguments).of_run_ok hrun
    have hsplice : Lib.Outcome (arraySplice pool args.toArguments) s
        (fun deleted s' => (∃ l, Holds s' deleted l) ∧ s'.Ok ∧ Changes s s')
        (fun _ s' => s'.Ok ∧ Changes s s') := by
      refine .bind_ok hrun ((spliceItems_spec hfresh hholds (by omega)
        args.toArguments.items_length).mono ?_ ?_)
      · rintro deleted s' ⟨hdeleted, hholds', hchanges⟩
        exact ⟨⟨_, hdeleted⟩, hholds'.ok hchanges.fresh, hchanges⟩
      · rintro e s' ⟨-, hun⟩
        exact ⟨(hun.holds hholds).ok hun.changes.fresh, hun.changes⟩
    refine .bind hsplice ?_
    rintro deleted s' ⟨⟨dl, hdeleted⟩, h⟩
    exact .bind_ok (readElements_run hdeleted) (.pure h)
  · exact hexact trivial
  · exact hexact trivial

/-- The state after a function of the script has done the operations, whether or not they
throw. -/
def runOps (pool : Pool α) : List (Op α) → State α → State α
  | [], s => s
  | op :: ops, s =>
    match (step pool op).run s with
    | some (_, s') => runOps pool ops s'
    | none => s

theorem runOps_changes (hok : s.Ok) (ops : List (Op α)) :
    (runOps pool ops s).Ok ∧ Changes s (runOps pool ops s) := by
  induction ops generalizing s with
  | nil => exact ⟨hok, .refl hok.1⟩
  | cons op ops ih =>
    have hstep : ∃ r s₁, (step pool op).run s = some (r, s₁) ∧ s₁.Ok ∧ Changes s s₁ := by
      rcases (step_changes hok op).cases with
        ⟨b, s₁, hrun, h⟩ | ⟨e, s₁, hrun, h⟩
      · exact ⟨_, s₁, hrun, h⟩
      · exact ⟨_, s₁, hrun, h⟩
    obtain ⟨r, s₁, hrun, hok₁, hchanges⟩ := hstep
    have hrest := ih hok₁
    have heq : runOps pool (op :: ops) s = runOps pool ops s₁ := by
      simp only [runOps, hrun]
    rw [heq]
    exact ⟨hrest.1, hchanges.trans hrest.2⟩

/-- A function of the script that does the operations and returns a value. -/
def UserCode.ofOps {β : Type} (pool : Pool α) (ops : List (Op α)) (b : β) : UserCode α β where
  run s := (.ok b, runOps pool ops s)
  keeps _ hok := (runOps_changes hok ops).1
  changes _ hok := (runOps_changes hok ops).2

/-! ## The methods together -/

/-- A call of one of the methods. -/
inductive Call (α : Type)
  | splice (args : SpliceArguments α)
  | slice (start stop : Argument α)
  | fill (v : α) (start stop : Argument α)
  | copyWithin (dst src stop : Argument α)

/-- The call is safe. -/
def Call.Safe (pool : Pool α) (s : State α) : Call α → Prop
  | splice args => Array.Safe (arraySplice pool args) s
  | slice start stop => Array.Safe (arraySlice pool start stop) s
  | fill v start stop => Array.Safe (arrayFill v start stop) s
  | copyWithin dst src stop => Array.Safe (arrayCopyWithin pool dst src stop) s

/-- What the converted arguments select from the length before the conversions fits the
array after them. -/
def Call.Fits (s : State α) : Call α → Prop
  | splice args => ∀ st d s', (spliceRange args).run s = some (.ok (st, d), s') →
      SpliceFits s'.array st.toNat d.toNat args.items.length
  | slice start stop => ∀ st n s', (sliceRange start stop).run s = some (.ok (st, n), s') →
      SliceFits s'.array st.toNat n.toNat
  | fill _ start stop => ∀ i j s', (fillRange start stop).run s = some (.ok (i, j), s') →
      FillFits s'.array i.toNat j.toNat
  | copyWithin dst src stop => ∀ i j n s',
      (copyWithinRange dst src stop).run s = some (.ok (i, j, n), s') →
        CopyWithinFits s' i.toNat j.toNat n.toNat

/-- An array whose header fits its block. -/
structure OkState (α : Type) where
  state : State α
  ok : state.Ok

/-- A call is safe, whatever the allocator does, if and only if what it selects fits the
array after the conversions. -/
theorem conversions_safe_iff (s : OkState α) (call : Call α) :
    (∀ pool, call.Safe pool s.state) ↔ call.Fits s.state := by
  rcases call with args | ⟨start, stop⟩ | ⟨v, start, stop⟩ | ⟨dst, src, stop⟩
  · exact arraySplice_safe_iff s.ok args
  · exact arraySlice_safe_iff s.ok start stop
  · have : Nonempty (Pool α) := ⟨.unlimited α⟩
    exact (forall_const (Pool α)).trans (arrayFill_safe_iff s.ok v start stop)
  · exact arrayCopyWithin_safe_iff s.ok dst src stop

/-- The array `[1, 2, 3]`. -/
def oneTwoThree : State ℕ where
  heap := fun b => if b = 0 then some [some 1, some 2, some 3] else none
  requests := 1
  array := { data := 0, start := 0, size := 3, length := 3 }
  hash := []

theorem oneTwoThree_ok : oneTwoThree.Ok := by
  refine ⟨fun b hb => ?_, _, [some 1, some 2, some 3], ⟨rfl, rfl, by decide, by decide⟩, rfl⟩
  have hpos : 1 ≤ b := hb
  exact if_neg (by omega)

/-- `a.splice(0, x)` for `a` of `[1, 2, 3]`, where the conversion of `x` sets `a.length` to
zero and returns 1, moves a negative number of elements. -/
theorem not_conversions_safe :
    ¬∀ (α : Type) (s : State α), s.Ok → ∀ (call : Call α) (pool : Pool α), call.Safe pool s := by
  intro h
  let shrink : UserCode ℕ Number :=
    .ofOps (.unlimited ℕ) [.setLength (.finite 0)] (.finite 1)
  let args : SpliceArguments ℕ := .delete (.number (.finite 0)) (.object shrink) ⟨[], by decide⟩
  have hnone : (arraySplice (.unlimited ℕ) args).run oneTwoThree = none :=
    Option.isNone_iff_eq_none.mp (by decide +kernel)
  exact not_safe_of_none hnone (h ℕ oneTwoThree oneTwoThree_ok (.splice args) (.unlimited ℕ))

end Njs.Array
