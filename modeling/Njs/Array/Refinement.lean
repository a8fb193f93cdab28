import Njs.Array.Elements

/-!
# Arrays refine lists

The abstract array is a list in which `none` stands for a hole, and its operations are those
of ECMAScript. A run of the methods of `njs_array.c` does to the elements what the
operations do to the list, in a block that the elements fit at every step.
-/

namespace Njs.Array

variable {α : Type} {pool : Pool α} {s s' : State α} {l l' : List (Option α)}

/-! ## Lists with holes -/

/-- The index that an argument stands for in a list, from its end if it is negative. -/
def relativeIndex (n : Number) (length : ℕ) : ℕ :=
  match n with
  | .nan => 0
  | .posInfinity => length
  | .negInfinity => 0
  | .finite q =>
    if truncate q < 0 then ((length : ℤ) + truncate q).toNat
    else min (truncate q).toNat length

/-- The number of elements that an argument stands for, where there are so many at most. -/
def clampCount (n : Number) (bound : ℕ) : ℕ :=
  match n with
  | .nan => 0
  | .posInfinity => bound
  | .negInfinity => 0
  | .finite q => min (truncate q).toNat bound

/-- The length that a number stands for. -/
def lengthOf : Number → Option ℕ
  | .finite q => if q.den = 1 ∧ 0 ≤ q.num ∧ q.num < 2 ^ 32 then some q.num.toNat else none
  | _ => none

/-- The numeric arguments of `splice`. -/
inductive SpliceNumbers (α : Type)
  | none
  | start (start : Number)
  | delete (start deleteCount : Number) (items : ArgumentList α)

/-- The arguments of the method. -/
def SpliceNumbers.toArguments : SpliceNumbers α → SpliceArguments α
  | none => .none
  | start n => .start (.number n)
  | delete n m items => .delete (.number n) (.number m) items

/-- The first of the deleted elements and how many they are. -/
def SpliceNumbers.range (length : ℕ) : SpliceNumbers α → ℕ × ℕ
  | none => (0, 0)
  | start n => (relativeIndex n length, length - relativeIndex n length)
  | delete n m _ =>
    (relativeIndex n length, clampCount m (length - relativeIndex n length))

/-- The items that take the place of the deleted elements. -/
def SpliceNumbers.items : SpliceNumbers α → List α
  | delete _ _ items => items.values
  | _ => []

/-- An operation on an array. -/
inductive Op (α : Type)
  | push (values : ArgumentList α)
  | pop
  | shift
  | unshift (values : ArgumentList α)
  | splice (args : SpliceNumbers α)
  | setLength (num : Number)
  | setIndex (index : ℕ) (v : α)

/-- The value of an operation. Where a value is missing it is `undefined`. -/
inductive Reply (α : Type)
  | length (n : ℕ)
  | value (v : Option α)
  | items (deleted : List (Option α))
  | done
  deriving DecidableEq

/-- An operation on a list: its value and the list after it, or an exception. -/
def listStep (l : List (Option α)) : Op α → Except Exception (Reply α × List (Option α))
  | .push values =>
    .ok (.length (l ++ values.values.map some).length, l ++ values.values.map some)
  | .pop => .ok (.value l.getLast?.join, l.dropLast)
  | .shift => .ok (.value l.head?.join, l.tail)
  | .unshift values =>
    .ok (.length (values.values.map some ++ l).length, values.values.map some ++ l)
  | .splice args =>
    .ok (.items ((l.drop (args.range l.length).1).take (args.range l.length).2),
      l.take (args.range l.length).1 ++ args.items.map some ++
        l.drop ((args.range l.length).1 + (args.range l.length).2))
  | .setLength num =>
    match lengthOf num with
    | some n => .ok (.done, l.take n ++ List.replicate (n - l.length) none)
    | none => .error (.rangeError "Invalid array length")
  | .setIndex index v => .ok (.done, assign l index v)

/-- The elements of an array. -/
def readElements (a : ArrayObject) : Vm α (List (Option α)) := do
  let s ← get
  match s.heap.readAll a.data a.start a.length with
  | some l => return l
  | none => undefinedBehaviour

/-- An operation on the array. -/
def step (pool : Pool α) : Op α → Vm α (Reply α)
  | .push values => do return .length (← arrayPush pool values)
  | .pop => do return .value (← arrayPop)
  | .shift => do return .value (← arrayShift)
  | .unshift values => do return .length (← arrayUnshift pool values)
  | .splice args => do
    let deleted ← arraySplice pool args.toArguments
    return .items (← readElements deleted)
  | .setLength num => do
    setArrayLength pool num
    return .done
  | .setIndex index v => do
    setArrayIndex pool index v
    return .done

/-! ## Numbers -/

theorem relativeIndex_le (n : Number) (length : ℕ) : relativeIndex n length ≤ length := by
  unfold relativeIndex
  split
  · omega
  · exact le_rfl
  · omega
  · split_ifs <;> omega

theorem clampCount_le (n : Number) (bound : ℕ) : clampCount n bound ≤ bound := by
  unfold clampCount
  split <;> omega

theorem SpliceNumbers.range_le (args : SpliceNumbers α) (length : ℕ) :
    (args.range length).1 + (args.range length).2 ≤ length := by
  rcases args with - | n | ⟨n, m, items⟩
  · simp [range]
  · have hle := relativeIndex_le n length
    simp only [range]
    omega
  · have hle := relativeIndex_le n length
    have hcount := clampCount_le m (length - relativeIndex n length)
    simp only [range]
    omega

/-- Where a number is not reduced modulo `2 ^ 32`, its conversion is exact. -/
theorem numberToInt64_of_exact {q : ℚ} (h : (Number.finite q).Exact) :
    numberToInt64 q = truncate q := by
  unfold numberToInt64
  rw [if_neg]
  rintro (hlt | hlt)
  · exact absurd h.1 (not_le.mpr hlt)
  · exact absurd h.2 (not_le.mpr hlt)

theorem spliceStart_eq {n : Number} {length : ℕ} (h : n.Exact) (hlength : length ≤ maxLength) :
    spliceStart (numberToInteger n) length = relativeIndex n length := by
  have hmax : maxLength < 2 ^ 28 := by decide
  unfold spliceStart relativeIndex
  rcases n with - | - | - | q
  · simp only [numberToInteger]
    split_ifs <;> omega
  · simp only [numberToInteger, int64Max]
    split_ifs <;> omega
  · simp only [numberToInteger, int64Min]
    split_ifs <;> omega
  · simp only [numberToInteger, numberToInt64_of_exact h]
    split_ifs <;> omega

theorem spliceDelete_eq {n : Number} {bound : ℕ} (h : n.Exact) (hbound : bound ≤ maxLength) :
    spliceDelete (numberToInteger n) bound = clampCount n bound := by
  have hmax : maxLength < 2 ^ 28 := by decide
  unfold spliceDelete clampCount
  rcases n with - | - | - | q
  · simp only [numberToInteger]
    split_ifs <;> omega
  · simp only [numberToInteger, int64Max]
    split_ifs <;> omega
  · simp only [numberToInteger, int64Min]
    split_ifs <;> omega
  · simp only [numberToInteger, numberToInt64_of_exact h]
    split_ifs <;> omega

theorem lengthOf_eq_some_iff {num : Number} {n : ℕ} : lengthOf num = some n ↔ IsLength num n := by
  constructor
  · intro h
    rcases num with - | - | - | q
    · cases h
    · cases h
    · cases h
    · simp only [lengthOf] at h
      split_ifs at h with hq
      obtain ⟨hden, h0, hlt⟩ := hq
      obtain rfl := Option.some.inj h
      refine ⟨by omega, ?_⟩
      congr 1
      refine Rat.ext ?_ ?_
      · rw [Rat.num_natCast, Int.toNat_of_nonneg h0]
      · rw [hden, Rat.den_natCast]
  · rintro ⟨hlt, rfl⟩
    simp only [lengthOf]
    rw [if_pos ⟨Rat.den_natCast n, by rw [Rat.num_natCast]; omega, by rw [Rat.num_natCast]; omega⟩,
      Rat.num_natCast, Int.toNat_natCast]

/-- No number of the arguments is converted with `fmod`. -/
def SpliceNumbers.Exact : SpliceNumbers α → Prop
  | none => True
  | start n => n.Exact
  | delete n m _ => n.Exact ∧ m.Exact

/-- No number of the operation is reduced modulo `2 ^ 32`. -/
def Op.Exact : Op α → Prop
  | splice args => args.Exact
  | _ => True

/-! ## One step -/

theorem spliceRange_run {args : SpliceNumbers α} (h : args.Exact)
    (hlength : s.array.length ≤ maxLength) :
    (spliceRange args.toArguments).run s =
      some (.ok (((args.range s.array.length).1 : ℤ), ((args.range s.array.length).2 : ℤ)), s) := by
  rcases args with - | n | ⟨n, m, items⟩
  · rfl
  · have hstart := spliceStart_eq h hlength
    have hle := relativeIndex_le n s.array.length
    have hdelete : (s.array.length : ℤ) - relativeIndex n s.array.length =
        ((s.array.length - relativeIndex n s.array.length : ℕ) : ℤ) := by omega
    change some (Except.ok (spliceStart (numberToInteger n) s.array.length,
      (s.array.length : ℤ) - spliceStart (numberToInteger n) s.array.length), s) = _
    rw [hstart, hdelete]
    rfl
  · have hstart := spliceStart_eq h.1 hlength
    have hle := relativeIndex_le n s.array.length
    have hdelete : (s.array.length : ℤ) - relativeIndex n s.array.length =
        ((s.array.length - relativeIndex n s.array.length : ℕ) : ℤ) := by omega
    have hcount := @spliceDelete_eq _ (s.array.length - relativeIndex n s.array.length) h.2
      (by omega)
    change some (Except.ok (spliceStart (numberToInteger n) s.array.length,
      spliceDelete (numberToInteger m)
        ((s.array.length : ℤ) - spliceStart (numberToInteger n) s.array.length)), s) = _
    rw [hstart, hdelete, hcount]
    rfl

/-- `splice` with numbers that are converted exactly. -/
theorem arraySplice_spec {args : SpliceNumbers α} (hfresh : s.Fresh) (h : Holds s s.array l)
    (hargs : args.Exact) :
    Lib.Outcome (arraySplice pool args.toArguments) s
      (fun deleted s' =>
        Holds s' deleted ((l.drop (args.range l.length).1).take (args.range l.length).2) ∧
        Holds s' s'.array (l.take (args.range l.length).1 ++ args.items.map some ++
          l.drop ((args.range l.length).1 + (args.range l.length).2)) ∧ Changes s s')
      (Failed s) := by
  have hlength := h.length_eq
  have hmax : s.array.length ≤ maxLength :=
    Nat.le_trans (Nat.le_trans (by rw [← hlength]; omega) h.room) h.size_le
  have hitems : args.toArguments.items = args.items := by
    rcases args with - | - | - <;> rfl
  have hbound := args.toArguments.items_length
  unfold arraySplice
  refine .bind_ok (spliceRange_run hargs hmax) ?_
  rw [hitems] at hbound ⊢
  rw [← hlength]
  exact spliceItems_spec hfresh h (args.range_le l.length) hbound

theorem readElements_run {a : ArrayObject} (h : Holds s a l) :
    (readElements a).run s = some (.ok l, s) := by
  obtain ⟨cells, hfits, rfl⟩ := h
  have hread : s.heap.readAll a.data a.start a.length =
      some (Lib.window cells a.start a.length) :=
    Lib.Blocks.readAll_eq hfits.live (by rw [hfits.size]; exact hfits.room)
  change (match s.heap.readAll a.data a.start a.length with
    | some l => (pure l : Vm α (List (Option α)))
    | none => undefinedBehaviour).run s = _
  rw [hread]
  rfl

/-- A step on the array does what the operation does to the list of its elements, or it
throws and leaves the array as it was. -/
theorem step_spec {op : Op α} (hfresh : s.Fresh) (h : Holds s s.array l) (hop : op.Exact) :
    Lib.Outcome (step pool op) s
      (fun r s' => ∃ l', listStep l op = .ok (r, l') ∧ Holds s' s'.array l' ∧ Changes s s')
      (fun e s' => Unchanged s s' ∧
        (e = .engine .memoryError ∨ ∃ e', listStep l op = .error e' ∧ e = .engine e')) := by
  have hfailed : ∀ e s', Failed s e s' → Unchanged s s' ∧
      (e = .engine .memoryError ∨ ∃ e', listStep l op = .error e' ∧ e = .engine e') :=
    fun e s' he => ⟨he.2, Or.inl he.1⟩
  rcases op with values | - | - | values | args | num | ⟨index, v⟩
  · refine .bind ((arrayPush_spec hfresh h values).mono (fun _ _ h => h) hfailed) ?_
    rintro n s₁ ⟨rfl, hholds, hchanges⟩
    exact .pure ⟨_, rfl, hholds, hchanges⟩
  · refine .bind ((arrayPop_spec hfresh h).mono (fun _ _ h => h) hfailed) ?_
    rintro v s₁ ⟨rfl, hholds, hchanges⟩
    exact .pure ⟨_, rfl, hholds, hchanges⟩
  · refine .bind ((arrayShift_spec hfresh h).mono (fun _ _ h => h) hfailed) ?_
    rintro v s₁ ⟨rfl, hholds, hchanges⟩
    exact .pure ⟨_, rfl, hholds, hchanges⟩
  · refine .bind ((arrayUnshift_spec hfresh h values).mono (fun _ _ h => h) hfailed) ?_
    rintro n s₁ ⟨rfl, hholds, hchanges⟩
    exact .pure ⟨_, rfl, hholds, hchanges⟩
  · refine .bind ((arraySplice_spec hfresh h hop).mono (fun _ _ h => h) hfailed) ?_
    rintro deleted s₁ ⟨hdeleted, hholds, hchanges⟩
    exact .bind_ok (readElements_run hdeleted) (.pure ⟨_, rfl, hholds, hchanges⟩)
  · refine .bind ((setArrayLength_spec hfresh h num).mono (fun _ _ h => h) ?_) ?_
    · rintro e s' (⟨hnum, rfl, rfl⟩ | he)
      · refine ⟨.refl hfresh, Or.inr ⟨.rangeError "Invalid array length", ?_, rfl⟩⟩
        have hnone : lengthOf num = none := by
          rw [Option.eq_none_iff_forall_ne_some]
          exact fun n hn => hnum ⟨n, lengthOf_eq_some_iff.mp hn⟩
        simp only [listStep, hnone]
      · exact hfailed e s' he
    · rintro - s₁ ⟨n, hn, hholds, hchanges⟩
      refine .pure ⟨_, ?_, hholds, hchanges⟩
      simp only [listStep, lengthOf_eq_some_iff.mpr hn]
  · refine .bind ((setArrayIndex_spec hfresh h index v).mono (fun _ _ h => h) hfailed) ?_
    rintro - s₁ ⟨hholds, hchanges⟩
    exact .pure ⟨_, rfl, hholds, hchanges⟩

/-! ## Runs -/

/-- A pool that grants every request. -/
def Pool.unlimited (α : Type) : Pool α where
  grants := fun _ => true
  garbage := fun _ _ => none

/-- A memory without blocks. -/
def State.empty (α : Type) : State α where
  heap := fun _ => none
  requests := 0
  array := { data := 0, start := 0, size := 0, length := 0 }
  hash := []

end Njs.Array
