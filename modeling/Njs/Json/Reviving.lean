import Njs.Json.Holes
import Njs.Json.Loading

/-!
# `JSON.parse()` with a reviver

A parsed value is revived as it should be if it is an array or an object, and if no element of an
array is deleted: a value of another kind is returned as it is, and an element for which the
reviver returns `undefined` stays.
-/

namespace Njs.Json

open Njs.Objects (Name Value)

variable {ctx : Context} {reading : Reading} {strtod : Strtod} {depth : ℕ} {p q : List UInt8}
  {t v : Tree} {ms : List (List UInt8 × Tree)}

/-! ## Parsed values -/

theorem lastWins_sublist (ms : List (List UInt8 × Tree)) : (lastWins ms).Sublist ms := by
  induction ms with
  | nil => exact .refl []
  | cons m ms ih =>
    rw [lastWins]
    split_ifs
    · exact ih.cons m
    · exact ih.cons_cons m

theorem lastWins_nodup (ms : List (List UInt8 × Tree)) :
    ((lastWins ms).map Prod.fst).Nodup := by
  induction ms with
  | nil => exact List.nodup_nil
  | cons m ms ih =>
    rw [lastWins]
    split_ifs with hmem
    · exact ih
    · refine List.nodup_cons.mpr ⟨fun h => hmem ?_, ih⟩
      exact ((lastWins_sublist ms).map Prod.fst).subset h

theorem Elements.forall {V : Grammar Tree} {P : Tree → Prop} {vs : List Tree}
    (hV : ∀ p v q, V p v q → P v) (h : Elements V p vs q) : ∀ v ∈ vs, P v := by
  induction h with
  | last hbefore hvalue hafter => exact List.forall_mem_singleton.mpr (hV _ _ _ hvalue)
  | cons hbefore hvalue hafter hrest ih => exact List.forall_mem_cons.mpr ⟨hV _ _ _ hvalue, ih⟩

theorem Members.forall {V : Grammar Tree} {P : Tree → Prop} (hV : ∀ p v q, V p v q → P v)
    (h : Members reading V p ms q) : ∀ m ∈ ms, P m.2 := by
  have hmember : ∀ {p m q}, Member reading V p m q → P m.2 := by
    rintro _ _ _ ⟨-, -, -, hvalue⟩
    exact hV _ _ _ hvalue
  induction h with
  | last hbefore hm hafter => exact List.forall_mem_singleton.mpr (hmember hm)
  | cons hbefore hm hafter hrest ih => exact List.forall_mem_cons.mpr ⟨hmember hm, ih⟩

theorem Scalar.fits (h : Scalar strtod reading p v q) : v.Fits depth := by
  cases h <;> (cases depth <;> trivial)

/-- The value of a text is nested no deeper than the parser allows. -/
theorem ValueText.fits (h : ValueText strtod reading depth p v q) : v.Fits depth := by
  induction depth generalizing p v q with
  | zero => exact Scalar.fits h
  | succ depth ih =>
    rcases h with h | ⟨vs, rfl, h⟩ | ⟨ms, rfl, h⟩
    · exact h.fits
    · cases h with
      | empty => exact List.forall_mem_nil _
      | elements h => exact h.forall fun _ _ _ => ih
    · refine ⟨lastWins_nodup ms, fun t ht => ?_⟩
      obtain ⟨m, hm, rfl⟩ := List.mem_map.mp ht
      have hmem := (lastWins_sublist ms).subset hm
      cases h with
      | empty => cases hmem
      | members h => exact h.forall (P := Tree.Fits depth) (fun _ _ _ => ih) m hmem

theorem jsonParse_fits (h : jsonParse ctx = .ok t) : t.Fits (maxDepth - 1) := by
  obtain ⟨p, q, -, htext, -⟩ := jsonParse_sound h
  exact ValueText.fits htext

/-- `njs_json_wrap_value`, with the value that was parsed: the wrapper and the memory. -/
def wrapValue (t : Tree) (pool : Pool) : Value × Pool :=
  let r := load (maxDepth - 1) t pool
  r.2.newObject [[]] [r.1]

/-! ## The wrapper -/

/-- A value is the only property of an object, and what is in it is apart from the object. -/
structure Wrapped (heap : Heap) (wrapper : Value) (owned : Set ℕ) (o : ℕ) (c : Container)
    (t : Tree) : Prop where
  wrapper_eq : wrapper = .object o
  container : heap.container (.object o) = some c
  array : c.array = none
  live : heap.Live (.object o) (.property [])
  apart : Apart heap owned o
  holds : Holds heap (maxDepth - 1) owned (heap.get (.object o) (.property [])) t

theorem wrapValue_wrapped (h : t.Fits (maxDepth - 1)) (pool : Pool) :
    ∃ owned o c, Wrapped (wrapValue t pool).2.heap (wrapValue t pool).1 owned o c t := by
  have hfits : (Tree.object [([], t)]).Fits maxDepth :=
    ⟨List.nodup_singleton _, List.forall_mem_singleton.mpr h⟩
  have hholds := (load_holds hfits pool).2
  rcases hholds with ⟨x, hx, -⟩ | ⟨o, inside, heq, hnode, hchildren⟩
  · cases hx
  · obtain ⟨hlive, hin⟩ := hchildren (.property []) t rfl
    obtain ⟨c, hc, harray, -⟩ := hnode.shapes
    exact ⟨_, o, c, Option.some.inj heq, hc, harray, hlive, hnode.apart_inside _, hin⟩

variable {heap : Heap} {wrapper result : Value} {owned : Set ℕ} {o : ℕ} {c : Container}
  {f : PureReviver} {order : VisitOrder} {s s' : Trace} {m m' : Machine (List ReviverCall)}
  {x y : Option Value}

/-- The iterator returns once. -/
theorem iterate_returned_unique {i j : ℕ} {engine : Engine (List ReviverCall)}
    {m₀ : Machine (List ReviverCall)} (hm : iterate engine i m₀ = .running m)
    (hx : step engine m = .returned x)
    (hm' : iterate engine j m₀ = .running m') (hy : step engine m' = .returned y) :
    x = y ∧ m = m' := by
  induction i generalizing j m₀ with
  | zero =>
    obtain rfl := Next.running.inj hm
    cases j with
    | zero =>
      obtain rfl := Next.running.inj hm'
      exact ⟨Next.returned.inj (hx.symm.trans hy), rfl⟩
    | succ j =>
      rw [iterate, hx] at hm'
      cases hm'
  | succ i ih =>
    rw [iterate] at hm
    cases hstep : step engine m₀ with
    | running m₁ =>
      rw [hstep] at hm
      cases j with
      | zero =>
        obtain rfl := Next.running.inj hm'
        rw [hstep] at hy
        cases hy
      | succ j =>
        rw [iterate, hstep] at hm'
        exact ih hm hm'
    | _ =>
      rw [hstep] at hm
      cases hm

/-- The iterator calls the reviver for all that is in the wrapper, and returns the result of the
last call. -/
theorem Wrapped.iterates (h : Wrapped heap wrapper owned o c t) (f : PureReviver)
    (order : VisitOrder) :
    ∃ r s n m, internalize f order false maxDepth wrapper (.property []) ⟨heap, []⟩ =
        some (r, s) ∧ iterate (f.engine order) n (start [] heap wrapper [[]]) = .running m ∧
      step (f.engine order) m = .returned (some r) ∧ m.script = s.calls := by
  obtain rfl := h.wrapper_eq
  have hat : State.At ⟨.object o, 0, some [[]], none⟩ (.property []) := ⟨[[]], rfl, rfl⟩
  have hvisit : Visits f order maxDepth o (.property []) owned ⟨heap, []⟩
      ⟨.object o, 0, some [[]], none⟩ [] none :=
    visit le_rfl rfl hat h.live ⟨c, h.container⟩ h.apart h.holds
  obtain ⟨r, s, prop, hsome, -, n, hn⟩ := hvisit
  exact ⟨r, s, n, _, hsome, hn, rfl, rfl⟩

/-- If the value is in no container, the reviver is not called. -/
theorem not_revivedRight_of_none
    (hnone : (heap.get wrapper (.property [])).bind heap.container = none) :
    ¬RevivedRight f order heap wrapper := by
  rintro ⟨r, s, hsome, hrevives⟩
  unfold Revives at hrevives
  rw [hnone] at hrevives
  obtain ⟨call, hcall, -⟩ := internalize_goesOn hsome
  rw [hrevives.2] at hcall
  exact absurd (List.prefix_nil.mp hcall) (by simp)

/-- The value is in a container if it is an array or an object. -/
theorem Wrapped.container_eq_none_iff (h : Wrapped heap wrapper owned o c t) :
    (heap.get wrapper (.property [])).bind heap.container = none ↔ t.scalar ≠ none := by
  obtain rfl := h.wrapper_eq
  rcases h.holds with ⟨x, hx, hget, hnone⟩ | ⟨o', inside, hget, hnode, -⟩
  · rw [hget, Option.bind_some, hnone, hx]
    simp
  · obtain ⟨c', hc', hshapes⟩ := hnode.shapes
    rw [hget, Option.bind_some, hc']
    cases t with
    | array | object => simp [Tree.scalar]
    | _ => exact hshapes.elim

theorem Wrapped.revives_iff (h : Wrapped heap wrapper owned o c t) (ht : t.scalar = none)
    {calls : List ReviverCall} {r : Value} {s : Trace}
    (hsome : internalize f order false maxDepth wrapper (.property []) ⟨heap, []⟩ = some (r, s)) :
    Revives f order heap wrapper (some result) calls ↔ result = r ∧ calls = s.calls := by
  obtain ⟨r', s', n, m, hsome', hiterate, hstep, hscript⟩ := h.iterates f order
  obtain ⟨rfl, rfl⟩ := Prod.mk.inj (Option.some.inj (hsome.symm.trans hsome'))
  have hcontainer := mt h.container_eq_none_iff.mp (not_not_intro ht)
  obtain ⟨c', hc'⟩ := Option.ne_none_iff_exists'.mp hcontainer
  unfold Revives
  rw [hc']
  constructor
  · rintro ⟨n', m', hiterate', hstep', rfl⟩
    obtain ⟨hresult, rfl⟩ := iterate_returned_unique hiterate hstep hiterate' hstep'
    exact ⟨(Option.some.inj hresult).symm, hscript⟩
  · rintro ⟨rfl, rfl⟩
    exact ⟨n, m, hiterate, hstep, hscript⟩

/-- The iterator does what the recursion of ECMAScript does, up to a call for an element that
returns `undefined`. -/
theorem Wrapped.compare (h : Wrapped heap wrapper owned o c t)
    {r r' : Value} (hsome : internalize f order true maxDepth wrapper (.property []) ⟨heap, []⟩ =
      some (r, s))
    (hsome' : internalize f order false maxDepth wrapper (.property []) ⟨heap, []⟩ =
      some (r', s')) :
    r = r' ∧ s = s' ∧ (∀ call ∈ s.calls, call.Kept) ∨ Parted s s' := by
  obtain rfl := h.wrapper_eq
  rcases internalize_compare (s := ⟨heap, []⟩) h.container
      (by rw [h.array]; rfl) h.apart h.holds (List.forall_mem_nil _) hsome hsome' with
    ⟨rfl, rfl, inner, own, hcalls, hinner, -, hown⟩ | hparted
  · refine Or.inl ⟨rfl, rfl, fun call hcall => ?_⟩
    rw [hcalls, List.mem_append, List.mem_singleton] at hcall
    rcases hcall with hcall | rfl
    · exact hinner call hcall
    · intro helement
      rw [hown] at helement
      cases helement
  · exact Or.inr hparted

theorem Wrapped.keepsElements (h : Wrapped heap wrapper owned o c t)
    (hright : RevivedRight f order heap wrapper) :
    t.scalar = none ∧ KeepsElements f order heap wrapper := by
  obtain ⟨r', s', -, -, hsome', -⟩ := h.iterates f order
  have ht : t.scalar = none := by
    by_contra hne
    exact not_revivedRight_of_none (h.container_eq_none_iff.mpr hne) hright
  obtain ⟨r, s, hsome, hrevives⟩ := hright
  obtain ⟨rfl, hcalls⟩ := (h.revives_iff ht hsome').mp hrevives
  refine ⟨ht, fun r₁ s₁ hsome₁ => ?_⟩
  obtain ⟨rfl, rfl⟩ := Prod.mk.inj (Option.some.inj (hsome₁.symm.trans hsome))
  rcases h.compare hsome hsome' with ⟨-, -, hkept⟩ | ⟨hstrays, -⟩
  · exact hkept
  · exact absurd hcalls hstrays.ne

/-- A value that was parsed is revived as it should be exactly if it is an array or an object,
and the reviver does not return `undefined` for an element of an array. -/
theorem revivedRight_iff (hparse : jsonParse ctx = .ok t) (f : PureReviver) (order : VisitOrder)
    (pool : Pool) :
    RevivedRight f order (wrapValue t pool).2.heap (wrapValue t pool).1 ↔
      t.scalar = none ∧ KeepsElements f order (wrapValue t pool).2.heap (wrapValue t pool).1 := by
  obtain ⟨owned, o, c, h⟩ := wrapValue_wrapped (jsonParse_fits hparse) pool
  constructor
  · exact h.keepsElements
  · rintro ⟨ht, hkeeps⟩
    obtain ⟨r', s', -, -, hsome', -⟩ := h.iterates f order
    obtain ⟨r, s, hsome, -⟩ := internalize_total (s := ⟨(wrapValue t pool).2.heap, []⟩) f order
      true h.holds
    rw [← h.wrapper_eq] at hsome
    refine ⟨r, s, hsome, ?_⟩
    rcases h.compare hsome hsome' with ⟨rfl, rfl, -⟩ | ⟨-, call, hcall, hnot⟩
    · exact (h.revives_iff ht hsome').mpr ⟨rfl, rfl⟩
    · exact absurd (hkeeps r s hsome call hcall) hnot

/-- A memory without objects. -/
def Pool.empty : Pool where
  heap := ⟨fun _ => none, fun _ => ⟨false, none⟩⟩
  next := 0
  free _ _ := rfl
  slots _ _ _ _ h := nomatch h
  primitive _ _ := rfl

/-- A reviver that returns what it gets, except one value. -/
def PureReviver.forgetting (forgotten : Value) : PureReviver where
  apply heap _ _ v := (if v = some forgotten then .undefined else v.getD .undefined, heap)
  unchanged heap _ _ _ := .refl heap

/-- The properties in the order of the hash. -/
def VisitOrder.ofHash : VisitOrder := ⟨id, List.Perm.refl⟩

/-- A text that is parsed with all the memory that is needed. -/
def plain (text : List UInt8) : Context := ⟨.unrounded, text, fun _ _ => true⟩

/-- The text `null`. -/
def nullText : List UInt8 := [110, 117, 108, 108]

/-- The text `[null]`. -/
def nullArray : List UInt8 := beginArray :: (nullText ++ [endArray])

theorem keepsElements_of_results (results : List (Bool × Value))
    (h : (internalize f order true maxDepth wrapper (.property []) ⟨heap, []⟩).map
      (fun r => r.2.calls.map fun call => (call.isElement, call.result)) = some results) :
    KeepsElements f order heap wrapper ↔ ∀ r ∈ results, r.1 = true → r.2 ≠ .undefined := by
  obtain ⟨⟨r, s⟩, hsome, rfl⟩ := Option.map_eq_some_iff.mp h
  simp only [List.forall_mem_map]
  constructor
  · exact fun hkeeps => hkeeps r s hsome
  · intro hresults r' s' hsome'
    obtain ⟨rfl, rfl⟩ := Prod.mk.inj (Option.some.inj (hsome'.symm.trans hsome))
    exact hresults

/-- `JSON.parse("[null]", f)` where `f` returns its value. -/
theorem revivedRight_nullArray : jsonParse (plain nullArray) = .ok (.array [.null]) ∧
    RevivedRight (.forgetting .undefined) .ofHash (wrapValue (.array [.null]) .empty).2.heap
      (wrapValue (.array [.null]) .empty).1 := by
  have hresults : KeepsElements (.forgetting .undefined) .ofHash
      (wrapValue (.array [.null]) .empty).2.heap (wrapValue (.array [.null]) .empty).1 :=
    (keepsElements_of_results [(true, .null), (false, .object 0)] (by decide)).mpr (by decide)
  have hparse : jsonParse (plain nullArray) = .ok (.array [.null]) := rfl
  exact ⟨hparse, (revivedRight_iff hparse _ _ _).mpr ⟨rfl, hresults⟩⟩

/-- `JSON.parse("null", f)` does not call `f`, and in `JSON.parse("[null]", f)` the element for
which `f` returns `undefined` is not deleted. -/
theorem not_revivedRight : (jsonParse (plain nullText) = .ok .null ∧
      ¬RevivedRight (.forgetting .undefined) .ofHash (wrapValue .null .empty).2.heap
        (wrapValue .null .empty).1) ∧
    jsonParse (plain nullArray) = .ok (.array [.null]) ∧
      ¬RevivedRight (.forgetting .null) .ofHash (wrapValue (.array [.null]) .empty).2.heap
        (wrapValue (.array [.null]) .empty).1 := by
  have hparse : jsonParse (plain nullArray) = .ok (.array [.null]) := rfl
  refine ⟨⟨rfl, not_revivedRight_of_none rfl⟩, hparse, fun hright => ?_⟩
  obtain ⟨owned, o, c, h⟩ := wrapValue_wrapped (jsonParse_fits hparse) .empty
  have hkeeps := (h.keepsElements hright).2
  rw [keepsElements_of_results [(true, .undefined), (false, .object 0)] (by decide)] at hkeeps
  exact hkeeps (true, .undefined) List.mem_cons_self rfl rfl

end Njs.Json
