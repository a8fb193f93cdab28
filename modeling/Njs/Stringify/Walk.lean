import Njs.Stringify.Serialize

/-!
# The iterator and the recursion

What the iterator appends is what the recursion gives, laid out. The states are the arrays and
objects that are open.
-/

namespace Njs.Stringify

open Njs.Json (Call Dtoa)

variable {settings : Settings} {m m' m'' : Machine} {state : State} {below : List State}
  {calls : List Call} {depth level : ℕ} {v : Value} {name : Option Text} {tokens : List Token}
  {parts : List (List Token)}

/-- The iterator comes from a state to another one. -/
def Leads (settings : Settings) (m m' : Machine) : Prop :=
  ∃ n, iterate settings n m = .running m'

theorem Leads.refl (m : Machine) : Leads settings m m := ⟨0, rfl⟩

theorem Leads.head (hstep : step settings m = .running m') (h : Leads settings m' m'') :
    Leads settings m m'' := by
  obtain ⟨n, hn⟩ := h
  refine ⟨n + 1, ?_⟩
  rw [iterate, hstep]
  exact hn

theorem iterate_trans {n : ℕ} {result : Next} (hm : iterate settings n m = .running m')
    (h : ∃ k, iterate settings k m' = result) : ∃ k, iterate settings k m = result := by
  induction n generalizing m with
  | zero =>
    obtain rfl := Next.running.inj hm
    exact h
  | succ n ih =>
    rw [iterate] at hm
    cases hstep : step settings m with
    | running m₁ =>
      rw [hstep] at hm
      obtain ⟨k, hk⟩ := ih hm
      refine ⟨k + 1, ?_⟩
      rw [iterate, hstep]
      exact hk
    | _ =>
      rw [hstep] at hm
      cases hm

theorem Leads.trans (h : Leads settings m m') (h' : Leads settings m' m'') :
    Leads settings m m'' := by
  obtain ⟨n, hn⟩ := h
  exact iterate_trans hn h'

/-! ## Iterations -/

/-- The calls at the beginning of an iteration. -/
def begun (settings : Settings) (calls : List Call) (state : State) (below : List State) :
    List Call :=
  calls ++ opening settings (brackets state.keys).1 state.index (below.length + 1)

/-- The state behind a key or an element. -/
def State.next (state : State) (written : Bool) : State :=
  { state with index := state.index + 1, written := written }

/-- What is before the value of an item. -/
def itemCalls (settings : Settings) (state : State) (below : List State) (name : Option Text) :
    List Call :=
  separator settings state.written (below.length + 1) ++
    layout settings (below.length + 1) (name.toList.map .key)

theorem step_end (h : (slots settings state.holder state.keys)[state.index]? = none) :
    step settings ⟨state :: below, calls⟩ =
      closeState settings (begun settings calls state below) below (brackets state.keys).2 := by
  obtain ⟨holder, index, _ | keys, written⟩ := state
  · simp only [slots, List.getElem?_mapIdx, Option.map_eq_none_iff] at h
    simp only [step, stepArray, h, brackets, begun, List.length_cons]
  · simp only [slots, List.getElem?_map, Option.map_eq_none_iff] at h
    simp only [step, stepObject, h, brackets, begun, List.length_cons]

theorem step_skip (h : (slots settings state.holder state.keys)[state.index]? = some none) :
    step settings ⟨state :: below, calls⟩ =
      .running ⟨state.next state.written :: below, begun settings calls state below⟩ := by
  obtain ⟨holder, index, _ | keys, written⟩ := state
  · simp only [slots, List.getElem?_mapIdx, Option.map_eq_some_iff] at h
    obtain ⟨x, -, hx⟩ := h
    cases hx
  · simp only [slots, List.getElem?_map, Option.map_eq_some_iff] at h
    obtain ⟨key, hkey, hentry⟩ := h
    simp only [entry] at hentry
    simp only [step, stepObject, hkey, brackets, begun, State.next, List.length_cons]
    split_ifs at hentry with hskipped hundefined
    · rw [if_pos hskipped]
    · rw [if_neg hskipped, if_pos hundefined]

theorem step_item
    (h : (slots settings state.holder state.keys)[state.index]? = some (some (name, v))) :
    ∃ written, step settings ⟨state :: below, calls⟩ =
      if v.jsonIsObject then
        pushStringifyState settings ⟨state.next written :: below,
          begun settings calls state below ++ itemCalls settings state below name⟩ v
      else .running ⟨state.next true :: below,
        begun settings calls state below ++ itemCalls settings state below name ++
          [appendValue v]⟩ := by
  obtain ⟨holder, index, _ | keys, written⟩ := state
  · simp only [slots, List.getElem?_mapIdx, Option.map_eq_some_iff] at h
    obtain ⟨x, hx, hitem⟩ := h
    obtain ⟨rfl, rfl⟩ := Prod.mk.inj (Option.some.inj hitem)
    refine ⟨written, ?_⟩
    simp only [step, stepArray, hx, brackets, begun, itemCalls, State.next, List.length_cons,
      Option.toList_none, List.map_nil, layout, List.append_nil]
  · simp only [slots, List.getElem?_map, Option.map_eq_some_iff] at h
    obtain ⟨key, hkey, hentry⟩ := h
    simp only [entry] at hentry
    split_ifs at hentry with hskipped hundefined
    obtain ⟨rfl, rfl⟩ := Prod.mk.inj (Option.some.inj hentry)
    refine ⟨true, ?_⟩
    simp only [step, stepObject, hkey, brackets, begun, itemCalls, State.next, List.length_cons,
      if_neg hskipped, if_neg hundefined, Option.toList_some, List.map_cons, List.map_nil, layout,
      List.append_nil, List.append_assoc]

/-! ## The recursion -/

/-- A value that is nested at most so deep is pushed, and what it is written as is appended. -/
def Pushes (settings : Settings) (depth : ℕ) : Prop :=
  ∀ v tokens state below calls, v.jsonIsObject = true →
    serialize settings depth v = some tokens → below.length + 1 + depth ≤ Json.maxDepth →
    ∃ m, pushStringifyState settings ⟨state :: below, calls⟩ v = .running m ∧
      Leads settings m ⟨{ state with written := true } :: below,
        calls ++ layout settings (below.length + 1) tokens⟩

theorem layout_item (h : Balanced tokens) (written : Bool) (name : Option Text) (level : ℕ)
    (more : List Token) :
    layout settings level
        ((if written then [.comma] else []) ++ (name.toList.map .key ++ tokens) ++ more) =
      separator settings written level ++ layout settings level (name.toList.map .key) ++
        layout settings level tokens ++ layout settings level more := by
  have hcomma : Balanced (if written then [.comma] else []) := by
    cases written <;> exact fun _ => rfl
  have hname : Balanced (name.toList.map .key) := by
    cases name <;> exact fun _ => rfl
  have hseparator : layout settings level (if written then [.comma] else []) =
      separator settings written level := by
    cases written with
    | false => rfl
    | true => exact List.append_nil _
  rw [(hcomma.append (hname.append h)).layout_append, hcomma.layout_append, hname.layout_append,
    hseparator]
  simp only [List.append_assoc]

/-- What is left to do for a state. -/
theorem walk_rest {rest : List (Option (Option Text × Value))} (hpushes : Pushes settings depth)
    (hdepth : below.length + 1 + depth ≤ Json.maxDepth)
    (done : List (Option (Option Text × Value)))
    (hslots : slots settings state.holder state.keys = done ++ rest)
    (hindex : state.index = done.length)
    (hparts : rest.reduceOption.mapM (itemTokens (serialize settings depth)) = some parts) :
    ∃ written calls', Leads settings ⟨state :: below, calls⟩
        ⟨{ state with index := (done ++ rest).length, written := written } :: below, calls'⟩ ∧
      calls' ++ opening settings (brackets state.keys).1 (done ++ rest).length (below.length + 1) =
        begun settings calls state below ++
          layout settings (below.length + 1) (restTokens state.written parts) := by
  induction rest generalizing done state calls parts with
  | nil =>
    obtain rfl := Option.some.inj hparts
    refine ⟨state.written, calls, ?_, ?_⟩
    · rw [List.append_nil, ← hindex]
      exact .refl _
    · rw [List.append_nil, ← hindex]
      cases hwritten : state.written <;> simp [begun, restTokens, layout]
  | cons slot rest ih =>
    have hslot : (slots settings state.holder state.keys)[state.index]? = some slot := by
      rw [hslots, hindex, List.getElem?_append_right le_rfl, Nat.sub_self]
      rfl
    rw [List.append_cons] at hslots ⊢
    have hnext : ∀ written, (state.next written).index = (done ++ [slot]).length := by
      intro written
      rw [List.length_append, List.length_singleton, ← hindex]
      rfl
    have hbegun : ∀ written calls', begun settings calls' (state.next written) below = calls' := by
      intro written calls'
      exact List.append_nil calls'
    cases slot with
    | none =>
      obtain ⟨written, calls', hleads, hcalls⟩ := @ih (state.next state.written)
        (begun settings calls state below) parts (done ++ [none]) hslots (hnext _) hparts
      rw [hbegun] at hcalls
      exact ⟨written, calls', .head (step_skip hslot) hleads, hcalls⟩
    | some item =>
      obtain ⟨part, parts, hpart, hrest, rfl⟩ := mapM_cons_some hparts
      obtain ⟨tokens, hvalue, rfl⟩ := itemTokens_some hpart
      have hbalanced := serialize_balanced hvalue
      obtain ⟨pushed, hstep⟩ := @step_item settings state below calls item.2 item.1 hslot
      obtain ⟨written, calls', hleads, hcalls⟩ := @ih (state.next true)
        (begun settings calls state below ++ itemCalls settings state below item.1 ++
          layout settings (below.length + 1) tokens) parts (done ++ [some item]) hslots (hnext _)
        hrest
      rw [hbegun] at hcalls
      have hitem : Leads settings ⟨state :: below, calls⟩ ⟨state.next true :: below,
          begun settings calls state below ++ itemCalls settings state below item.1 ++
            layout settings (below.length + 1) tokens⟩ := by
        cases hobject : item.2.jsonIsObject with
        | true =>
          rw [hobject, if_pos rfl] at hstep
          obtain ⟨m, hpush, hpushed⟩ := hpushes item.2 tokens (state.next pushed) below
            (begun settings calls state below ++ itemCalls settings state below item.1) hobject
            hvalue hdepth
          exact .head (hstep.trans hpush) hpushed
        | false =>
          rw [hobject, if_neg Bool.false_ne_true] at hstep
          rw [serialize_leaf hobject] at hvalue
          obtain rfl := Option.some.inj hvalue
          exact .head hstep (.refl _)
      refine ⟨written, calls', hitem.trans hleads, hcalls.trans ?_⟩
      rw [restTokens_cons, layout_item hbalanced]
      simp only [itemCalls, List.append_assoc]
      rfl

/-- What is done for a state, up to its bracket at the end. -/
theorem walk_state (hpushes : Pushes settings depth)
    (hdepth : below.length + 1 + depth ≤ Json.maxDepth) (hindex : state.index = 0)
    (hwritten : state.written = false)
    (htokens : stateTokens settings (serialize settings depth) state = some tokens) :
    ∃ m, Leads settings ⟨state :: below, calls⟩ m ∧ step settings m =
      popStringifyState (calls ++ layout settings below.length tokens) below := by
  obtain ⟨parts, hparts, rfl⟩ := Option.map_eq_some_iff.mp htokens
  have hslots : slots settings state.holder state.keys =
      [] ++ slots settings state.holder state.keys := rfl
  obtain ⟨written, calls', hleads, hcalls⟩ := @walk_rest settings state below calls depth parts _
    hpushes hdepth [] hslots hindex hparts
  refine ⟨_, hleads, ?_⟩
  have hend := @step_end settings { state with
    index := (slots settings state.holder state.keys).length, written := written } below calls'
    (List.getElem?_eq_none le_rfl)
  have hbalanced :=
    restTokens_balanced (parts_balanced (fun _ _ => serialize_balanced) hparts) false
  have hfirst : opening settings (brackets state.keys).1 0 (below.length + 1) =
      .append [(brackets state.keys).1] :: stringifyIndent settings (below.length + 1) := rfl
  rw [List.nil_append] at hcalls
  rw [List.nil_append, hend, closeState, begun]
  simp only [hcalls, begun, hindex, hwritten, hfirst]
  simp only [layout, List.cons_append, List.append_assoc]
  rw [show [Token.comma].intercalate parts = restTokens false parts from rfl,
    hbalanced.layout_append]
  simp only [layout, List.append_nil, Nat.add_sub_cancel]

theorem newState_index (v : Value) : (newState settings v).index = 0 := by
  cases v <;> rfl

theorem newState_written (v : Value) : (newState settings v).written = false := by
  cases v <;> rfl

theorem pushes (settings : Settings) (depth : ℕ) : Pushes settings depth := by
  induction depth with
  | zero =>
    intro v tokens state below calls hobject htokens
    rw [serialize_zero hobject] at htokens
    cases htokens
  | succ depth ih =>
    intro v tokens state below calls hobject htokens hdepth
    rw [serialize_succ hobject] at htokens
    have hroom : ¬(state :: below).length ≥ Json.maxDepth := by
      rw [List.length_cons]
      omega
    obtain ⟨m, hleads, hstep⟩ := @walk_state settings (newState settings v) (state :: below) calls
      depth tokens ih (by rw [List.length_cons]; omega) (newState_index v) (newState_written v)
      htokens
    exact ⟨_, if_neg hroom, hleads.trans (.head hstep (.refl _))⟩

/-- The tokens of a value in its wrapper. -/
def wrapperTokens (settings : Settings) (v : Value) : Option (List Token) :=
  stateTokens settings (serialize settings (Json.maxDepth - 1))
    ⟨.wrapper v, 0, some (stateKeys settings (.wrapper v)), false⟩

/-- The iterator appends what the recursion gives, laid out. -/
theorem iterate_done (h : wrapperTokens settings v = some tokens) :
    ∃ n, iterate settings n (start settings v) = .done (layout settings 0 tokens) := by
  obtain ⟨m, ⟨n, hn⟩, hstep⟩ := @walk_state settings
    ⟨.wrapper v, 0, some (stateKeys settings (.wrapper v)), false⟩ [] [] _ tokens
    (pushes settings _) le_rfl rfl rfl h
  refine iterate_trans hn ⟨1, ?_⟩
  rw [iterate, hstep]
  rfl

/-- The iterator is done once. -/
theorem iterate_done_unique {i j : ℕ} {calls' : List Call}
    (h : iterate settings i m = .done calls) (h' : iterate settings j m = .done calls') :
    calls = calls' := by
  induction i generalizing j m with
  | zero => cases h
  | succ i ih =>
    cases j with
    | zero => cases h'
    | succ j =>
      rw [iterate] at h h'
      cases hstep : step settings m with
      | running m₁ =>
        rw [hstep] at h h'
        exact ih h h'
      | done calls =>
        rw [hstep] at h h'
        exact (Next.done.inj h).symm.trans (Next.done.inj h')
      | _ =>
        rw [hstep] at h
        cases h

end Njs.Stringify
