import Mathlib.Data.List.Forall2
import Mathlib.Data.List.Nodup
import Njs.Number
import Njs.Regexp.Engine
import Njs.Result

/-!
# Named groups

The name table of a compiled pattern, the groups that `njs_regexp_pattern_create` makes of it, and
the object that `njs_regexp_exec_result` makes of the groups. A read behind the end of the table,
of the captures or of the array is a fault.
-/

namespace Njs.Regexp

open Str

/-- The fields of `njs_regex_t` behind `njs_regex_compile`. `ncaptures` counts the whole match. -/
structure Compiled where
  ncaptures : ℕ
  nentries : ℕ
  entrySize : ℕ
  entries : List UInt8

/-- What `njs_regexp_pattern_compile` gives. -/
inductive Compilation
  | compiled (regex : Compiled)
  /-- `NJS_DECLINED`. -/
  | declined
  /-- `NJS_ERROR`. -/
  | failed

/-- `njs_regexp_group_t`. -/
structure Group where
  name : List UInt8
  capture : ℕ
  deriving DecidableEq

/-- The fields of `njs_regexp_pattern_t` that the groups depend on. -/
structure NamedPattern where
  ncaptures : ℕ
  groups : List Group
  deriving DecidableEq

/-- The bytes in front of the terminating zero. -/
def cString : List UInt8 → Result (List UInt8)
  | [] => .error .fault
  | c :: p => if c = 0 then .ok [] else cString p >>= fun name => .ok (c :: name)

/-- A `char`, which has a sign. -/
def signedChar (c : UInt8) : ℤ := if c.toNat < 128 then c.toNat else (c.toNat : ℤ) - 256

/-- `njs_regex_named_captures` for an entry: the name and the number that is returned. -/
def namedCaptures (regex : Compiled) (n : ℕ) : Result (List UInt8 × ℤ) :=
  -- `NJS_ERROR`, where the name is not set.
  if regex.nentries ≤ n then .error .fault
  else
    match regex.entries.drop (regex.entrySize * n) with
    | entry0 :: entry1 :: start =>
      cString start >>= fun name => .ok (name, signedChar entry0 * 2 ^ 8 + signedChar entry1)
    | _ => .error .fault

/-- The loop of `njs_regexp_pattern_create` for so many groups. -/
def groupsFrom (regex : Compiled) : ℕ → ℕ → Result (List Group)
  | 0, _ => .ok []
  | count + 1, n => do
    let (name, capture) ← namedCaptures regex n
    let groups ← groupsFrom regex count (n + 1)
    return ⟨name, unsigned 32 capture⟩ :: groups

/-- `njs_regexp_pattern_create` behind the two compilations. The numbers of captures and of groups
have 16 bits. -/
def patternCreate (byte utf8 : Compilation) : Result (Option NamedPattern) :=
  match byte, utf8 with
  | .failed, _ | _, .failed | .declined, .declined => .ok none
  | .compiled regex, .declined | .declined, .compiled regex => do
    let groups ← groupsFrom regex (regex.nentries % 2 ^ 16) 0
    return some ⟨regex.ncaptures % 2 ^ 16, groups⟩
  | .compiled regex, .compiled regex' =>
    -- `regexp pattern compile failed`.
    if regex'.ncaptures ≠ regex.ncaptures % 2 ^ 16 then .ok none
    else do
      let groups ← groupsFrom regex (regex.nentries % 2 ^ 16) 0
      return some ⟨regex'.ncaptures % 2 ^ 16, groups⟩

/-- A capture vector: the whole match and the groups, without those that took no part. -/
abbrev CaptureVector := List (Option (ℕ × ℕ))

/-- The elements of the array of a match. -/
def elements (kind : Kind) (text : List UInt8) :
    ℕ → CaptureVector → Result (List (Option StringProp))
  | 0, _ => .ok []
  | _ + 1, [] => .error .fault
  | n + 1, capture :: captures => do
    let rest ← elements kind text n captures
    return capture.map (captureString kind text) :: rest

/-- The loop of `njs_regexp_exec_result` for the groups, or nothing where a name is there
already. -/
def groupLoop (array : List (Option StringProp)) :
    List Group → List (List UInt8 × Option StringProp) →
      Result (Option (List (List UInt8 × Option StringProp)))
  | [], object => .ok (some object)
  | group :: groups, object =>
    match array[group.capture]? with
    | none => .error .fault
    | some value =>
      if group.name ∈ object.map Prod.fst then .ok none
      else groupLoop array groups (object ++ [(group.name, value)])

/-- What `njs_regexp_exec_result` gives: the array and the properties of `groups`, which may be
`undefined`. -/
inductive Named
  | result (array : List (Option StringProp))
      (groups : Option (List (List UInt8 × Option StringProp)))
  /-- `lvlhsh insert failed`. -/
  | internalError
  deriving DecidableEq

/-- `njs_regexp_exec_result`. -/
def execNamed (pattern : NamedPattern) (kind : Kind) (text : List UInt8)
    (captures : CaptureVector) : Result Named := do
  let array ← elements kind text pattern.ncaptures captures
  if pattern.groups = [] then return .result array none
  else
    match ← groupLoop array pattern.groups [] with
    | some object => return .result array (some object)
    | none => return .internalError

/-! ## What the engine documents -/

/-- The table for names with the numbers of their groups. -/
inductive Table (entrySize : ℕ) : List (ℕ × List UInt8) → List UInt8 → Prop
  | nil : Table entrySize [] []
  | cons {named : List (ℕ × List UInt8)} {entries : List UInt8} (k : ℕ) {name : List UInt8}
      (padding : List UInt8) (hname : 0 ∉ name)
      (hsize : 2 + name.length + 1 + padding.length = entrySize)
      (h : Table entrySize named entries) :
      Table entrySize ((k, name) :: named)
        (.ofNat (k / 256) :: .ofNat (k % 256) :: (name ++ 0 :: (padding ++ entries)))

/-- What the engine says of a compiled pattern: it has 65535 groups and ten thousand names at
most. -/
structure Documented (regex : Compiled) (named : List (ℕ × List UInt8)) : Prop where
  table : Table regex.entrySize named regex.entries
  count : regex.nentries = named.length
  names : named.length ≤ 10000
  captures : regex.ncaptures ≤ 2 ^ 16
  numbers : ∀ entry ∈ named, 0 < entry.1 ∧ entry.1 < regex.ncaptures

/-- The variants that were compiled agree. -/
structure Agree (byte utf8 : Compilation) (regex : Compiled) : Prop where
  byte_eq : byte = .compiled regex ∨ byte = .declined
  utf8_eq : utf8 = .compiled regex ∨ utf8 = .declined
  compiled : byte = .compiled regex ∨ utf8 = .compiled regex

/-- There is one property for each name, and its value is the element for the number of the
group. -/
structure Faithful (named : List (ℕ × List UInt8)) (array : List (Option StringProp))
    (groups : Option (List (List UInt8 × Option StringProp))) : Prop where
  undefined : groups = none ↔ named = []
  distinct : ∀ object ∈ groups, (object.map Prod.fst).Nodup
  names : ∀ object ∈ groups, ∀ name, name ∈ object.map Prod.fst ↔ name ∈ named.map Prod.snd
  values : ∀ object ∈ groups, ∀ entry ∈ named, ∃ value,
    array[entry.1]? = some value ∧ (entry.2, value) ∈ object

/-- Every match gives the properties that it should, and nothing outside the array is read. -/
def NamesMatch (regex : Compiled) (named : List (ℕ × List UInt8)) (pattern : NamedPattern) :
    Prop :=
  ∀ kind text whole captures, (some whole :: captures).length = regex.ncaptures →
    ∃ array groups, execNamed pattern kind text (some whole :: captures) =
      .ok (.result array groups) ∧ Faithful named array groups

/-- The bytes of the numbers have no sign, no name occurs twice, and the captures are counted in
16 bits. -/
structure Plain (regex : Compiled) (named : List (ℕ × List UInt8)) : Prop where
  numbers : ∀ entry ∈ named, entry.1 < 2 ^ 15 ∧ entry.1 % 256 < 128
  distinct : (named.map Prod.snd).Nodup
  captures : named ≠ [] → regex.ncaptures < 2 ^ 16

variable {regex : Compiled} {named : List (ℕ × List UInt8)} {name entries rest : List UInt8}
  {array : List (Option StringProp)} {pattern : NamedPattern} {byte utf8 : Compilation}

/-! ## The numbers of the groups -/

/-- The number that is read for a group. -/
def readNumber (k : ℕ) : ℕ :=
  unsigned 32 (signedChar (.ofNat (k / 256)) * 2 ^ 8 + signedChar (.ofNat (k % 256)))

theorem signedChar_ofNat {n : ℕ} (hn : n < 256) :
    signedChar (.ofNat n) = if n < 128 then (n : ℤ) else (n : ℤ) - 256 := by
  have htoNat : (UInt8.ofNat n).toNat = n := UInt8.toNat_ofNat_of_lt' hn
  rw [signedChar, htoNat]

/-- The number is the one of the table exactly if no byte of it has a sign. -/
theorem readNumber_eq_iff {k : ℕ} (hk : k < 2 ^ 16) :
    readNumber k = k ↔ k < 2 ^ 15 ∧ k % 256 < 128 := by
  unfold readNumber unsigned
  rw [signedChar_ofNat (n := k / 256) (by omega), signedChar_ofNat (n := k % 256) (by omega)]
  split_ifs <;> omega

theorem cString_append (hname : 0 ∉ name) : cString (name ++ 0 :: rest) = .ok name := by
  induction name with
  | nil => rfl
  | cons c name ih =>
    rw [List.mem_cons, not_or] at hname
    rw [List.cons_append, cString, if_neg (Ne.symm hname.1), ih hname.2, ok_bind]

/-- The groups of the table from an entry on. -/
theorem groupsFrom_table {n : ℕ} (htable : Table regex.entrySize named entries)
    (hdrop : regex.entries.drop (regex.entrySize * n) = entries)
    (hcount : n + named.length = regex.nentries) : groupsFrom regex named.length n =
      .ok (named.map fun entry => ⟨entry.2, readNumber entry.1⟩) := by
  induction htable generalizing n with
  | nil => rfl
  | @cons named entries k name padding hname hsize h ih =>
    have hentries : .ofNat (k / 256) :: .ofNat (k % 256) :: (name ++ 0 :: (padding ++ entries)) =
        (.ofNat (k / 256) :: .ofNat (k % 256) :: (name ++ 0 :: padding)) ++ entries := by simp
    have hnext : regex.entries.drop (regex.entrySize * (n + 1)) = entries := by
      rw [Nat.mul_succ, ← List.drop_drop, hdrop, hentries]
      apply List.drop_left'
      simp only [List.length_cons, List.length_append]
      omega
    rw [List.length_cons] at hcount ⊢
    have hlt : ¬regex.nentries ≤ n := by omega
    have hentry : namedCaptures regex n = .ok (name,
        signedChar (.ofNat (k / 256)) * 2 ^ 8 + signedChar (.ofNat (k % 256))) := by
      rw [namedCaptures, if_neg hlt, hdrop]
      simp only [cString_append hname, ok_bind]
    rw [groupsFrom, hentry, ok_bind]
    simp only [ih hnext (by omega), ok_bind]
    rfl

/-- The pattern that is made. -/
theorem patternCreate_eq (hagree : Agree byte utf8 regex) (h : Documented regex named)
    (hpattern : patternCreate byte utf8 = .ok (some pattern)) :
    pattern = ⟨regex.ncaptures % 2 ^ 16,
      named.map fun entry => ⟨entry.2, readNumber entry.1⟩⟩ := by
  have hnames := h.names
  have hcount : regex.nentries % 2 ^ 16 = named.length := by
    rw [h.count]
    exact Nat.mod_eq_of_lt (by omega)
  have hgroups := groupsFrom_table h.table (n := 0) (by simp) (by rw [h.count]; omega)
  obtain ⟨hbyte, hutf8, hcompiled⟩ := hagree
  rcases hbyte with rfl | rfl
  · rcases hutf8 with rfl | rfl
    · rw [patternCreate] at hpattern
      split_ifs at hpattern with hne
      · cases hpattern
      · rw [hcount, hgroups, ok_bind] at hpattern
        cases hpattern
        rfl
    · rw [patternCreate, hcount, hgroups, ok_bind] at hpattern
      cases hpattern
      rfl
  · rcases hutf8 with rfl | rfl
    · rw [patternCreate, hcount, hgroups, ok_bind] at hpattern
      cases hpattern
      rfl
    · simp at hcompiled

/-! ## The object -/

variable {kind : Kind} {text : List UInt8} {captures : CaptureVector} {groups : List Group}
  {object object' pairs : List (List UInt8 × Option StringProp)}

theorem elements_eq {n : ℕ} (hn : n ≤ captures.length) : elements kind text n captures =
    .ok ((captures.take n).map (Option.map (captureString kind text))) := by
  induction n generalizing captures with
  | zero => rfl
  | succ n ih =>
    cases captures with
    | nil => simp at hn
    | cons capture captures =>
      rw [elements, ih (Nat.le_of_succ_le_succ hn), ok_bind]
      rfl

/-- The property is the one of the group. -/
def PropertyOf (array : List (Option StringProp)) (group : Group)
    (pair : List UInt8 × Option StringProp) : Prop :=
  pair.1 = group.name ∧ array[group.capture]? = some pair.2

/-- Where the loop gives an object, it has added a property for each group. -/
theorem groupLoop_ok (h : groupLoop array groups object = .ok (some object'))
    (hobject : (object.map Prod.fst).Nodup) :
    ∃ pairs, object' = object ++ pairs ∧ List.Forall₂ (PropertyOf array) groups pairs ∧
      (object'.map Prod.fst).Nodup := by
  induction groups generalizing object with
  | nil =>
    cases h
    exact ⟨[], by simp, .nil, hobject⟩
  | cons group groups ih =>
    rw [groupLoop] at h
    cases hvalue : array[group.capture]? with
    | none => simp [hvalue] at h
    | some value =>
      simp only [hvalue] at h
      split_ifs at h with hmem
      · cases h
      · have hnodup : ((object ++ [(group.name, value)]).map Prod.fst).Nodup := by
          rw [List.map_append, List.map_singleton, ← List.concat_eq_append]
          exact List.Nodup.concat hmem hobject
        obtain ⟨pairs, rfl, hpairs, hnodup'⟩ := ih h hnodup
        exact ⟨(group.name, value) :: pairs, by simp, .cons ⟨rfl, hvalue⟩ hpairs, hnodup'⟩

/-- The loop adds the properties of the groups where no name occurs twice. -/
theorem groupLoop_eq (object : List (List UInt8 × Option StringProp))
    (h : List.Forall₂ (PropertyOf array) groups pairs)
    (hnodup : ((object ++ pairs).map Prod.fst).Nodup) :
    groupLoop array groups object = .ok (some (object ++ pairs)) := by
  induction h generalizing object with
  | nil => simp [groupLoop]
  | @cons group pair groups pairs hpair h ih =>
    obtain ⟨name, value⟩ := pair
    obtain ⟨rfl, hvalue⟩ := hpair
    have happend : object ++ (group.name, value) :: pairs =
        object ++ [(group.name, value)] ++ pairs := by simp
    have hmem : group.name ∉ object.map Prod.fst := by
      intro hmem
      rw [List.map_append, List.nodup_append] at hnodup
      exact hnodup.2.2 _ hmem _ (by simp) rfl
    rw [groupLoop, hvalue]
    simp only [hmem, if_false]
    rw [happend, ih _ (by rwa [← happend])]

/-- The groups of the names. -/
def readGroups (named : List (ℕ × List UInt8)) : List Group :=
  named.map fun entry => ⟨entry.2, readNumber entry.1⟩

/-- The names of the properties are those of the table. -/
theorem names_eq (h : List.Forall₂ (PropertyOf array) (readGroups named) pairs) :
    pairs.map Prod.fst = named.map Prod.snd := by
  rw [readGroups, List.forall₂_map_left_iff] at h
  induction h with
  | nil => rfl
  | cons hpair _ ih => rw [List.map_cons, List.map_cons, hpair.1, ih]

/-- What `exec` does where there are names. -/
theorem execNamed_eq (hnamed : named ≠ []) {n : ℕ} (hn : n ≤ captures.length) :
    execNamed ⟨n, readGroups named⟩ kind text captures =
      (let array := (captures.take n).map (Option.map (captureString kind text))
      groupLoop array (readGroups named) [] >>= fun
        | some object => .ok (.result array (some object))
        | none => .ok .internalError) := by
  have hgroups : readGroups named ≠ [] := by simpa [readGroups] using hnamed
  rw [execNamed, elements_eq hn, ok_bind, if_neg hgroups]
  rfl

/-- With plain numbers and names, every match gives the properties that it should. -/
theorem namesMatch_of_plain (h : Documented regex named) (hplain : Plain regex named) :
    NamesMatch regex named ⟨regex.ncaptures % 2 ^ 16, readGroups named⟩ := by
  intro kind text whole captures hlength
  have hle : regex.ncaptures % 2 ^ 16 ≤ (some whole :: captures).length := by
    rw [hlength]
    exact Nat.mod_le _ _
  by_cases hnamed : named = []
  · have hresult : execNamed ⟨regex.ncaptures % 2 ^ 16, readGroups named⟩ kind text
        (some whole :: captures) = .ok (.result (((some whole :: captures).take
          (regex.ncaptures % 2 ^ 16)).map (Option.map (captureString kind text))) none) := by
      rw [execNamed, elements_eq hle, ok_bind, hnamed]
      rfl
    refine ⟨_, none, hresult, ?_⟩
    constructor <;> simp [hnamed]
  · have hcaptures : regex.ncaptures % 2 ^ 16 = (some whole :: captures).length := by
      rw [hlength]
      exact Nat.mod_eq_of_lt (hplain.captures hnamed)
    rw [execNamed_eq hnamed hle, hcaptures, List.take_length]
    generalize harray : (some whole :: captures).map (Option.map (captureString kind text)) = array
    have hsome (entry) (hentry : entry ∈ named) : array[entry.1]? =
        some (array[entry.1]?.getD none) := by
      have hlt : entry.1 < array.length := by
        rw [← harray, List.length_map, hlength]
        exact (h.numbers entry hentry).2
      simp [hlt]
    have hread (entry) (hentry : entry ∈ named) : readNumber entry.1 = entry.1 := by
      have hlt : entry.1 < 2 ^ 16 :=
        Nat.lt_trans (h.numbers entry hentry).2 (hplain.captures hnamed)
      exact (readNumber_eq_iff hlt).mpr (hplain.numbers entry hentry)
    have hpairs : List.Forall₂ (PropertyOf array) (readGroups named)
        (named.map fun entry => (entry.2, array[entry.1]?.getD none)) := by
      rw [readGroups, List.forall₂_map_left_iff, List.forall₂_map_right_iff, List.forall₂_same]
      intro entry hentry
      refine ⟨rfl, ?_⟩
      dsimp only
      rw [hread entry hentry, ← hsome entry hentry]
    have hnames := names_eq hpairs
    refine ⟨array, some (named.map fun entry => (entry.2, array[entry.1]?.getD none)), ?_, ?_⟩
    · have hloop := groupLoop_eq [] hpairs (by
        rw [List.nil_append, hnames]
        exact hplain.distinct)
      simp only [hloop, ok_bind]
      rfl
    · constructor
      · simp [hnamed]
      · intro object hobject
        cases hobject
        rw [hnames]
        exact hplain.distinct
      · intro object hobject name
        cases hobject
        rw [hnames]
      · intro object hobject entry hentry
        cases hobject
        exact ⟨_, hsome entry hentry, List.mem_map.mpr ⟨entry, hentry, rfl⟩⟩

/-- The vector of a match in which one group took no part. -/
def allBut (k n : ℕ) : CaptureVector :=
  (List.range n).map fun i => if i + 1 = k then none else some (0, 0)

/-- Only the element of that group is undefined. -/
theorem allBut_undefined {k n i : ℕ} (h : ((some (0, 0) :: allBut k n).map
      (Option.map (captureString kind text)))[i]? = some none) : i = k := by
  cases i with
  | zero => simp at h
  | succ i =>
    by_contra hne
    simp only [List.map_cons, List.getElem?_cons_succ, allBut, List.map_map, List.getElem?_map,
      Option.map_eq_some_iff, Function.comp_apply] at h
    obtain ⟨j, hj, hnone⟩ := h
    obtain ⟨hi, rfl⟩ := List.getElem?_eq_some_iff.mp hj
    simp [hne] at hnone

theorem allBut_at {k n : ℕ} (hk : 0 < k) (hn : k < n + 1) :
    ((some (0, 0) :: allBut k n).map (Option.map (captureString kind text)))[k]? =
      some none := by
  obtain ⟨k, rfl⟩ := Nat.exists_eq_succ_of_ne_zero (Nat.ne_of_gt hk)
  have hlt : k < n := by omega
  simp [allBut, hlt]

/-- Two properties of one name are the same. -/
theorem value_unique {value value' : Option StringProp} (h : (object.map Prod.fst).Nodup)
    (hvalue : (name, value) ∈ object) (hvalue' : (name, value') ∈ object) : value = value' := by
  have hpair := List.inj_on_of_nodup_map h hvalue hvalue' rfl
  exact congrArg Prod.snd hpair

theorem forall₂_mem {α β : Type} {R : α → β → Prop} {l : List α} {l' : List β}
    (h : List.Forall₂ R l l') {a : α} (ha : a ∈ l) : ∃ b ∈ l', R a b := by
  induction h with
  | nil => cases ha
  | @cons a' b l l' hR _ ih =>
    rcases List.mem_cons.mp ha with rfl | ha
    · exact ⟨b, by simp, hR⟩
    · obtain ⟨b', hb', hR'⟩ := ih ha
      exact ⟨b', by simp [hb'], hR'⟩

/-- The elements that are read where the properties are those that should be there. -/
theorem reads_of_faithful (hnamed : named ≠ []) {n : ℕ} (hn : n ≤ captures.length)
    {groups : Option (List (List UInt8 × Option StringProp))}
    (hresult : execNamed ⟨n, readGroups named⟩ kind text captures = .ok (.result array groups))
    (hfaithful : Faithful named array groups) :
    array = (captures.take n).map (Option.map (captureString kind text)) ∧
      (named.map Prod.snd).Nodup ∧ ∀ entry ∈ named, ∃ value,
        array[readNumber entry.1]? = some value ∧ array[entry.1]? = some value := by
  rw [execNamed_eq hnamed hn] at hresult
  cases hloop : groupLoop ((captures.take n).map (Option.map (captureString kind text)))
      (readGroups named) [] with
  | error stop =>
    simp only [hloop] at hresult
    cases hresult
  | ok object? =>
    cases object? with
    | none =>
      simp only [hloop, ok_bind] at hresult
      cases hresult
    | some object =>
      simp only [hloop, ok_bind, Except.ok.injEq, Named.result.injEq] at hresult
      obtain ⟨rfl, rfl⟩ := hresult
      obtain ⟨pairs, rfl, hpairs, hnodup⟩ := groupLoop_ok hloop List.nodup_nil
      refine ⟨rfl, names_eq hpairs ▸ hnodup, ?_⟩
      intro entry hentry
      obtain ⟨value, hvalue, hmem⟩ := hfaithful.values _ rfl entry hentry
      rw [readGroups, List.forall₂_map_left_iff] at hpairs
      obtain ⟨pair, hpair, hname, hread⟩ := forall₂_mem hpairs hentry
      have hfst : pair.1 = entry.2 := hname
      have hmem' : (entry.2, pair.2) ∈ object := by rwa [← hfst]
      have heq : pair.2 = value := value_unique hnodup hmem' hmem
      exact ⟨value, heq ▸ hread, hvalue⟩

/-- If all matches give the properties that they should, the numbers and the names are plain. -/
theorem plain_of_namesMatch (h : Documented regex named)
    (hmatch : NamesMatch regex named ⟨regex.ncaptures % 2 ^ 16, readGroups named⟩) :
    Plain regex named := by
  by_cases hnamed : named = []
  · subst hnamed
    exact ⟨by simp, by simp, fun hne => absurd rfl hne⟩
  have hle : regex.ncaptures % 2 ^ 16 ≤ regex.ncaptures := Nat.mod_le _ _
  have hreads (k : ℕ) (hk : k < regex.ncaptures) :
      let captures := some (0, 0) :: allBut k (regex.ncaptures - 1)
      let array := (captures.take (regex.ncaptures % 2 ^ 16)).map
        (Option.map (captureString .byte []))
      (named.map Prod.snd).Nodup ∧ ∀ entry ∈ named, ∃ value,
        array[readNumber entry.1]? = some value ∧ array[entry.1]? = some value := by
    have hlength : (some (0, 0) :: allBut k (regex.ncaptures - 1)).length = regex.ncaptures := by
      simp [allBut]
      omega
    obtain ⟨array, groups, hresult, hfaithful⟩ := hmatch .byte [] _ _ hlength
    obtain ⟨rfl, hrest⟩ := reads_of_faithful hnamed (by rw [hlength]; exact hle) hresult hfaithful
    exact hrest
  have hcaptures : regex.ncaptures < 2 ^ 16 := by
    obtain ⟨entry, hentry⟩ := List.exists_mem_of_ne_nil named hnamed
    obtain ⟨value, -, hvalue⟩ :=
      (hreads entry.1 (h.numbers entry hentry).2).2 entry hentry
    by_contra hnot
    have hzero : regex.ncaptures % 2 ^ 16 = 0 := by
      have hmax := h.captures
      omega
    simp only [hzero, List.take_zero, List.map_nil] at hvalue
    cases hvalue
  have hmod : regex.ncaptures % 2 ^ 16 = regex.ncaptures := Nat.mod_eq_of_lt hcaptures
  constructor
  · intro entry hentry
    obtain ⟨hpos, hlt⟩ := h.numbers entry hentry
    obtain ⟨value, hread, hvalue⟩ := (hreads entry.1 hlt).2 entry hentry
    have hlength : (some (0, 0) :: allBut entry.1 (regex.ncaptures - 1)).length ≤
        regex.ncaptures := by
      simp [allBut]
      omega
    rw [hmod, List.take_of_length_le hlength] at hread hvalue
    rw [allBut_at hpos (by omega)] at hvalue
    cases hvalue
    exact (readNumber_eq_iff (by omega)).mp (allBut_undefined hread)
  · obtain ⟨entry, hentry⟩ := List.exists_mem_of_ne_nil named hnamed
    exact (hreads entry.1 (h.numbers entry hentry).2).1
  · exact fun _ => hcaptures

/-- **Named groups.** For every pattern that the engine has compiled and every match, the object of
the groups has one property for each name with the element for the number of the group, if and only
if the bytes of the numbers have no sign, no name occurs twice, and the captures are counted in 16
bits. -/
theorem execNamed_names_iff (hagree : Agree byte utf8 regex) (h : Documented regex named)
    (hpattern : patternCreate byte utf8 = .ok (some pattern)) :
    NamesMatch regex named pattern ↔ Plain regex named := by
  rw [patternCreate_eq hagree h hpattern]
  exact ⟨plain_of_namesMatch h, namesMatch_of_plain h⟩

/-- A pattern with two groups, the second of which has the name `a`. -/
theorem execNamed_names_second : NamesMatch ⟨3, 1, 4, [0, 2, 97, 0]⟩ [(2, [97])] ⟨3, [⟨[97], 2⟩]⟩ ↔
    Plain ⟨3, 1, 4, [0, 2, 97, 0]⟩ [(2, [97])] := by
  have hagree : Agree (.compiled ⟨3, 1, 4, [0, 2, 97, 0]⟩) (.compiled ⟨3, 1, 4, [0, 2, 97, 0]⟩)
      ⟨3, 1, 4, [0, 2, 97, 0]⟩ := ⟨.inl rfl, .inl rfl, .inl rfl⟩
  have hdocumented : Documented ⟨3, 1, 4, [0, 2, 97, 0]⟩ [(2, [97])] :=
    ⟨.cons 2 [] (by decide) rfl .nil, rfl, by decide, by decide, by decide⟩
  exact execNamed_names_iff hagree hdocumented (by rfl)

/-- The group 128 of 128 groups has the name `a`, and the whole match and the group take part. -/
theorem not_execNamed_names : Documented ⟨129, 1, 4, [0, 128, 97, 0]⟩ [(128, [97])] ∧
    patternCreate (.compiled ⟨129, 1, 4, [0, 128, 97, 0]⟩)
      (.compiled ⟨129, 1, 4, [0, 128, 97, 0]⟩) = .ok (some ⟨129, [⟨[97], 4294967168⟩]⟩) ∧
    execNamed ⟨129, [⟨[97], 4294967168⟩]⟩ .byte [98] (some (0, 1) ::
      (List.replicate 127 none ++ [some (0, 1)])) = .error .fault ∧
    ¬NamesMatch ⟨129, 1, 4, [0, 128, 97, 0]⟩ [(128, [97])] ⟨129, [⟨[97], 4294967168⟩]⟩ := by
  have hdocumented : Documented ⟨129, 1, 4, [0, 128, 97, 0]⟩ [(128, [97])] :=
    ⟨.cons 128 [] (by decide) rfl .nil, rfl, by decide, by decide, by decide⟩
  have hfault : execNamed ⟨129, [⟨[97], 4294967168⟩]⟩ .byte [98] (some (0, 1) ::
      (List.replicate 127 none ++ [some (0, 1)])) = .error .fault := by
    rw [execNamed, elements_eq (by simp), ok_bind, if_neg (by simp), groupLoop,
      List.getElem?_eq_none (by simp)]
    rfl
  refine ⟨hdocumented, by rfl, hfault, ?_⟩
  intro h
  obtain ⟨array, groups, hresult, -⟩ := h .byte [98] (0, 1)
    (List.replicate 127 none ++ [some (0, 1)]) (by simp)
  rw [hfault] at hresult
  cases hresult

end Njs.Regexp
