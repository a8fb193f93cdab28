import Njs.Lvlhsh.Table
import Njs.Str.Value
import Mathlib.Data.List.Nodup
import Njs.Lvlhsh.Enumeration

/-!
# The pools of constants

`njs_value_index` keeps one copy of every constant of a program in a hash. The key of a
string is its bytes, and the key of any other constant is its image in memory.
-/

namespace Njs.Constants

open Lib Lvlhsh Str

/-! ## Constants -/

/-- The types of constants that are no strings. -/
inductive ScalarType
  | null
  | undefined
  | boolean
  | number
  deriving DecidableEq

/-- The value of `njs_value_type_t`. -/
def ScalarType.code : ScalarType → UInt8
  | null => 0x00
  | undefined => 0x01
  | boolean => 0x02
  | number => 0x03

/-- The `data` variant of a value, with the bits of `u.number`. -/
structure Scalar where
  type : ScalarType
  truth : UInt8
  magic16 : UInt16
  magic32 : UInt32
  number : UInt64
  deriving DecidableEq

/-- A constant. A long string has room for its offset map. -/
inductive Constant
  | scalar (s : Scalar)
  | string (v : StringValue) (map : v.isInline = false → allocTotal v.size v.length ≤ v.capacity)

/-- The bytes of a number in memory, the lowest first. -/
def littleEndian : ℕ → ℕ → List UInt8
  | 0, _ => []
  | n + 1, x => UInt8.ofNat x :: littleEndian n (x / 256)

/-- The sixteen bytes of a value in memory. -/
def Scalar.image (s : Scalar) : List UInt8 :=
  s.type.code :: s.truth :: (littleEndian 2 s.magic16.toNat ++ littleEndian 4 s.magic32.toNat ++
    littleEndian 8 s.number.toNat)

/-- The key of a constant in `njs_value_index` and in `njs_values_hash_test`. -/
def Constant.key : Constant → List UInt8
  | scalar s => s.image
  | string v _ => v.bytes

/-- `njs_djb_hash`. -/
def djbHash (bytes : List UInt8) : UInt32 :=
  bytes.foldl (fun hash b => ((hash <<< 5) + hash) ^^^ b.toUInt32) 5381

/-! ## The pools -/

/-- A pooled constant with its address, which is its index. -/
structure Pooled where
  index : UInt64
  value : Constant

/-- `njs_values_hash_test` compares the keys. -/
def Pooled.key (p : Pooled) : List UInt8 := p.value.key

/-- `vm->shared->values_hash` and `vm->values_hash`. -/
structure Pools where
  shared : Slot Pooled
  runtime : Slot Pooled

/-- The allocator of the values. -/
structure ValueAllocator where
  answer : History Block → ℕ → Option UInt64
  fresh : ∀ {h size p}, answer h size = some p → ∀ b ∈ h.live, b.address ≠ p

/-- `njs_mp_align` for a value. -/
def alignValue (V : ValueAllocator) (size : ℕ) : Memory (Option UInt64) := fun h =>
  match V.answer h size with
  | none => some (none, .refused :: h)
  | some p => some (some p, .granted ⟨p, size⟩ :: h)

/-- The size of the block for a copy: the value, and the string behind a long one. -/
def Constant.valueSize : Constant → ℕ
  | string (.long s) _ => 16 + (sizeofString + allocTotal s.size s.length)
  | _ => 16

/-- The copy of a constant. The bytes of a long string and its map are copied with it. -/
def Constant.copy : Constant → Constant
  | string (.long s) map =>
    let s' : LongString := {
      size := s.size
      length := s.length
      storage := s.storage.take (allocTotal s.size s.length)
      size_le := by
        have := map rfl
        simp only [StringValue.size, StringValue.length, StringValue.capacity] at this
        rw [List.length_take, Nat.min_eq_left this]
        exact le_allocTotal ..
      size_le_max := s.size_le_max }
    string (.long s') fun _ => by
      have := map rfl
      simp only [StringValue.size, StringValue.length, StringValue.capacity, s'] at this ⊢
      rw [List.length_take, Nat.min_eq_left this]
  | c => c

/-- The source of a string is updated with the pooled value. -/
def Constant.update (src : Constant) (value : Constant) : Constant :=
  match src with
  | scalar s => scalar s
  | string _ _ => value

section ValueIndex

variable (A : Allocator Pooled) (V : ValueAllocator)

/-- The layout of the hashes of values. -/
def shifts : List ℕ := Layout.default.shift

/-- The query of a call. -/
def query (key : List UInt8) (value : Option Pooled) : Query (List UInt8) Pooled :=
  ⟨djbHash key, some key, false, value⟩

/-- The two searches of a call. -/
def lookup (pools : Pools) (key : List UInt8) (runtime : Bool) : Option (Option Pooled) := do
  match ← find Pooled.key shifts pools.shared (query key none) with
  | (.ok, value) => some value
  | _ =>
    if runtime then
      match ← find Pooled.key shifts pools.runtime (query key none) with
      | (.ok, value) => some value
      | _ => some none
    else some none

/-- `njs_lvlhsh_insert` into one of the pools. -/
def insertPooled (pools : Pools) (value : Pooled) (key : List UInt8) (runtime : Bool) :
    Memory (Status × Pools) := do
  if runtime then
    let r ← insert Pooled.key A shifts pools.runtime (query key (some value))
    pure (r.status, { pools with runtime := r.slot })
  else
    let r ← insert Pooled.key A shifts pools.shared (query key (some value))
    pure (r.status, { pools with shared := r.slot })

/-- `njs_value_index`: the pooled value at the index that is returned, the source
afterwards and the pools. -/
def valueIndex (pools : Pools) (src : Constant) (runtime : Bool) :
    Memory (Option Pooled × Constant × Pools) := do
  match ← lift (lookup pools src.key runtime) with
  | some value => pure (some value, src.update value.value, pools)
  | none =>
    match ← alignValue V src.valueSize with
    | none => pure (none, src, pools)
    | some index => do
      let value : Pooled := ⟨index, src.copy⟩
      let (status, pools) ← insertPooled A pools value src.key runtime
      if status = .ok then pure (some value, src.update value.value, pools)
      else pure (none, src, pools)

/-- One call. -/
structure Call where
  src : Constant
  runtime : Bool

/-- A call with the pools before it and what it returned. -/
structure Record where
  call : Call
  before : Pools
  result : Option Pooled

/-- A sequence of calls. -/
def run (pools : Pools) : List Call → Memory (List Record × Pools)
  | [] => pure ([], pools)
  | call :: calls => do
    let (result, _, pools') ← valueIndex A V pools call.src call.runtime
    let (records, pools'') ← run pools' calls
    pure (⟨call, pools, result⟩ :: records, pools'')

end ValueIndex

end Njs.Constants

/-!
## Soundness of the pools

A call returns a copy of its constant, unless a constant with the same key but another
content was pooled before: keys of different kinds of constants may coincide.
-/

namespace Njs.Constants

open Lib Lvlhsh Str

/-! ## What a constant is -/

/-- The JavaScript value of a constant. -/
inductive JsValue
  | null
  | undefined
  | boolean (b : Bool)
  | number (bits : UInt64)
  | string (bytes : List UInt8) (length : ℕ)
  deriving DecidableEq

/-- The value that a constant stands for. -/
def Constant.content : Constant → JsValue
  | scalar ⟨.null, _, _, _, _⟩ => .null
  | scalar ⟨.undefined, _, _, _, _⟩ => .undefined
  | scalar ⟨.boolean, truth, _, _, _⟩ => .boolean (truth ≠ 0)
  | scalar ⟨.number, _, _, _, number⟩ => .number number
  | string v _ => .string v.bytes v.length

@[simp] theorem Constant.copy_content (c : Constant) : c.copy.content = c.content := by
  cases c with
  | scalar s => rfl
  | string v map =>
    cases v with
    | short s => rfl
    | long s =>
      have hle := le_allocTotal s.size s.length
      simp only [copy, content, StringValue.bytes, StringValue.length, List.take_take,
        Nat.min_eq_left hle]

@[simp] theorem Constant.copy_key (c : Constant) : c.copy.key = c.key := by
  cases c with
  | scalar s => rfl
  | string v map =>
    cases v with
    | short s => rfl
    | long s =>
      have hle := le_allocTotal s.size s.length
      simp only [copy, key, StringValue.bytes, List.take_take, Nat.min_eq_left hle]

/-! ## What the pools hold -/

/-- The pooled values of one hash. -/
def pooled (slot : Slot Pooled) : List Pooled := (slot.entries shifts).map Prod.snd

/-- All pooled values. -/
def Pools.all (pools : Pools) : List Pooled := pooled pools.shared ++ pooled pools.runtime

/-- A pooled value that a call can find. The values of the shared pool hide those of the
runtime pool. -/
def Pools.Visible (pools : Pools) (runtime : Bool) (p : Pooled) : Prop :=
  p ∈ pooled pools.shared ∨
    (runtime = true ∧ p ∈ pooled pools.runtime ∧ ∀ p' ∈ pooled pools.shared, p'.key ≠ p.key)

/-- No constant with another content is visible under the key of this one. -/
def Pools.CollisionFree (pools : Pools) (call : Call) : Prop :=
  ∀ p, pools.Visible call.runtime p → p.key = call.src.key → p.value.content = call.src.content

/-- Every index that was returned holds the content of its source, and an index is only
returned again for the same content. -/
structure Sound (records : List Record) : Prop where
  content_eq : ∀ r ∈ records, ∀ p ∈ r.result, p.value.content = r.call.src.content
  content_eq_of_index : ∀ r ∈ records, ∀ r' ∈ records, ∀ p ∈ r.result, ∀ p' ∈ r'.result,
    p.index = p'.index → r.call.src.content = r'.call.src.content

/-- The pools hold the bindings of two maps; every value has a block of its own. -/
structure PoolsOk (pools : Pools) (base h : History Block) : Prop where
  shared : ∃ m, Represents Pooled.key djbHash shifts pools.shared m
  runtime : ∃ m, Represents Pooled.key djbHash shifts pools.runtime m
  nodup : (pools.all.map Pooled.index).Nodup
  owns : ∃ values, h.Owns base
      (pools.shared.blocks shifts ++ (pools.runtime.blocks shifts ++ values)) ∧
    ∀ p ∈ pools.all, ∃ b ∈ values, b.address = p.index

section Lookup

variable {slot : Slot Pooled} {m : List UInt8 → Option Pooled} {key : List UInt8}

theorem mem_pooled_iff (hrep : Represents Pooled.key djbHash shifts slot m) {p : Pooled} :
    p ∈ pooled slot ↔ m p.key = some p := by
  rw [hrep.isMapOf.bound_iff, pooled, List.mem_map]
  constructor
  · rintro ⟨e, he, rfl⟩
    exact ⟨hrep.isMapOf.hash_eq e he ▸ he, rfl⟩
  · rintro ⟨hmem, -⟩
    exact ⟨_, hmem, rfl⟩

/-- The constant that the searches of a call find. -/
theorem lookup_spec {pools : Pools} {mS mR : List UInt8 → Option Pooled}
    (hS : Represents Pooled.key djbHash shifts pools.shared mS)
    (hR : Represents Pooled.key djbHash shifts pools.runtime mR) (key : List UInt8)
    (runtime : Bool) :
    lookup pools key runtime =
      some ((mS key).or (if runtime then mR key else none)) := by
  rw [lookup, query, find_spec hS, find_spec hR]
  cases mS key with
  | some p => rfl
  | none =>
    cases runtime with
    | false => rfl
    | true =>
      cases mR key with
      | some p => rfl
      | none => rfl

/-- The searches of a call find a value with its key. -/
theorem key_of_lookup {pools : Pools} {mS mR : List UInt8 → Option Pooled}
    (hS : Represents Pooled.key djbHash shifts pools.shared mS)
    (hR : Represents Pooled.key djbHash shifts pools.runtime mR) {key : List UInt8}
    {runtime : Bool} {p : Pooled}
    (hfind : (mS key).or (if runtime then mR key else none) = some p) : p.key = key := by
  rcases Option.or_eq_some_iff.mp hfind with hm | ⟨-, hm⟩
  · exact ((hS.isMapOf.bound_iff _ _).mp hm).2
  · cases runtime with
    | false => cases hm
    | true => exact ((hR.isMapOf.bound_iff _ _).mp hm).2

/-- What a call can find is what its searches find. -/
theorem visible_iff {pools : Pools} {mS mR : List UInt8 → Option Pooled}
    (hS : Represents Pooled.key djbHash shifts pools.shared mS)
    (hR : Represents Pooled.key djbHash shifts pools.runtime mR) {runtime : Bool} {p : Pooled} :
    pools.Visible runtime p ↔ (mS p.key).or (if runtime then mR p.key else none) = some p := by
  have hno : (∀ p' ∈ pooled pools.shared, p'.key ≠ p.key) ↔ mS p.key = none := by
    constructor
    · intro h
      cases hm : mS p.key with
      | none => rfl
      | some p' =>
        have hkey := ((hS.isMapOf.bound_iff _ _).mp hm).2
        exact absurd hkey (h p' ((mem_pooled_iff hS).mpr (hkey.symm ▸ hm)))
    · rintro hm p' hp' hkey
      rw [mem_pooled_iff hS, hkey, hm] at hp'
      cases hp'
  rw [Pools.Visible, hno, mem_pooled_iff hS, mem_pooled_iff hR]
  cases hm : mS p.key with
  | some p' => simp
  | none => cases runtime <;> simp

end Lookup

/-! ## One call -/

section Call

variable {A : Allocator Pooled} {V : ValueAllocator} {pools : Pools} {base h : History Block}

theorem alignValue_spec {size : ℕ} {bs : List Block} (hown : h.Owns base bs) :
    Ends (alignValue V size) h fun r h' => match r with
      | none => h'.Owns base bs
      | some p => h'.Owns base (⟨p, size⟩ :: bs) ∧ ∀ b ∈ bs, b.address ≠ p := by
  cases hp : V.answer h size with
  | none => exact ⟨none, _, by rw [alignValue, hp], hown.refused⟩
  | some p =>
    have hnew := V.fresh hp
    refine ⟨some p, _, by rw [alignValue, hp], hown.granted fun hmem => hnew _ hmem rfl, ?_⟩
    exact fun b hb => hnew b (hown.live_perm.mem_iff.mpr hb)

/-- A new value is added to one hash, or the hash keeps its values. -/
theorem insert_query_spec {slot : Slot Pooled} {m : List UInt8 → Option Pooled} {value : Pooled}
    {frame : List Block} (hrep : Represents Pooled.key djbHash shifts slot m)
    (hm : m value.key = none) (hown : h.Owns base (slot.blocks shifts ++ frame)) :
    Ends (insert Pooled.key A shifts slot (query value.key (some value))) h fun r h' =>
      h'.Owns base (r.slot.blocks shifts ++ frame) ∧
        (∃ m', Represents Pooled.key djbHash shifts r.slot m') ∧
        ((r.status = .ok ∧ (pooled r.slot).Perm (value :: pooled slot)) ∨
          (r.status ≠ .ok ∧ (pooled r.slot).Perm (pooled slot))) := by
  refine (insert_spec rfl rfl (Layout.shift_lt .default) hrep.ok hown).mono fun r h' hr => ?_
  obtain ⟨m', -, hmap, -⟩ := mapStep_insert hrep.isMapOf hr.did
  refine ⟨hr.owns, ⟨m', hr.ok, hmap⟩, ?_⟩
  rcases hr.did with ⟨v, rest, hperm, hkey, -⟩ | ⟨-, -, ⟨hst, hperm⟩ | ⟨hst, -, hperm⟩⟩
  · obtain ⟨hsome, -⟩ := (hrep.isMapOf.perm hperm).uncons hkey
    rw [hm] at hsome
    cases hsome
  · exact Or.inl ⟨hst, hperm.map Prod.snd⟩
  · exact Or.inr ⟨by rw [hst]; simp, hperm.map Prod.snd⟩

/-- The pools after a new value was added, or not. -/
private theorem poolsOk_of_perm {pools' : Pools} {h' : History Block} {value : Pooled} {size : ℕ}
    {values : List Block} {status : Status} (added : Bool)
    (hall : ∀ p ∈ pools.all, ∃ b ∈ values, b.address = p.index)
    (hnodup : (pools.all.map Pooled.index).Nodup)
    (hfresh : ∀ b ∈ values, b.address ≠ value.index)
    (hS : ∃ m, Represents Pooled.key djbHash shifts pools'.shared m)
    (hR : ∃ m, Represents Pooled.key djbHash shifts pools'.runtime m)
    (hown : h'.Owns base (pools'.shared.blocks shifts ++ (pools'.runtime.blocks shifts ++
      (⟨value.index, size⟩ :: values))))
    (hperm : pools'.all.Perm (if added then value :: pools.all else pools.all))
    (hst : status = .ok → added = true) :
    PoolsOk pools' base h' ∧ pools.all ⊆ pools'.all ∧ (status = .ok → value ∈ pools'.all) := by
  have hsubset : pools.all ⊆ pools'.all := by
    intro p hp
    refine hperm.mem_iff.mpr ?_
    cases added with
    | false => exact hp
    | true => exact List.mem_cons_of_mem _ hp
  refine ⟨⟨hS, hR, ?_, _, hown, fun p hp => ?_⟩, hsubset, fun hok => ?_⟩
  · rw [(hperm.map _).nodup_iff]
    cases added with
    | false => exact hnodup
    | true =>
      refine List.nodup_cons.mpr ⟨fun hmem => ?_, hnodup⟩
      obtain ⟨p, hp, hindex⟩ := List.mem_map.mp hmem
      obtain ⟨b, hb, haddr⟩ := hall p hp
      exact hfresh b hb (haddr.trans hindex)
  · have hmem := hperm.mem_iff.mp hp
    cases added with
    | false =>
      obtain ⟨b, hb, haddr⟩ := hall p hmem
      exact ⟨b, List.mem_cons_of_mem _ hb, haddr⟩
    | true =>
      rcases List.mem_cons.mp hmem with rfl | hmem
      · exact ⟨_, List.mem_cons_self, rfl⟩
      · obtain ⟨b, hb, haddr⟩ := hall p hmem
        exact ⟨b, List.mem_cons_of_mem _ hb, haddr⟩
  · rw [hst hok] at hperm
    exact hperm.mem_iff.mpr List.mem_cons_self

/-- A new value is added to one of the pools, or the pools keep their values. -/
theorem insertPooled_spec {value : Pooled} {runtime : Bool} {size : ℕ} {values : List Block}
    {mS mR : List UInt8 → Option Pooled}
    (hS : Represents Pooled.key djbHash shifts pools.shared mS)
    (hR : Represents Pooled.key djbHash shifts pools.runtime mR)
    (hno : (mS value.key).or (if runtime then mR value.key else none) = none)
    (hall : ∀ p ∈ pools.all, ∃ b ∈ values, b.address = p.index)
    (hnodup : (pools.all.map Pooled.index).Nodup)
    (hfresh : ∀ b ∈ values, b.address ≠ value.index)
    (hown : h.Owns base (pools.shared.blocks shifts ++ (pools.runtime.blocks shifts ++
      (⟨value.index, size⟩ :: values)))) :
    Ends (insertPooled A pools value value.key runtime) h fun r h' =>
      PoolsOk r.2 base h' ∧ pools.all ⊆ r.2.all ∧ (r.1 = .ok → value ∈ r.2.all) := by
  obtain ⟨hmS, hmR⟩ := Option.or_eq_none_iff.mp hno
  cases runtime with
  | true =>
    have hown' := hown.perm (List.perm_append_comm_assoc ..)
    refine .bind (insert_query_spec hR hmR hown') fun r h' ⟨hown'', hR', hres⟩ => .pure ?_
    have hown3 := hown''.perm (List.perm_append_comm_assoc ..)
    rcases hres with ⟨hst, hperm⟩ | ⟨hst, hperm⟩
    · refine poolsOk_of_perm true hall hnodup hfresh ⟨mS, hS⟩ hR' hown3 ?_ fun _ => rfl
      exact (hperm.append_left _).trans List.perm_middle
    · exact poolsOk_of_perm false hall hnodup hfresh ⟨mS, hS⟩ hR' hown3
        (hperm.append_left _) fun hok => absurd hok hst
  | false =>
    refine .bind (insert_query_spec hS hmS hown) fun r h' ⟨hown', hS', hres⟩ => .pure ?_
    rcases hres with ⟨hst, hperm⟩ | ⟨hst, hperm⟩
    · exact poolsOk_of_perm true hall hnodup hfresh hS' ⟨mR, hR⟩ hown'
        (hperm.append_right _) fun _ => rfl
    · exact poolsOk_of_perm false hall hnodup hfresh hS' ⟨mR, hR⟩ hown'
        (hperm.append_right _) fun hok => absurd hok hst

/-- What a call guarantees: the pools stay as they are or get a copy of the constant. -/
structure CallOk (pools : Pools) (call : Call) (base : History Block)
    (r : Option Pooled × Constant × Pools) (h : History Block) : Prop where
  ok : PoolsOk r.2.2 base h
  subset : pools.all ⊆ r.2.2.all
  mem : ∀ p ∈ r.1, p ∈ r.2.2.all
  sound : pools.CollisionFree call → ∀ p ∈ r.1, p.value.content = call.src.content
  unsound : ¬pools.CollisionFree call → ∃ p ∈ r.1, p.value.content ≠ call.src.content

theorem valueIndex_spec (hok : PoolsOk pools base h) (call : Call) :
    Ends (valueIndex A V pools call.src call.runtime) h (CallOk pools call base) := by
  obtain ⟨mS, hS⟩ := hok.shared
  obtain ⟨mR, hR⟩ := hok.runtime
  obtain ⟨values, hown, hall⟩ := hok.owns
  refine .lift_bind (lookup_spec hS hR call.src.key call.runtime) ?_
  cases hfind : (mS call.src.key).or (if call.runtime then mR call.src.key else none) with
  | some p =>
    have hkey := key_of_lookup hS hR hfind
    have hvisible : pools.Visible call.runtime p := (visible_iff hS hR).mpr (hkey ▸ hfind)
    have hmem : p ∈ pools.all := by
      rcases hvisible with hshared | ⟨-, hruntime, -⟩
      · exact List.mem_append_left _ hshared
      · exact List.mem_append_right _ hruntime
    refine .pure ⟨hok, fun _ hp => hp, ?_, ?_, fun hcollision => ⟨p, rfl, fun hsame => ?_⟩⟩
    · rintro _ ⟨⟩
      exact hmem
    · rintro hfree _ ⟨⟩
      exact hfree p hvisible hkey
    · refine hcollision fun p' hvisible' hkey' => ?_
      have hfind' := (visible_iff hS hR).mp hvisible'
      rw [hkey', hfind] at hfind'
      cases hfind'
      exact hsame
  | none =>
    -- Nothing is visible under the key, so there is no collision.
    have hfree : pools.CollisionFree call := by
      intro p hvisible hkey
      have hfind' := (visible_iff hS hR).mp hvisible
      rw [hkey, hfind] at hfind'
      cases hfind'
    refine .bind (alignValue_spec hown) fun index h' hindex => ?_
    cases index with
    | none =>
      exact .pure ⟨⟨⟨mS, hS⟩, ⟨mR, hR⟩, hok.nodup, values, hindex, hall⟩, fun _ hp => hp,
        by simp, by simp, fun hcollision => absurd hfree hcollision⟩
    | some index =>
      obtain ⟨hown', hnew⟩ := hindex
      have hfresh : ∀ b ∈ values, b.address ≠ index :=
        fun b hb => hnew b (List.mem_append_right _ (List.mem_append_right _ hb))
      have hkey : Pooled.key ⟨index, call.src.copy⟩ = call.src.key := call.src.copy_key
      have hown'' := hown'.perm (List.perm_middle.symm.trans
        (List.Perm.append_left _ List.perm_middle.symm))
      rw [← hkey] at hfind
      have hinsert := @insertPooled_spec A pools base h' ⟨index, call.src.copy⟩ call.runtime
        call.src.valueSize values mS mR hS hR hfind hall hok.nodup hfresh hown''
      rw [hkey] at hinsert
      refine .bind hinsert fun ⟨status, pools'⟩ h'' ⟨hok', hsubset, hmem⟩ => ?_
      simp only
      by_cases hst : status = .ok
      · rw [if_pos hst]
        refine .pure ⟨hok', hsubset, ?_, ?_, fun hcollision => absurd hfree hcollision⟩
        · rintro _ ⟨⟩
          exact hmem hst
        · rintro - _ ⟨⟩
          exact call.src.copy_content
      · rw [if_neg hst]
        exact .pure ⟨hok', hsubset, by simp, by simp, fun hcollision => absurd hfree hcollision⟩

end Call

/-! ## Sequences of calls -/

section Run

variable {A : Allocator Pooled} {V : ValueAllocator} {pools : Pools} {base h : History Block}

/-- What one record of a run guarantees, given the pools at its end. -/
structure RecordOk (r : Record) (after : Pools) : Prop where
  mem : ∀ p ∈ r.result, p ∈ after.all
  sound : r.before.CollisionFree r.call → ∀ p ∈ r.result, p.value.content = r.call.src.content
  unsound : ¬r.before.CollisionFree r.call →
    ∃ p ∈ r.result, p.value.content ≠ r.call.src.content

theorem run_spec (hok : PoolsOk pools base h) (calls : List Call) :
    Ends (run A V pools calls) h fun r h' => PoolsOk r.2 base h' ∧ pools.all ⊆ r.2.all ∧
      ∀ record ∈ r.1, RecordOk record r.2 := by
  induction calls generalizing pools h with
  | nil => exact .pure ⟨hok, fun _ hp => hp, by simp⟩
  | cons call calls ih =>
    refine .bind (valueIndex_spec hok call) fun ⟨result, src, pools'⟩ h' hcall => ?_
    refine .bind (ih hcall.ok) fun ⟨records, pools''⟩ h'' ⟨hok', hsubset, hrecords⟩ => .pure ?_
    refine ⟨hok', fun p hp => hsubset (hcall.subset hp), List.forall_mem_cons.mpr ⟨?_, hrecords⟩⟩
    exact ⟨fun p hp => hsubset (hcall.mem p hp), hcall.sound, hcall.unsound⟩

/-- Records are sound if and only if no call met a collision. -/
theorem sound_iff {records : List Record} {after : Pools} (hok : PoolsOk after base h)
    (hrecords : ∀ r ∈ records, RecordOk r after) :
    Sound records ↔ ∀ r ∈ records, r.before.CollisionFree r.call := by
  constructor
  · intro hsound r hr
    by_contra hcollision
    obtain ⟨p, hp, hne⟩ := (hrecords r hr).unsound hcollision
    exact hne (hsound.content_eq r hr p hp)
  · intro hfree
    have hcontent := fun r hr => (hrecords r hr).sound (hfree r hr)
    refine ⟨hcontent, fun r hr r' hr' p hp p' hp' hindex => ?_⟩
    have hsame : p = p' := List.inj_on_of_nodup_map hok.nodup ((hrecords r hr).mem p hp)
      ((hrecords r' hr').mem p' hp') hindex
    rw [← hcontent r hr p hp, ← hcontent r' hr' p' hp', hsame]

end Run

/-- The pools of a new machine. -/
def Pools.empty : Pools := ⟨.null, .null⟩

/-- In every sequence of calls, the indices are sound if and only if no call finds a
constant with the same key and another content. -/
theorem valueIndex_sound_iff (A : Allocator Pooled) (V : ValueAllocator) (calls : List Call) :
    ∃ records pools h, run A V .empty calls [] = some ((records, pools), h) ∧
      (Sound records ↔ ∀ r ∈ records, r.before.CollisionFree r.call) := by
  have hempty : Represents Pooled.key djbHash shifts (.null : Slot Pooled) fun _ => none :=
    ⟨trivial, .nil⟩
  have hok : PoolsOk .empty [] [] := by
    refine ⟨⟨_, hempty⟩, ⟨_, hempty⟩, List.nodup_nil, [], History.owns_nil, fun p hp => ?_⟩
    cases hp
  obtain ⟨⟨records, pools⟩, h, hrun, hok', -, hrecords⟩ := run_spec (A := A) (V := V) hok calls
  exact ⟨records, pools, h, hrun, sound_iff hok' hrecords⟩

/-! ## A number and the string of its bytes -/

/-- Values get the next addresses. -/
def bumpValue : ValueAllocator where
  answer h _ := if ∀ b ∈ h.live, b.address ≠ bumpAddress h then some (bumpAddress h) else none
  fresh hp := by
    obtain ⟨hcond, hp⟩ := Option.ite_none_right_eq_some.mp hp
    exact Option.some.inj hp ▸ hcond

/-- The number five. -/
def five : Scalar := ⟨.number, 1, 0, 0, 0x4014000000000000⟩

/-- The sixteen bytes of the number five in memory, all of them ASCII, as a text. -/
def fiveBytes : Constant :=
  .string (.long ⟨16, 16, five.image, by decide, by decide⟩) fun _ => by decide

/-- A program with both constants. -/
def fiveCalls : List Call := [⟨.scalar five, false⟩, ⟨fiveBytes, false⟩]

private theorem fiveCalls_collide : ∃ t ∈ run (bump 100) bumpValue .empty fiveCalls [],
    ∃ r ∈ t.1.1, ∃ p ∈ r.result, p.value.content ≠ r.call.src.content := by decide

/-- The string gets the index of the number. -/
theorem not_valueIndex_sound :
    ¬∃ records pools h, run (bump 100) bumpValue .empty fiveCalls [] =
      some ((records, pools), h) ∧ Sound records := by
  rintro ⟨records, pools, h, hrun, hsound⟩
  obtain ⟨t, ht, r, hr, p, hp, hne⟩ := fiveCalls_collide
  rw [hrun] at ht
  cases ht
  exact hne (hsound.content_eq r hr p hp)

end Njs.Constants
