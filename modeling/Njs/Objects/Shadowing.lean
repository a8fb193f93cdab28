import Njs.Objects.Frame
import Njs.Objects.Listing

/-!
# Properties that are shadowed

A property is visible if no object that is nearer in the chain has an own property with its key.
What is enumerated is right exactly if no element or character is shadowed, and none shadows a
property that is enumerated.
-/

namespace Njs.Objects.Enumeration

variable {memory : EnumMemory} {kind : EnumKind} {all : Bool} {nearer chain rest : List Link}
  {n o : Link} {protos : List Link} {key : Name} {e e' : Bool} {v v' : Option Value}

/-- An own property, whether it is enumerable, and its value. -/
inductive Link.Own (o : Link) (key : Name) : Bool → Option Value → Prop
  | element {v : Option Value} (h : (key, v) ∈ o.elements) : Own o key true v
  | hashed {prop : Property} (h : o.find key = some prop) (hne : ∀ v, (key, v) ∉ o.elements) :
    Own o key prop.enumerable.holds prop.value

/-- The object has an own property. -/
def Link.Owns (o : Link) (key : Name) : Prop := ∃ e v, o.Own key e v

/-- The property of the nearest object that has one with this key. -/
def Visible (chain : List Link) (key : Name) (e : Bool) (v : Option Value) : Prop :=
  ∃ nearer o rest, chain = nearer ++ o :: rest ∧ o.Own key e v ∧ ∀ n ∈ nearer, ¬n.Owns key

/-- A list of the visible properties that are enumerable, or of all, each once. -/
def Lists (all : Bool) (chain : List Link) (l : List (Name × Option Value)) : Prop :=
  (l.map Prod.fst).Nodup ∧
    ∀ key v, (key, v) ∈ l ↔ ∃ e, Visible chain key e v ∧ (e || all) = true

/-- The array that is returned has the items that were counted, which are those of the visible
properties. There may be no memory for it. -/
def Enumerates (kind : EnumKind) (all : Bool) (chain : List Link)
    (result : Result (ℕ × List Item)) : Prop :=
  result = .error (.throw .memoryError) ∨
    ∃ l, Lists all chain l ∧ result = .ok (l.length, l.map kind.item)

/-- No element or character has the index of an own property of an object that is nearer, and no
property of a hash that is enumerated has the index of an element or character of its object or
of one that is nearer. -/
def Unshadowed (all : Bool) (chain : List Link) : Prop :=
  ∀ nearer o rest, chain = nearer ++ o :: rest →
    (∀ p ∈ o.elements, ∀ n ∈ nearer, ¬n.Owns p.1) ∧
      ∀ p ∈ o.hashed nearer all, ∀ n ∈ nearer ++ [o], ∀ v, (p.1, v) ∉ n.elements

/-- The properties can be counted in 32 bits. -/
def Fits (all : Bool) (chain : List Link) : Prop :=
  (chainListing all [] chain).length < 2 ^ 32

/-- The number of the properties, as it is counted, is too large for an array. -/
def TooLong (all : Bool) (chain : List Link) : Prop :=
  arrayMaxLength < (chainListing all [] chain).length % 2 ^ 32 + arraySpare

/-! ## The keys of one object -/

theorem decimal_injective : Function.Injective decimal := fun m n h => by
  rw [← digitsValue_decimal m, h, digitsValue_decimal]

theorem mem_arrayListing {i : ℕ} {start : List (Option Value)} {p : Name × Option Value}
    (h : p ∈ arrayListing i start) : ∃ j, i ≤ j ∧ p.1 = decimal j := by
  induction start generalizing i with
  | nil => cases h
  | cons v start ih =>
    cases v with
    | none =>
      obtain ⟨j, hj, hp⟩ := ih h
      exact ⟨j, by omega, hp⟩
    | some v =>
      rcases List.mem_cons.mp h with rfl | h
      · exact ⟨i, le_rfl, rfl⟩
      · obtain ⟨j, hj, hp⟩ := ih h
        exact ⟨j, by omega, hp⟩

theorem charListing_eq (i : ℕ) (value : List Name) :
    charListing i value = arrayListing i (value.map fun c => some (.string c)) := by
  induction value generalizing i with
  | nil => rfl
  | cons c value ih => exact congrArg _ (ih (i + 1))

theorem arrayListing_nodup (i : ℕ) (start : List (Option Value)) :
    ((arrayListing i start).map Prod.fst).Nodup := by
  induction start generalizing i with
  | nil => exact List.nodup_nil
  | cons v start ih =>
    cases v with
    | none => exact ih (i + 1)
    | some v =>
      rw [arrayListing, List.map_cons, List.nodup_cons]
      refine ⟨?_, ih (i + 1)⟩
      intro hmem
      obtain ⟨p, hp, heq⟩ := List.mem_map.mp hmem
      obtain ⟨j, hj, hkey⟩ := mem_arrayListing hp
      have hij := decimal_injective (hkey.symm.trans heq)
      omega

theorem Link.elements_nodup (o : Link) : (o.elements.map Prod.fst).Nodup := by
  unfold Link.elements
  cases o.type with
  | object => exact List.nodup_nil
  | array start => exact arrayListing_nodup 0 start
  | string value =>
    simp only [charListing_eq]
    exact arrayListing_nodup 0 _

/-- The search in the hashes of the nearer objects fails if none of them has the property. -/
theorem existInProto_eq_none_iff {name : Name} :
    existInProto name nearer = none ↔ ∀ n ∈ nearer, n.find name = none := by
  induction nearer with
  | nil => simp [existInProto]
  | cons n nearer ih =>
    rw [List.forall_mem_cons, ← ih, existInProto, Object.find]
    cases n.hash.lookup name with
    | some prop =>
      simp only
      split_ifs <;> simp
    | none =>
      simp only
      cases n.sharedHash.lookup name <;> simp

/-- A property is enumerated from the hashes of an object if it is found there and in none of
the nearer ones. -/
theorem Link.mem_hashed : (key, v) ∈ o.hashed nearer all ↔
    ∃ prop, o.find key = some prop ∧ prop.value = v ∧ (prop.enumerable.holds || all) = true ∧
      ∀ n ∈ nearer, n.find key = none := by
  have hentry : ∀ (hash : Hash) (enumerated : (Sigma fun _ : Name => Property) → Bool),
      (key, v) ∈ hashListing enumerated hash.entries ↔
        ∃ prop, hash.lookup key = some prop ∧ prop.value = v ∧ enumerated ⟨key, prop⟩ = true := by
    intro hash enumerated
    rw [hashListing, List.mem_map]
    constructor
    · rintro ⟨⟨name, prop⟩, hmem, heq⟩
      obtain ⟨rfl, rfl⟩ := Prod.mk.inj heq
      obtain ⟨hmem, henumerated⟩ := List.mem_filter.mp hmem
      exact ⟨prop, AList.mem_lookup_iff.mpr hmem, rfl, henumerated⟩
    · rintro ⟨prop, hlookup, rfl, henumerated⟩
      exact ⟨⟨key, prop⟩, List.mem_filter.mpr ⟨AList.mem_lookup_iff.mp hlookup, henumerated⟩, rfl⟩
  rw [← existInProto_eq_none_iff, Link.hashed, List.mem_append, hentry, hentry, Object.find]
  simp only [ownEnumerated, sharedEnumerated, Bool.and_eq_true, Option.isNone_iff_eq_none,
    decide_eq_true_eq]
  cases hlookup : o.hash.lookup key with
  | some prop =>
    by_cases hwhiteout : prop.type = .whiteout
    · simp [hwhiteout]
    · simp only [Option.some.injEq, if_neg hwhiteout, reduceCtorEq]
      constructor
      · rintro (⟨prop', rfl, hv, ⟨hnone, -⟩, henumerable⟩ | ⟨_, _, _, ⟨⟨⟨⟩, _⟩, _⟩⟩)
        exact ⟨prop, rfl, hv, henumerable, hnone⟩
      · rintro ⟨prop', rfl, hv, henumerable, hnone⟩
        exact Or.inl ⟨prop, rfl, hv, ⟨hnone, hwhiteout⟩, henumerable⟩
  | none =>
    constructor
    · rintro (⟨_, ⟨⟩, _⟩ | ⟨prop, hshared, hv, ⟨-, hnone⟩, henumerable⟩)
      exact ⟨prop, hshared, hv, henumerable, hnone⟩
    · rintro ⟨prop, hshared, hv, henumerable, hnone⟩
      exact Or.inr ⟨prop, hshared, hv, ⟨rfl, hnone⟩, henumerable⟩

theorem Link.owns_iff : o.Owns key ↔ (∃ v, (key, v) ∈ o.elements) ∨ o.find key ≠ none := by
  constructor
  · rintro ⟨e, v, h | ⟨h, -⟩⟩
    · exact Or.inl ⟨v, h⟩
    · exact Or.inr (by rw [h]; simp)
  · intro h
    by_cases helement : ∃ v, (key, v) ∈ o.elements
    · obtain ⟨v, hv⟩ := helement
      exact ⟨true, v, .element hv⟩
    · obtain ⟨prop, hprop⟩ := Option.ne_none_iff_exists'.mp (h.resolve_left helement)
      exact ⟨_, _, .hashed hprop fun v hv => helement ⟨v, hv⟩⟩

/-- Whether an own property is enumerable is determined. -/
theorem Link.Own.unique (h : o.Own key e v) (h' : o.Own key e' v') : e = e' := by
  cases h with
  | element h =>
    cases h' with
    | element h' => rfl
    | hashed h' hne => exact absurd h (hne v)
  | hashed h hne =>
    cases h' with
    | element h' => exact absurd h' (hne v')
    | hashed h' hne' =>
      obtain rfl := Option.some.inj (h.symm.trans h')
      rfl

theorem hashListing_nodup (enumerated : (Sigma fun _ : Name => Property) → Bool) (hash : Hash) :
    ((hashListing enumerated hash.entries).map Prod.fst).Nodup := by
  have hkeys : (hashListing enumerated hash.entries).map Prod.fst =
      (hash.entries.filter enumerated).map Sigma.fst := by
    rw [hashListing, List.map_map]
    rfl
  rw [hkeys]
  exact (List.filter_sublist.map Sigma.fst).nodup hash.nodupKeys

theorem Link.hashed_nodup (o : Link) (nearer : List Link) (all : Bool) :
    ((o.hashed nearer all).map Prod.fst).Nodup := by
  rw [Link.hashed, List.map_append, List.nodup_append]
  refine ⟨hashListing_nodup _ _, hashListing_nodup _ _, ?_⟩
  intro name hname name' hname' heq
  subst heq
  obtain ⟨p, hp, rfl⟩ := List.mem_map.mp hname
  obtain ⟨p', hp', heq⟩ := List.mem_map.mp hname'
  obtain ⟨entry, hentry, rfl⟩ := List.mem_map.mp hp
  obtain ⟨entry', hentry', rfl⟩ := List.mem_map.mp hp'
  have hown : o.hash.lookup entry.1 = some entry.2 :=
    AList.mem_lookup_iff.mpr (List.mem_filter.mp hentry).1
  have hshared := (List.mem_filter.mp hentry').2
  simp only [sharedEnumerated, Bool.and_eq_true, Option.isNone_iff_eq_none] at hshared
  have hnone := hshared.1.1
  have hkey : entry'.1 = entry.1 := heq
  rw [hkey, hown] at hnone
  cases hnone

/-- A property that is enumerated is an own property. -/
theorem Link.owns_of_mem_listing {p : Name × Option Value} (h : p ∈ o.listing nearer all) :
    o.Owns p.1 := by
  apply Link.owns_iff.mpr
  rcases List.mem_append.mp h with h | h
  · exact Or.inl ⟨p.2, h⟩
  · obtain ⟨prop, hfind, -⟩ := Link.mem_hashed.mp h
    exact Or.inr (by rw [hfind]; simp)

/-- A property of the nearest object that has one is enumerated if it is enumerable. -/
theorem Link.mem_listing (h : o.Own key e v) (hnearer : ∀ n ∈ nearer, ¬n.Owns key)
    (he : (e || all) = true) : (key, v) ∈ o.listing nearer all := by
  cases h with
  | element h => exact List.mem_append_left _ h
  | @hashed prop h hne =>
    apply List.mem_append_right
    refine Link.mem_hashed.mpr ⟨prop, h, rfl, he, fun n hn => ?_⟩
    by_contra hfind
    exact hnearer n hn (Link.owns_iff.mpr (Or.inr hfind))

/-! ## The keys of a chain -/

theorem mem_chainListing {p : Name × Option Value} : p ∈ chainListing all nearer chain ↔
    ∃ between o rest, chain = between ++ o :: rest ∧ p ∈ o.listing (nearer ++ between) all := by
  induction chain generalizing nearer with
  | nil => simp [chainListing]
  | cons o chain ih =>
    rw [chainListing, List.mem_append, ih]
    constructor
    · rintro (h | ⟨between, o', rest, rfl, h⟩)
      · exact ⟨[], o, chain, rfl, by rwa [List.append_nil]⟩
      · exact ⟨o :: between, o', rest, rfl, by rwa [List.append_cons]⟩
    · rintro ⟨between, o', rest, heq, h⟩
      cases between with
      | nil =>
        obtain ⟨rfl, rfl⟩ := List.cons.inj heq
        rw [List.append_nil] at h
        exact Or.inl h
      | cons n between =>
        obtain ⟨rfl, rfl⟩ := List.cons.inj heq
        rw [List.append_cons] at h
        exact Or.inr ⟨between, o', rest, rfl, h⟩

theorem chainListing_append (all : Bool) (nearer chain chain' : List Link) :
    chainListing all nearer (chain ++ chain') =
      chainListing all nearer chain ++ chainListing all (nearer ++ chain) chain' := by
  induction chain generalizing nearer with
  | nil => rw [List.nil_append, chainListing, List.nil_append, List.append_nil]
  | cons o chain ih =>
    have hnearer : nearer ++ [o] ++ chain = nearer ++ o :: chain := (List.append_cons ..).symm
    rw [List.cons_append, chainListing, ih, chainListing, hnearer, List.append_assoc]

/-- The object nearest to the front of a chain that has a property. -/
theorem exists_visible (ho : o ∈ chain) (h : o.Owns key) :
    ∃ e v, Visible chain key e v := by
  induction chain with
  | nil => cases ho
  | cons n chain ih =>
    by_cases hn : n.Owns key
    · obtain ⟨e, v, hown⟩ := hn
      exact ⟨e, v, [], n, chain, rfl, hown, fun _ h => by cases h⟩
    · have hchain : o ∈ chain := by
        rcases List.mem_cons.mp ho with rfl | hmem
        · exact absurd h hn
        · exact hmem
      obtain ⟨e, v, nearer, o', rest, rfl, hown, hnearer⟩ := ih hchain
      exact ⟨e, v, n :: nearer, o', rest, rfl, hown, List.forall_mem_cons.mpr ⟨hn, hnearer⟩⟩

/-- The object that has the visible property is determined. -/
theorem Visible.unique (h : Visible chain key e v) (h' : Visible chain key e' v') : e = e' := by
  obtain ⟨nearer, o, rest, hchain, hown, hnearer⟩ := h
  obtain ⟨nearer', o', rest', hchain', hown', hnearer'⟩ := h'
  induction nearer generalizing nearer' chain with
  | nil =>
    cases nearer' with
    | nil =>
      obtain ⟨rfl, -⟩ := List.cons.inj (hchain.symm.trans hchain')
      exact hown.unique hown'
    | cons n nearer' =>
      obtain ⟨rfl, -⟩ := List.cons.inj (hchain.symm.trans hchain')
      exact absurd ⟨e, v, hown⟩ (hnearer' o List.mem_cons_self)
  | cons n nearer ih =>
    cases nearer' with
    | nil =>
      obtain ⟨rfl, -⟩ := List.cons.inj (hchain.symm.trans hchain')
      exact absurd ⟨e', v', hown'⟩ (hnearer n List.mem_cons_self)
    | cons n' nearer' =>
      obtain ⟨-, hrest⟩ := List.cons.inj (hchain.symm.trans hchain')
      exact ih rfl (fun n hn => hnearer n (List.mem_cons_of_mem _ hn)) nearer' hrest
        (fun n hn => hnearer' n (List.mem_cons_of_mem _ hn))

/-- The keys of the properties that are enumerated are different if none is shadowed. -/
theorem Unshadowed.nodup (h : Unshadowed all (nearer ++ chain)) :
    ((chainListing all nearer chain).map Prod.fst).Nodup := by
  induction chain generalizing nearer with
  | nil => exact List.nodup_nil
  | cons o chain ih =>
    obtain ⟨helements, hhashed⟩ := h nearer o chain rfl
    have hrest : Unshadowed all (nearer ++ [o] ++ chain) := by
      rwa [← List.append_cons]
    rw [chainListing, Link.listing, List.map_append, List.map_append, List.nodup_append,
      List.nodup_append]
    refine ⟨⟨o.elements_nodup, o.hashed_nodup nearer all, ?_⟩, ih hrest, ?_⟩
    · intro name hname name' hname' heq
      subst heq
      obtain ⟨p, hp, rfl⟩ := List.mem_map.mp hname
      obtain ⟨p', hp', heq⟩ := List.mem_map.mp hname'
      have ho : o ∈ nearer ++ [o] := List.mem_append_right _ (List.mem_singleton.mpr rfl)
      exact hhashed p' hp' o ho p.2 (by rw [heq]; exact hp)
    · intro name hname name' hname' heq
      subst heq
      obtain ⟨p', hp', heq⟩ := List.mem_map.mp hname'
      obtain ⟨between, o', rest, rfl, hmem⟩ := mem_chainListing.mp hp'
      obtain ⟨helements', hhashed'⟩ := hrest (nearer ++ [o] ++ between) o' rest
        (by simp only [List.append_assoc])
      have ho : o ∈ nearer ++ [o] ++ between :=
        List.mem_append_left _ (List.mem_append_right _ (List.mem_singleton.mpr rfl))
      rw [← List.map_append] at hname
      obtain ⟨p, hp, hkey⟩ := List.mem_map.mp hname
      have hkeys : p.1 = p'.1 := hkey.trans heq.symm
      rcases List.mem_append.mp hmem with hmem | hmem
      · exact helements' p' hmem o ho (hkeys ▸ Link.owns_of_mem_listing hp)
      · rcases List.mem_append.mp hp with hp | hp
        · exact hhashed' p' hmem o (List.mem_append_left _ ho) p.2 (by rw [← hkeys]; exact hp)
        · obtain ⟨prop, hfind, -⟩ := Link.mem_hashed.mp hp
          obtain ⟨_, -, -, -, hnone⟩ := Link.mem_hashed.mp hmem
          rw [hkeys, hnone o ho] at hfind
          cases hfind

/-- What is visible is enumerated, shadowed or not. -/
theorem Visible.listed (h : Visible chain key e v) (he : (e || all) = true) :
    (key, v) ∈ chainListing all [] chain := by
  obtain ⟨nearer, o, rest, hchain, hown, hnearer⟩ := h
  apply mem_chainListing.mpr
  exact ⟨nearer, o, rest, hchain, Link.mem_listing hown hnearer he⟩

/-- What is enumerated is visible if nothing is shadowed. -/
theorem Unshadowed.visible (h : Unshadowed all chain)
    (hmem : (key, v) ∈ chainListing all [] chain) :
    ∃ e, Visible chain key e v ∧ (e || all) = true := by
  obtain ⟨nearer, o, rest, rfl, hlisting⟩ := mem_chainListing.mp hmem
  obtain ⟨helements, hhashed⟩ := h nearer o rest rfl
  rw [List.nil_append] at hlisting
  rcases List.mem_append.mp hlisting with hmem | hmem
  · have hnearer := helements _ hmem
    exact ⟨true, ⟨nearer, o, rest, rfl, .element hmem, hnearer⟩, rfl⟩
  · obtain ⟨prop, hfind, rfl, henumerable, hnone⟩ := Link.mem_hashed.mp hmem
    have hfree := hhashed _ hmem
    refine ⟨prop.enumerable.holds, ⟨nearer, o, rest, rfl, .hashed hfind ?_, ?_⟩, henumerable⟩
    · exact hfree o (List.mem_append_right _ (List.mem_singleton.mpr rfl))
    · intro n hn howns
      rcases Link.owns_iff.mp howns with ⟨v, helement⟩ | hfind
      · exact hfree n (List.mem_append_left _ hn) v helement
      · exact hfind (hnone n hn)

/-- The listing is right if nothing is shadowed. -/
theorem Unshadowed.lists (h : Unshadowed all chain) :
    Lists all chain (chainListing all [] chain) :=
  ⟨Unshadowed.nodup h, fun _ _ => ⟨h.visible, fun ⟨_, hvisible, he⟩ =>
    hvisible.listed he⟩⟩

/-- If so many properties are visible as are enumerated, nothing is shadowed. -/
theorem Lists.unshadowed {l : List (Name × Option Value)} (h : Lists all chain l)
    (hlength : l.length = (chainListing all [] chain).length) : Unshadowed all chain := by
  obtain ⟨hnodup, hmem⟩ := h
  have hsubset : l ⊆ chainListing all [] chain := by
    rintro ⟨key, v⟩ hp
    obtain ⟨e, hvisible, he⟩ := (hmem key v).mp hp
    exact hvisible.listed he
  have hperm : l.Perm (chainListing all [] chain) :=
    ((hnodup.of_map Prod.fst).subperm hsubset).perm_of_length_le hlength.ge
  have hkeys : ((chainListing all [] chain).map Prod.fst).Nodup :=
    (hperm.map Prod.fst).nodup hnodup
  rintro nearer o rest rfl
  rw [chainListing_append, List.nil_append, chainListing] at hperm hkeys
  rw [List.map_append, List.map_append, List.nodup_append, List.nodup_append] at hkeys
  obtain ⟨-, ⟨hown, -, -⟩, hapart⟩ := hkeys
  -- A key of this object is none of those that are enumerated of the nearer objects.
  have hnearer : ∀ p ∈ o.listing nearer all, ∀ n ∈ nearer, ∀ v, (p.1, v) ∈ n.elements → False := by
    intro p hp n hn v hv
    obtain ⟨before, between, rfl⟩ := List.append_of_mem hn
    have hlisted : (p.1, v) ∈ chainListing all [] (before ++ n :: between) :=
      mem_chainListing.mpr ⟨before, n, between, rfl, List.mem_append_left _ hv⟩
    exact hapart _ (List.mem_map.mpr ⟨_, hlisted, rfl⟩) p.1
      (List.mem_append_left _ (List.mem_map.mpr ⟨p, hp, rfl⟩)) rfl
  constructor
  · intro p hp n hn howns
    obtain ⟨e, v, hvisible⟩ := exists_visible hn howns
    have hlisting : p ∈ o.listing nearer all := List.mem_append_left _ hp
    have hp' : (p.1, p.2) ∈ l := hperm.mem_iff.mpr
      (List.mem_append_right _ (List.mem_append_left _ hlisting))
    obtain ⟨e', hvisible', he'⟩ := (hmem p.1 p.2).mp hp'
    obtain ⟨before, n', between, rfl, hown', hbefore⟩ := hvisible
    have hsame : e = e' := Visible.unique ⟨before, n', between ++ o :: rest, by simp, hown',
      hbefore⟩ hvisible'
    subst hsame
    have hlisted : (p.1, v) ∈ chainListing all [] (before ++ n' :: between) :=
      Visible.listed ⟨before, n', between, rfl, hown', hbefore⟩ he'
    exact hapart _ (List.mem_map.mpr ⟨_, hlisted, rfl⟩) p.1
      (List.mem_append_left _ (List.mem_map.mpr ⟨p, hlisting, rfl⟩)) rfl
  · intro p hp n hn v hv
    rcases List.mem_append.mp hn with hn | hn
    · exact hnearer p (List.mem_append_right _ hp) n hn v hv
    · obtain rfl := List.mem_singleton.mp hn
      rw [Link.listing, List.map_append, List.nodup_append] at hown
      exact hown.2.2 _ (List.mem_map.mpr ⟨_, hv, rfl⟩) p.1 (List.mem_map.mpr ⟨p, hp, rfl⟩) rfl

/-! ## The array that is returned -/

theorem enumerated_of_tooLong {length : ℕ} {fill : Items → Result Items}
    (h : arrayMaxLength < length % 2 ^ 32 + arraySpare) :
    enumerated memory (UInt32.ofNat length) fill = .error (.throw .memoryError) := by
  rw [enumerated, UInt32.toNat_ofNat', if_neg (by omega)]

/-- What is returned for a listing. -/
theorem enumerates_iff {length : UInt32} {fill : EnumMemory → Items → Result Items}
    (hlength : length = UInt32.ofNat (chainListing all [] chain).length)
    (hfill : ∀ memory items, fill memory items =
      putAll memory kind (chainListing all [] chain) items) :
    (∀ memory, Enumerates kind all chain (enumerated memory length (fill memory))) ↔
      TooLong all chain ∨ Fits all chain ∧ Unshadowed all chain := by
  subst hlength
  have hnat : (UInt32.ofNat (chainListing all [] chain).length).toNat =
      (chainListing all [] chain).length % 2 ^ 32 := UInt32.toNat_ofNat'
  by_cases hlong : TooLong all chain
  · exact ⟨fun _ => Or.inl hlong, fun _ memory => Or.inl (enumerated_of_tooLong hlong)⟩
  have hroom : (chainListing all [] chain).length % 2 ^ 32 + arraySpare ≤ arrayMaxLength :=
    Nat.le_of_not_lt hlong
  constructor
  · intro h
    right
    have hfull := h ⟨true, fun _ => true⟩
    rw [enumerated, hnat, if_pos ⟨hroom, rfl⟩, hfill] at hfull
    have hfits : Fits all chain := by
      by_contra hfits
      have hbeyond : (chainListing all [] chain).length % 2 ^ 32 + arraySpare <
          (chainListing all [] chain).length := by
        have hmod := Nat.mod_lt (chainListing all [] chain).length (by decide : 0 < 2 ^ 32)
        have hmax : arrayMaxLength < 2 ^ 32 := by decide
        unfold Fits at hfits
        omega
      rw [putAll_fault (fun _ => rfl) hbeyond] at hfull
      rcases hfull with hfull | ⟨l, -, hfull⟩ <;> cases hfull
    have hmod : (chainListing all [] chain).length % 2 ^ 32 =
        (chainListing all [] chain).length := Nat.mod_eq_of_lt hfits
    rw [putAll_of_memory (fun _ => rfl) (by simp only [hmod]; omega)] at hfull
    rcases hfull with hfull | ⟨l, hlists, hfull⟩
    · cases hfull
    · have hpair := Prod.mk.inj (Except.ok.inj hfull)
      exact ⟨hfits, hlists.unshadowed (hpair.1.symm.trans hmod)⟩
  · rintro (hlong' | ⟨hfits, hunshadowed⟩) memory
    · exact absurd hlong' hlong
    have hmod : (chainListing all [] chain).length % 2 ^ 32 =
        (chainListing all [] chain).length := Nat.mod_eq_of_lt hfits
    rw [enumerated, hnat, hmod]
    split_ifs with hmemory
    · rw [hfill]
      have hroom : (chainListing all [] chain).length ≤
          (⟨(chainListing all [] chain).length + arraySpare, []⟩ : Items).room :=
        Nat.le_add_right _ arraySpare
      rcases putAll_of_room memory kind hroom with hput | hput
      · left
        rw [hput]
        rfl
      · right
        refine ⟨_, hunshadowed.lists, ?_⟩
        rw [hput]
        rfl
    · exact Or.inl rfl

theorem array_ne_string (start : List (Option Value)) (value : List Name) :
    ObjectType.array start ≠ .string value := by
  rintro ⟨⟩

/-- An object that is no string object. -/
def linkOf (o : Object) (h : ∀ value, o.type ≠ .string value) : Link :=
  { o with characters := fun value htype => absurd htype (h value) }

/-- The array `[1]`. -/
def oneElement : Link :=
  linkOf (plain (.array [some (.number (.finite 1))]) true (array_ne_string _)) (array_ne_string _)

end Njs.Objects.Enumeration
