import Mathlib.Data.ENat.Lattice
import Mathlib.Order.Bounds.Basic
import Njs.Str.OffsetMap
import Njs.Str.Search

/-!
# Occurrences of a string in another

What the search functions are about: the characters of a string at which another occurs, the
first and the last of them, and the positions that a number stands for. The steps over bytes
and over characters visit all places where an occurrence may be.
-/

namespace Njs.Str

open Utf8 Lib

/-- The bytes of a string are at a byte offset of another. -/
def FoundAt (s t : Subject) (off : ℕ) : Prop := t.prop.start <+: s.prop.start.drop off

/-- A string occurs at a character of another. -/
def Occurs (s t : Subject) (i : ℕ) : Prop := i ≤ s.chars.length ∧ FoundAt s t (s.offset i)

/-- The first of some places, or -1 if there is none. -/
def IsFirst (places : Set ℕ) (r : ℤ) : Prop :=
  (r = -1 ∧ places = ∅) ∨ ∃ i : ℕ, r = i ∧ IsLeast places i

/-- The last of some places, or -1 if there is none. -/
def IsLast (places : Set ℕ) (r : ℤ) : Prop :=
  (r = -1 ∧ places = ∅) ∨ ∃ i : ℕ, r = i ∧ IsGreatest places i

/-- The position that a number stands for, where what is below zero is zero. -/
def startPosition : Number → ℕ∞
  | .nan => 0
  | .posInfinity => ⊤
  | .negInfinity => 0
  | .finite q => (Njs.truncate q).toNat

/-! ### Positions -/

theorem tmod_nonpos {z : ℤ} (h : z ≤ 0) : z.tmod 4294967296 ≤ 0 := by
  obtain ⟨n, rfl⟩ := Int.exists_eq_neg_ofNat h
  rw [Int.neg_tmod]
  have hpos := Int.tmod_nonneg 4294967296 (Int.natCast_nonneg n)
  omega

theorem numberToInt64_le (q : ℚ) : numberToInt64 q ≤ (Njs.truncate q).toNat := by
  unfold numberToInt64
  split_ifs
  · rcases Int.le_total 0 (Njs.truncate q) with hpos | hneg
    · rw [Int.tmod_eq_emod_of_nonneg hpos]
      omega
    · have hmod := tmod_nonpos hneg
      omega
  · exact Int.self_le_toNat _

/-- The conversion of the source never makes a position greater. -/
theorem numberToInteger_le (n : Number) : ((numberToInteger n).toNat : ℕ∞) ≤ startPosition n := by
  cases n with
  | nan => exact Nat.cast_le.mpr (Nat.le_refl 0)
  | posInfinity => exact le_top
  | negInfinity => exact Nat.cast_le.mpr (by decide)
  | finite q =>
    have hle := numberToInt64_le q
    exact Nat.cast_le.mpr (Int.toNat_le.mpr hle)

namespace Subject

theorem prop_chars (s : Subject) : s.prop.chars = s.chars.length := by
  cases s with
  | bytes bs => simp [prop, chars, StringProp.chars, StringProp.size]
  | text us =>
    cases us with
    | nil => rfl
    | cons u us => simp [prop, chars, textChars, StringProp.chars]

theorem offset_length (s : Subject) : s.offset s.chars.length = s.prop.size := by
  rw [offset, Segments.offset_length, s.chars_flatten, StringProp.size]

theorem offset_le_size (s : Subject) (i : ℕ) : s.offset i ≤ s.prop.size := by
  rw [StringProp.size, ← s.chars_flatten]
  exact Segments.offset_le s.chars i

theorem offset_mono (s : Subject) : Monotone s.offset := by
  intro i j hij
  obtain ⟨k, rfl⟩ := Nat.exists_eq_add_of_le hij
  rw [offset, offset, Segments.offset_add]
  exact Nat.le_add_right _ _

theorem offset_lt (s : Subject) {i j : ℕ} (hij : i < j) (hj : j ≤ s.chars.length) :
    s.offset i < s.offset j := Segments.offset_lt_offset s.chars_ne_nil hij hj

theorem le_of_offset_le (s : Subject) {i j : ℕ} (hi : i ≤ s.chars.length)
    (h : s.offset i ≤ s.offset j) : i ≤ j := by
  by_contra hlt
  exact absurd h (Nat.not_le_of_lt (s.offset_lt (Nat.lt_of_not_le hlt) hi))

theorem offset_of_length_le (s : Subject) {i : ℕ} (hi : s.chars.length ≤ i) :
    s.offset i = s.prop.size :=
  Nat.le_antisymm (s.offset_le_size i) (s.offset_length ▸ s.offset_mono hi)

theorem lt_length (s : Subject) {i : ℕ} (h : s.offset i < s.prop.size) : i < s.chars.length := by
  by_contra hle
  rw [s.offset_of_length_le (Nat.le_of_not_lt hle)] at h
  exact Nat.lt_irrefl _ h

theorem length_le_size (s : Subject) : s.chars.length ≤ s.prop.size := by
  have hle := Segments.le_offset s.chars_ne_nil (Nat.le_refl s.chars.length)
  rwa [Segments.offset_length, s.chars_flatten] at hle

/-- In a byte or ASCII string the characters are the bytes. -/
theorem offset_eq_self {s : Subject} (h : s.prop.size = s.prop.chars) {i : ℕ}
    (hi : i ≤ s.chars.length) : s.offset i = i := by
  refine Segments.offset_eq_self s.chars_ne_nil ?_ hi
  rw [s.chars_flatten, ← s.prop_chars, ← h, StringProp.size]

/-- The other strings are texts. -/
theorem exists_text {s : Subject} (h : s.prop.size ≠ s.prop.chars) :
    ∃ us, s = .text us ∧ (code.encodeAll us).length ≠ us.length := by
  cases s with
  | bytes bs => simp [prop, StringProp.chars, StringProp.size] at h
  | text us =>
    refine ⟨us, rfl, fun hascii => h ?_⟩
    rw [prop_chars, chars, textChars_length, ← hascii]
    rfl

/-- Only the empty string has no characters. -/
theorem start_eq_nil_iff (t : Subject) : t.prop.start = [] ↔ t.chars = [] := by
  rw [← t.chars_flatten, List.flatten_eq_nil_iff]
  refine ⟨fun h => List.eq_nil_iff_forall_not_mem.mpr fun c hc => ?_, fun h => by simp [h]⟩
  exact t.chars_ne_nil c hc (h c hc)

end Subject

/-- There are cells with which a string may be in memory. -/
theorem inMemory_replicate (s : Subject) : InMemory s (List.replicate (mapCells s.prop) 0) where
  length := List.length_replicate
  initialized := by
    rcases Nat.eq_zero_or_pos (mapCells s.prop) with hzero | hpos
    · exact .inr (by simp [hzero])
    · exact .inl (by simp [hpos])

/-! ### Places -/

theorem FoundAt.add_le {s t : Subject} {off : ℕ} (h : FoundAt s t off) (ht : t.chars ≠ []) :
    off + t.prop.size ≤ s.prop.size := by
  have hle := h.length_le
  have hpos := List.length_pos_of_ne_nil (mt t.start_eq_nil_iff.mp ht)
  rw [List.length_drop] at hle
  simp only [StringProp.size]
  omega

theorem size_pos {t : Subject} (ht : t.chars ≠ []) : 0 < t.prop.size :=
  List.length_pos_of_ne_nil (mt t.start_eq_nil_iff.mp ht)

theorem memcmpEq_eq {bytes search : List UInt8} {p : ℕ} (hp : p + search.length ≤ bytes.length) :
    memcmpEq bytes p search = .ok (decide (search <+: bytes.drop p)) := by
  unfold memcmpEq
  split_ifs with hempty hbounds
  · simp [hempty]
  · simp
  · omega

theorem IsFirst.unique {places : Set ℕ} {r r' : ℤ} (h : IsFirst places r)
    (h' : IsFirst places r') : r = r' := by
  rcases h with ⟨rfl, hnone⟩ | ⟨i, rfl, hi⟩ <;> rcases h' with ⟨rfl, hnone'⟩ | ⟨j, rfl, hj⟩
  · rfl
  · exact absurd hj.1 (by simp [hnone])
  · exact absurd hi.1 (by simp [hnone'])
  · rw [hi.unique hj]

/-- The loop of the search functions stops at the first of the places where the search string
is, if its steps reach them all. -/
theorem searchLoop_spec {bytes search : List UInt8} {stop : ℤ} {next place : ℕ → ℕ}
    (hsearch : search ≠ []) (hstop : stop = bytes.length - (search.length - 1 : ℤ))
    (hmono : Monotone place) (hstep : ∀ j, (place j : ℤ) < stop → place j < place (j + 1) ∧
      (next (place j) = place (j + 1) ∨ (stop ≤ next (place j) ∧ stop ≤ place (j + 1))))
    (fuel i index : ℕ) (hfuel : stop - place i < fuel) :
    (searchLoop bytes search stop next fuel (place i) index = .ok none ∧
      ∀ j, i ≤ j → ¬ search <+: bytes.drop (place j)) ∨
    ∃ j, i ≤ j ∧ searchLoop bytes search stop next fuel (place i) index =
        .ok (some (index + (j - i))) ∧ search <+: bytes.drop (place j) ∧
      ∀ j', i ≤ j' → j' < j → ¬ search <+: bytes.drop (place j') := by
  have hpos := List.length_pos_of_ne_nil hsearch
  have hafter : ∀ i, stop ≤ place i → ∀ j, i ≤ j → ¬ search <+: bytes.drop (place j) := by
    intro i hi j hij hfound
    have hle := hfound.length_le
    have hplace := hmono hij
    rw [List.length_drop] at hle
    omega
  induction fuel generalizing i index with
  | zero =>
    refine .inl ⟨rfl, hafter i ?_⟩
    simp only [Nat.cast_zero] at hfuel
    omega
  | succ fuel ih =>
    rw [searchLoop]
    by_cases hlt : (place i : ℤ) < stop
    · have hbounds : place i + search.length ≤ bytes.length := by omega
      rw [if_pos hlt, memcmpEq_eq hbounds]
      by_cases hfound : search <+: bytes.drop (place i)
      · refine .inr ⟨i, Nat.le_refl i, ?_, hfound, fun j' hj' hlt' => by omega⟩
        simp [hfound, bind, Except.bind]
      · simp only [hfound, decide_false, bind, Except.bind, Bool.false_eq_true, if_false]
        have hrest : ∀ j, i ≤ j → j ≠ i → i + 1 ≤ j := fun j hj hne => by omega
        obtain ⟨hinc, hnext | ⟨hover, hplace⟩⟩ := hstep i hlt
        · rw [hnext]
          rcases ih (i + 1) (index + 1) (by omega) with ⟨hok, hnone⟩ | ⟨j, hj, hok, hat, hleast⟩
          · refine .inl ⟨hok, fun j hj => ?_⟩
            by_cases hne : j = i
            · rwa [hne]
            · exact hnone j (hrest j hj hne)
          · refine .inr ⟨j, by omega, ?_, hat, fun j' hj' hlt' => ?_⟩
            · rw [hok, show index + 1 + (j - (i + 1)) = index + (j - i) by omega]
            · by_cases hne : j' = i
              · rwa [hne]
              · exact hleast j' (hrest j' hj' hne) hlt'
        · refine .inl ⟨?_, fun j hj => ?_⟩
          · cases fuel with
            | zero => rfl
            | succ fuel => rw [searchLoop, if_neg (by omega)]
          · by_cases hne : j = i
            · rwa [hne]
            · exact hafter (i + 1) hplace j (hrest j hj hne)
    · rw [if_neg hlt]
      exact .inl ⟨rfl, hafter i (by omega)⟩

/-! ### Texts in texts -/

/-- A byte of a text that does not continue a character begins one. -/
theorem exists_offset_of_not_continuation {us : List CodePoint} {off : ℕ} {b : UInt8}
    (hb : (code.encodeAll us)[off]? = some b) (hcont : ¬ IsContinuation b) :
    ∃ i < us.length, off = Segments.offset (textChars us) i := by
  induction us generalizing off with
  | nil => simp at hb
  | cons u us ih =>
    obtain ⟨b', cs, hu, -, hcs, -⟩ := encode_eq_cons u
    rcases Nat.lt_or_ge off (code.encode u).length with hlt | hge
    · refine ⟨0, by simp, ?_⟩
      rw [code.encodeAll_cons, List.getElem?_append_left hlt, hu] at hb
      rw [Segments.offset_zero]
      cases off with
      | zero => rfl
      | succ off => exact absurd (hcs b (List.mem_of_getElem? hb)) hcont
    · rw [code.encodeAll_cons, List.getElem?_append_right hge] at hb
      obtain ⟨i, hi, heq⟩ := ih hb
      refine ⟨i + 1, by simpa using hi, ?_⟩
      change off = Segments.offset (code.encode u :: textChars us) (i + 1)
      rw [Segments.offset_cons_succ]
      omega

/-- At a character of a text, another text is found if its code points are there. -/
theorem foundAt_offset_iff {us vs : List CodePoint} {i : ℕ} :
    FoundAt (.text us) (.text vs) ((Subject.text us).offset i) ↔ vs <+: us.drop i := by
  change code.encodeAll vs <+: (code.encodeAll us).drop (Segments.offset (textChars us) i) ↔ _
  rw [drop_offset_text, code.encodeAll_prefix_iff]

/-- The place after a text that is found at a character. -/
theorem offset_add_of_leading {us vs : List CodePoint} {k : ℕ} (h : vs <+: us.drop k) :
    (Subject.text us).offset (k + vs.length) =
      (Subject.text us).offset k + (Subject.text vs).prop.size := by
  obtain ⟨rest, hrest⟩ := h
  have hdrop : (textChars us).drop k = textChars vs ++ textChars rest := by
    rw [textChars, ← List.map_drop, ← hrest, List.map_append]
    rfl
  change Segments.offset (textChars us) (k + vs.length) = Segments.offset (textChars us) k + _
  have hoffset : Segments.offset (textChars vs ++ textChars rest) vs.length =
      (code.encodeAll vs).length := by
    rw [Segments.offset, ← textChars_length vs, List.take_left, textChars_flatten]
  rw [Segments.offset_add, hdrop, hoffset]
  rfl

/-- A text is not found inside of a character. -/
theorem exists_offset_of_foundAt {us vs : List CodePoint} (hvs : vs ≠ []) {off : ℕ}
    (h : FoundAt (.text us) (.text vs) off) :
    ∃ i < us.length, off = (Subject.text us).offset i := by
  obtain ⟨v, vs, rfl⟩ := List.exists_cons_of_ne_nil hvs
  obtain ⟨b, cs, hv, hb, -, -⟩ := encode_eq_cons v
  obtain ⟨rest, hrest⟩ := h
  refine exists_offset_of_not_continuation (b := b) ?_ hb
  change code.encodeAll (v :: vs) ++ rest = (code.encodeAll us).drop off at hrest
  rw [code.encodeAll_cons, hv] at hrest
  have hhead : ((code.encodeAll us).drop off)[0]? = some b := by rw [← hrest]; rfl
  rwa [List.getElem?_drop, Nat.add_zero] at hhead

/-! ### Steps over characters -/

theorem continuationScan_spec {stop : ℤ} {rest : List UInt8}
    (hrest : ∀ b ∈ rest.head?, ¬ IsContinuation b) (cs : List UInt8)
    (hcs : ∀ c ∈ cs, IsContinuation c) (p : ℕ) :
    continuationScan stop (cs ++ rest) p = p + cs.length ∨
      (stop ≤ continuationScan stop (cs ++ rest) p ∧ stop ≤ (p + cs.length : ℕ)) := by
  induction cs generalizing p with
  | nil =>
    left
    cases rest with
    | nil => rfl
    | cons b rest =>
      have hb : ¬ b &&& 0xC0 = 0x80 := fun h => hrest b rfl ((and_c0_iff b).mp h)
      rw [List.nil_append, continuationScan, if_neg hb]
      rfl
  | cons c cs ih =>
    have hc : c &&& 0xC0 = 0x80 := (and_c0_iff c).mpr (hcs c List.mem_cons_self)
    rw [List.cons_append, continuationScan, if_pos hc, List.length_cons]
    split_ifs with hlt
    · rcases ih (fun c hc => hcs c (List.mem_cons_of_mem _ hc)) (p + 1) with heq | ⟨hover, hend⟩
      · left
        omega
      · right
        refine ⟨hover, ?_⟩
        push_cast at hend ⊢
        omega
    · right
      push_cast
      omega

/-- The place of a character of a text is after the encoding of the one before. -/
theorem text_offset_succ {us : List CodePoint} {i : ℕ} (hi : i < us.length) :
    (Subject.text us).offset (i + 1) =
      (Subject.text us).offset i + (code.encode us[i]).length := by
  have hi' : i < (textChars us).length := by rwa [textChars_length]
  change Segments.offset (textChars us) (i + 1) = Segments.offset (textChars us) i + _
  rw [Segments.offset_add, List.drop_eq_getElem_cons hi', Segments.offset_cons_succ,
    Segments.offset_zero, Nat.add_zero]
  simp [textChars]

/-- `njs_utf8_next` goes to the next character, or to the end that it is given. -/
theorem utf8NextTo_text {us : List CodePoint} (stop : ℤ) {i : ℕ} (hi : i < us.length) :
    let s := Subject.text us
    utf8NextTo s.prop.start stop (s.offset i) = s.offset (i + 1) ∨
      (stop ≤ utf8NextTo s.prop.start stop (s.offset i) ∧ stop ≤ s.offset (i + 1)) := by
  intro s
  have hdrop := drop_offset_text us i
  rw [List.drop_eq_getElem_cons hi, code.encodeAll_cons] at hdrop
  obtain ⟨b, cs, hu, -, hcs, hone⟩ := encode_eq_cons us[i]
  rw [hu, List.cons_append] at hdrop
  have hplace : s.offset (i + 1) = s.offset i + 1 + cs.length := by
    have hsucc := text_offset_succ hi
    rw [hu, List.length_cons, ← Nat.add_assoc] at hsucc
    rw [Nat.add_right_comm]
    exact hsucc
  have hnext : utf8NextTo s.prop.start stop (s.offset i) =
      if b &&& 0x80 ≠ 0 then
        continuationScan stop (cs ++ code.encodeAll (us.drop (i + 1))) (s.offset i + 1)
      else s.offset i + 1 := by
    have hstart : s.prop.start.drop (s.offset i) =
        b :: (cs ++ code.encodeAll (us.drop (i + 1))) := hdrop
    rw [utf8NextTo, hstart]
  rw [hnext, hplace]
  split_ifs with hhigh
  · exact continuationScan_spec (head?_encodeAll _) cs hcs _
  · left
    rw [hone ((not_high_iff b).mp hhigh), List.length_nil, Nat.add_zero]

end Njs.Str
