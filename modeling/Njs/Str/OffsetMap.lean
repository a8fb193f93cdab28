import Njs.Str.Subject

/-!
# The offset map in memory

`njs_string_offset`, `njs_string_index` and `njs_string_offset_map_init` with the cells that
`njs_string_alloc` reserves after the bytes of a string. The first cell is zero until the map
is initialised, and an access to a cell outside is a fault.
-/

namespace Njs.Str

open Utf8 Lib

/-- The number of cells that `njs_string_alloc` reserves. -/
def mapCells (string : StringProp) : ℕ :=
  if string.size ≠ string.length ∧ string.length > mapStride then
    mapSize string.length / 4 else 0

/-- `map[i]`. -/
def readCell (cells : List ℕ) (i : ℕ) : Result ℕ :=
  match cells[i]? with
  | some cell => .ok cell
  | none => .error .fault

/-- `map[i] = cell`. -/
def writeCell (cells : List ℕ) (i cell : ℕ) : Result (List ℕ) :=
  if i < cells.length then .ok (cells.set i cell) else .error .fault

/-- The loop of `njs_string_offset_map_init` over the rest `p` of a string. Every iteration
consumes a byte, so the size is fuel enough. -/
def mapInitLoop (size : ℕ) : ℕ → List UInt8 → ℕ → ℕ → List ℕ → Result (List ℕ)
  | 0, _, _, _, cells => .ok cells
  | fuel + 1, p, n, offset, cells => do
    let cells ← if offset = 0 then writeCell cells n (size - p.length) else .ok cells
    let n := if offset = 0 then n + 1 else n
    let offset := if offset = 0 then mapStride else offset
    let next := utf8Next p
    if next = [] then .ok cells else mapInitLoop size fuel next n (offset - 1) cells

/-- `njs_string_offset_map_init`. -/
def offsetMapInit (start : List UInt8) (cells : List ℕ) : Result (List ℕ) :=
  mapInitLoop start.length start.length start 0 mapStride cells

/-- The map is initialised if its first cell is zero. -/
def initializedMap (start : List UInt8) (cells : List ℕ) : Result (List ℕ) := do
  let first ← readCell cells 0
  if first = 0 then offsetMapInit start cells else .ok cells

/-- The loop of `njs_string_offset`. No byte is read at the end of the string. -/
def skipChars : ℕ → List UInt8 → Result (List UInt8)
  | 0, p => .ok p
  | _ + 1, [] => .error .fault
  | skip + 1, c :: p => skipChars skip (utf8Next (c :: p))

/-- The offset at which `njs_string_offset` begins to step, from the map if it is used. -/
def offsetStart (string : StringProp) (cells : List ℕ) (index : ℕ) : Result (ℕ × List ℕ) :=
  if index ≥ mapStride then do
    let cells ← initializedMap string.start cells
    let start ← readCell cells (index / mapStride - 1)
    .ok (start, cells)
  else .ok (0, cells)

/-- `njs_string_offset`, as a byte offset, with the cells after the call. -/
def stringOffset (string : StringProp) (cells : List ℕ) (index : ℕ) : Result (ℕ × List ℕ) := do
  let start ← offsetStart string cells index
  let p ← skipChars (index % mapStride) (string.start.drop start.1)
  .ok (string.size - p.length, start.2)

/-- The loop of `njs_string_index` over the map, from the cell `i` on. The length is fuel
enough. -/
def cellSearch (length offset : ℕ) (cells : List ℕ) : ℕ → ℕ → ℕ → ℕ → Result (ℕ × ℕ)
  | 0, _, last, index => .ok (last, index)
  | fuel + 1, i, last, index =>
    if index + mapStride < length then do
      let cell ← readCell cells i
      if cell ≤ offset then cellSearch length offset cells fuel (i + 1) cell (index + mapStride)
      else .ok (last, index)
    else .ok (last, index)

/-- The values of `last` and `index` with which `njs_string_index` begins to step. -/
def indexStart (string : StringProp) (cells : List ℕ) (offset : ℕ) :
    Result ((ℕ × ℕ) × List ℕ) :=
  if string.length ≥ mapStride then do
    let cells ← initializedMap string.start cells
    let found ← cellSearch string.length offset cells string.length 0 0 0
    .ok (found, cells)
  else .ok ((0, 0), cells)

/-- `njs_string_index`, with the cells after the call. -/
def storedIndex (string : StringProp) (cells : List ℕ) (offset : ℕ) : Result (ℕ × List ℕ) :=
  if string.size = string.length then .ok (offset, cells)
  else do
    let start ← indexStart string cells offset
    .ok (indexLoop string.size offset string.size (string.start.drop start.1.1) start.1.2, start.2)

/-! ### A string in memory -/

/-- The cells of a string are not initialised, or they are the offsets of every 32nd
character. -/
structure InMemory (s : Subject) (cells : List ℕ) : Prop where
  length : cells.length = mapCells s.prop
  initialized : cells[0]? = some 0 ∨
    ∀ i cell, cells[i]? = some cell → cell = s.offset (mapStride * (i + 1))

/-- `njs_string_offset` gives the byte position of a character, whether the map has been
initialised or not, and accesses no cell outside. -/
def OffsetHolds (s : Subject) (k : ℕ) : Prop :=
  ∀ cells, InMemory s cells →
    ∃ cells', stringOffset s.prop cells k = .ok (s.offset k, cells') ∧ InMemory s cells'

/-- `njs_string_index` of the byte position of a character gives its number. -/
def IndexHolds (s : Subject) (k : ℕ) : Prop :=
  ∀ cells, InMemory s cells →
    ∃ cells', storedIndex s.prop cells (s.offset k) = .ok (k, cells') ∧ InMemory s cells'

end Njs.Str

/-!
## Where the offset map agrees with a scan

The map of a text with more than 32 characters is filled in within its cells, and then both
functions agree with a scan over the characters. At other lengths there may be no map.
-/

namespace Njs.Str

open Utf8 Lib

/-- Nothing is left of a text after all of its characters only. -/
theorem length_le_of_encodeAll_eq_nil {us : List CodePoint} {k : ℕ}
    (h : code.encodeAll (us.drop k) = []) : us.length ≤ k := by
  cases hdrop : us.drop k with
  | nil => exact List.drop_eq_nil_iff.mp hdrop
  | cons u vs =>
    rw [hdrop, code.encodeAll_cons] at h
    exact absurd (List.append_eq_nil_iff.mp h).1 (code.encode_ne_nil u)

section Text

variable {us : List CodePoint}

/-- All cells are written, with the offsets of every 32nd character. -/
theorem mapInitLoop_spec {fuel k n offset : ℕ} {cells : List ℕ} (hk : k < us.length)
    (hfuel : us.length - k ≤ fuel) (hoffset : k + offset = mapStride * (n + 1))
    (hle : offset ≤ mapStride) (hlen : cells.length = (us.length - 1) / mapStride)
    (hcells : ∀ i < n, cells[i]? = some (Segments.offset (textChars us) (mapStride * (i + 1)))) :
    ∃ cells', mapInitLoop (code.encodeAll us).length fuel (code.encodeAll (us.drop k)) n offset
        cells = .ok cells' ∧ cells'.length = cells.length ∧
      ∀ i < cells'.length, cells'[i]? =
        some (Segments.offset (textChars us) (mapStride * (i + 1))) := by
  induction fuel generalizing k n offset cells with
  | zero => omega
  | succ fuel ih =>
    rw [mapInitLoop, utf8Next_drop hk, size_sub_rest]
    simp only [mapStride] at *
    by_cases hzero : offset = 0
    · have hn : n < cells.length := by omega
      have hset : ∀ i < n + 1, (cells.set n (Segments.offset (textChars us) k))[i]? =
          some (Segments.offset (textChars us) (32 * (i + 1))) := by
        intro i hi
        rcases Nat.lt_or_eq_of_le (Nat.le_of_lt_succ hi) with hlt | rfl
        · rw [List.getElem?_set_ne (by omega), hcells i hlt]
        · rw [List.getElem?_set_self hn, show k = 32 * (i + 1) by omega]
      simp only [if_pos hzero, writeCell, if_pos hn, bind, Except.bind]
      split_ifs with hend
      · have hlast := length_le_of_encodeAll_eq_nil hend
        refine ⟨_, rfl, by simp, fun i hi => hset i ?_⟩
        rw [List.length_set] at hi
        omega
      · obtain ⟨cells', hok, hlen', hcells'⟩ := @ih _ (n + 1) 31 _
          (lt_length_of_encodeAll_ne_nil hend) (by omega) (by omega) (by omega)
          (by rw [List.length_set, hlen]) hset
        exact ⟨cells', hok, by rw [hlen', List.length_set], hcells'⟩
    · simp only [if_neg hzero, bind, Except.bind]
      split_ifs with hend
      · have hlast := length_le_of_encodeAll_eq_nil hend
        exact ⟨cells, rfl, rfl, fun i hi => hcells i (by omega)⟩
      · exact ih (lt_length_of_encodeAll_ne_nil hend) (by omega) (by omega) (by omega) hlen hcells

theorem mapCells_text (hmap : (code.encodeAll us).length ≠ us.length)
    (hlong : mapStride < us.length) :
    mapCells (Subject.text us).prop = (us.length - 1) / mapStride := by
  have hcells : mapCells (Subject.text us).prop = mapSize us.length / 4 := if_pos ⟨hmap, hlong⟩
  rw [hcells, mapSize, Nat.mul_div_cancel _ (by decide)]

/-- The initialised map of a text that is long enough. -/
theorem initializedMap_spec {cells : List ℕ} (hmap : (code.encodeAll us).length ≠ us.length)
    (hlong : mapStride < us.length) (hmem : InMemory (.text us) cells) :
    ∃ cells', initializedMap (code.encodeAll us) cells = .ok cells' ∧
      cells'.length = (us.length - 1) / mapStride ∧
      ∀ i < cells'.length, cells'[i]? =
        some (Segments.offset (textChars us) (mapStride * (i + 1))) := by
  have hlen := hmem.length
  rw [mapCells_text hmap hlong] at hlen
  have hpos : 0 < cells.length := by
    simp only [mapStride] at hlong hlen
    omega
  unfold initializedMap readCell
  rcases hmem.initialized with hzero | hdone
  · have hfuel : us.length - 0 ≤ (code.encodeAll us).length := (encodeAll_length us).1
    obtain ⟨cells', hok, hlen', hcells'⟩ := mapInitLoop_spec (n := 0)
      (Nat.lt_trans (by decide) hlong) hfuel (Nat.zero_add mapStride) (Nat.le_refl _) hlen
      (by omega)
    refine ⟨cells', ?_, by rw [hlen', hlen], hcells'⟩
    simpa [hzero, offsetMapInit, bind, Except.bind] using hok
  · have hcells : ∀ i < cells.length, cells[i]? =
        some (Segments.offset (textChars us) (mapStride * (i + 1))) := by
      intro i hi
      rw [List.getElem?_eq_getElem hi]
      exact congrArg some (hdone i _ (List.getElem?_eq_getElem hi))
    -- the first cell of an initialised map is not zero
    have hfirst : mapStride ≤ Segments.offset (textChars us) mapStride :=
      Segments.le_offset (textChars_ne_nil us)
        (by rw [textChars_length]; exact Nat.le_of_lt hlong)
    have hne : Segments.offset (textChars us) mapStride ≠ 0 := by
      simp only [mapStride] at hfirst ⊢
      omega
    refine ⟨cells, ?_, hlen, hcells⟩
    simp [hcells 0 hpos, bind, Except.bind, hne]

theorem inMemory_of_cells {cells : List ℕ} (hmap : (code.encodeAll us).length ≠ us.length)
    (hlong : mapStride < us.length) (hlen : cells.length = (us.length - 1) / mapStride)
    (hcells : ∀ i < cells.length, cells[i]? =
      some (Segments.offset (textChars us) (mapStride * (i + 1)))) :
    InMemory (.text us) cells where
  length := by rw [hlen, mapCells_text hmap hlong]
  initialized := by
    refine .inr fun i cell hcell => ?_
    have hi : i < cells.length := (List.getElem?_eq_some_iff.mp hcell).1
    rw [hcells i hi] at hcell
    exact (Option.some.inj hcell).symm

theorem skipChars_text {k n : ℕ} (hk : k + n ≤ us.length) :
    skipChars n (code.encodeAll (us.drop k)) = .ok (code.encodeAll (us.drop (k + n))) := by
  induction n generalizing k with
  | zero => rfl
  | succ n ih =>
    have hnext := @utf8Next_drop us k (by omega)
    cases hp : code.encodeAll (us.drop k) with
    | nil =>
      have := length_le_of_encodeAll_eq_nil hp
      omega
    | cons c p =>
      rw [hp] at hnext
      rw [skipChars, hnext, ih (by omega), Nat.add_assoc, Nat.add_comm 1 n]

/-- `njs_string_offset` in a text, where its map can be used if it is needed. At the end of the
text there may be no cell. -/
theorem stringOffset_text_le {k : ℕ} (hk : k ≤ us.length)
    (hend : k < us.length ∨ k < mapStride ∨ k % mapStride ≠ 0)
    (hmap : k < mapStride ∨ (code.encodeAll us).length ≠ us.length) : OffsetHolds (.text us) k := by
  intro cells hmem
  have hlength : (Subject.text us).prop.size = (code.encodeAll us).length := rfl
  unfold stringOffset offsetStart
  rcases Nat.lt_or_ge k mapStride with hlow | hhigh
  · have hskip := @skipChars_text us 0 k (by omega)
    rw [Nat.zero_add, List.drop_zero] at hskip
    refine ⟨cells, ?_, hmem⟩
    rw [if_neg (by omega), Nat.mod_eq_of_lt hlow]
    simp only [bind, Except.bind, List.drop_zero, Subject.prop, hskip, StringProp.size,
      size_sub_rest]
    rfl
  · have hmap' := hmap.resolve_left (by omega)
    have hlong : mapStride < us.length := by
      simp only [mapStride] at hhigh hend ⊢
      omega
    obtain ⟨cells', hok, hlen, hcells⟩ := initializedMap_spec hmap' hlong hmem
    have hindex : k / mapStride - 1 < cells'.length := by
      simp only [mapStride] at hhigh hend hlen ⊢
      omega
    have hcell : readCell cells' (k / mapStride - 1) =
        .ok (Segments.offset (textChars us) (k / mapStride * mapStride)) := by
      rw [readCell, hcells _ hindex]
      simp only [mapStride] at hhigh ⊢
      rw [show 32 * (k / 32 - 1 + 1) = k / 32 * 32 by omega]
    have hskip := skipChars_text (k := k / mapStride * mapStride)
      (n := k % mapStride) (by rw [Nat.div_add_mod']; omega)
    rw [Nat.div_add_mod'] at hskip
    refine ⟨cells', ?_, inMemory_of_cells hmap' hlong hlen hcells⟩
    rw [if_pos hhigh]
    simp only [bind, Except.bind, Subject.prop, hok, hcell, drop_offset_text, hskip,
      StringProp.size, size_sub_rest]
    rfl

theorem stringOffset_text {k : ℕ} (hk : k < us.length)
    (hmap : k < mapStride ∨ (code.encodeAll us).length ≠ us.length) : OffsetHolds (.text us) k :=
  stringOffset_text_le (Nat.le_of_lt hk) (.inl hk) hmap

/-- The search in the cells stops at a character that is not after the offset. -/
theorem cellSearch_spec {cells : List ℕ} {offset : ℕ}
    (hlen : cells.length = (us.length - 1) / mapStride)
    (hcells : ∀ i < cells.length, cells[i]? =
      some (Segments.offset (textChars us) (mapStride * (i + 1)))) (fuel : ℕ) {i : ℕ}
    (hi : mapStride * i ≤ us.length)
    (hle : Segments.offset (textChars us) (mapStride * i) ≤ offset) :
    ∃ k ≤ us.length, cellSearch us.length offset cells fuel i
        (Segments.offset (textChars us) (mapStride * i)) (mapStride * i) =
      .ok (Segments.offset (textChars us) k, k) ∧ Segments.offset (textChars us) k ≤ offset := by
  induction fuel generalizing i with
  | zero => exact ⟨mapStride * i, hi, rfl, hle⟩
  | succ fuel ih =>
    rw [cellSearch]
    split_ifs with hlt
    · have hi' : i < cells.length := by
        simp only [mapStride] at hlt hlen
        omega
      simp only [readCell, hcells i hi', bind, Except.bind]
      split_ifs with hcell
      · exact ih (Nat.le_of_lt (by rwa [Nat.mul_add, Nat.mul_one])) hcell
      · exact ⟨mapStride * i, hi, rfl, hle⟩
    · exact ⟨mapStride * i, hi, rfl, hle⟩

/-- The place where `njs_string_index` begins to step is not after the offset. -/
theorem indexStart_text {k : ℕ} (hmap : (code.encodeAll us).length ≠ us.length)
    (hlong : us.length ≠ mapStride) {cells : List ℕ} (hmem : InMemory (.text us) cells) :
    ∃ i ≤ us.length, ∃ cells', indexStart (Subject.text us).prop cells
        ((Subject.text us).offset k) = .ok ((Segments.offset (textChars us) i, i), cells') ∧
      InMemory (.text us) cells' ∧
      Segments.offset (textChars us) i ≤ Segments.offset (textChars us) k := by
  unfold indexStart
  by_cases hstride : us.length ≥ mapStride
  · have hlong' : mapStride < us.length := Nat.lt_of_le_of_ne hstride (Ne.symm hlong)
    obtain ⟨cells', hok, hlen, hcells⟩ := initializedMap_spec hmap hlong' hmem
    obtain ⟨i, hi, hfound, hle⟩ := cellSearch_spec hlen
      hcells us.length (i := 0) (Nat.zero_le _) (by simp)
    rw [Nat.mul_zero, Segments.offset_zero] at hfound
    refine ⟨i, hi, cells', ?_, inMemory_of_cells hmap hlong' hlen hcells, hle⟩
    rw [if_pos (show (Subject.text us).prop.length ≥ mapStride from hstride)]
    simp only [Subject.prop, hok, bind, Except.bind]
    simp only [Subject.offset, Subject.chars] at hfound ⊢
    rw [hfound]
  · refine ⟨0, Nat.zero_le _, cells, ?_, hmem, by simp⟩
    rw [if_neg (show ¬ (Subject.text us).prop.length ≥ mapStride from hstride)]
    simp

/-- `njs_string_index` in a text that is ASCII, or is not as long as a stride. -/
theorem storedIndex_text {k : ℕ} (hk : k ≤ us.length)
    (hmap : (code.encodeAll us).length = us.length ∨ us.length ≠ mapStride) :
    IndexHolds (.text us) k := by
  intro cells hmem
  have hlen := textChars_length us
  have hne := textChars_ne_nil us
  change ∃ cells', (if (code.encodeAll us).length = us.length then _ else _) = _ ∧ _
  by_cases hascii : (code.encodeAll us).length = us.length
  · refine ⟨cells, ?_, hmem⟩
    have hself : (Subject.text us).offset k = k :=
      Segments.offset_eq_self hne (by rw [textChars_flatten, hascii, hlen]) (by omega)
    rw [if_pos hascii, hself]
  · obtain ⟨i, hi, cells', hstart, hmem', hle⟩ :=
      indexStart_text (k := k) hascii (hmap.resolve_left hascii) hmem
    have hik : i ≤ k := by
      by_contra hlt
      exact absurd hle (Nat.not_le_of_lt
        (Segments.offset_lt_offset hne (Nat.lt_of_not_le hlt) (by omega)))
    have hcount := (encodeAll_length us).1
    refine ⟨cells', ?_, hmem'⟩
    rw [if_neg hascii, hstart]
    simp only [bind, Except.bind, Subject.prop, StringProp.size, drop_offset_text]
    rw [show (Subject.text us).offset k = Segments.offset (textChars us) k from rfl,
      indexLoop_eq us hk _ i hik (by omega)]

/-- Where no map is reserved, an access to it is a fault. -/
theorem initializedMap_nil (start : List UInt8) : initializedMap start [] = .error .fault := rfl

theorem not_offsetHolds_ascii {k : ℕ} (hk : mapStride ≤ k)
    (hascii : (code.encodeAll us).length = us.length) : ¬ OffsetHolds (.text us) k := by
  intro hholds
  have hcells : mapCells (Subject.text us).prop = 0 := if_neg fun h => h.1 hascii
  obtain ⟨cells', hok, -⟩ := hholds [] ⟨by rw [hcells]; rfl, .inr (by simp)⟩
  simp [stringOffset, offsetStart, hk, initializedMap_nil, bind, Except.bind] at hok

theorem not_indexHolds_stride (k : ℕ) (hmap : (code.encodeAll us).length ≠ us.length)
    (hlong : us.length = mapStride) : ¬ IndexHolds (.text us) k := by
  intro hholds
  have hcells : mapCells (Subject.text us).prop = 0 :=
    if_neg fun h => Nat.lt_irrefl _ (hlong ▸ h.2)
  obtain ⟨cells', hok, -⟩ := hholds [] ⟨by rw [hcells]; rfl, .inr (by simp)⟩
  change (if (code.encodeAll us).length = us.length then _ else _) = _ at hok
  rw [if_neg hmap] at hok
  simp [indexStart, Subject.prop, hlong, initializedMap_nil, bind, Except.bind] at hok

end Text

section Bytes

variable {bs : List UInt8}

theorem inMemory_bytes {cells : List ℕ} : InMemory (.bytes bs) cells ↔ cells = [] := by
  have hcells : mapCells (Subject.bytes bs).prop = 0 :=
    if_neg fun h => absurd h.2 (by simp [Subject.prop])
  constructor
  · intro hmem
    have hlen := hmem.length
    rw [hcells] at hlen
    exact List.length_eq_zero_iff.mp hlen
  · rintro rfl
    exact ⟨by rw [hcells]; rfl, .inr (by simp)⟩

/-- A byte that is taken for the continuation of the one before it is skipped. -/
theorem utf8Next_length_lt {i : ℕ} {b c : UInt8} (hb : bs[i]? = some b)
    (hc : bs[i + 1]? = some c) (hhigh : 0x80 ≤ b) (hcont : IsContinuation c) :
    (utf8Next (bs.drop i)).length < bs.length - (i + 1) := by
  obtain ⟨hi, rfl⟩ := List.getElem?_eq_some_iff.mp hb
  obtain ⟨hi', rfl⟩ := List.getElem?_eq_some_iff.mp hc
  have hhigh' : ¬ bs[i] < 0x80 := UInt8.not_lt.mpr hhigh
  rw [List.drop_eq_getElem_cons hi, utf8Next,
    if_pos (by_contra fun h => hhigh' ((not_high_iff _).mp h)), List.drop_eq_getElem_cons hi',
    List.dropWhile_cons_of_pos (by simpa [IsContinuation] using (and_c0_iff _).mpr hcont)]
  have hle := (List.dropWhile_suffix (l := bs.drop (i + 1 + 1)) fun c : UInt8 =>
    decide (c &&& 0xC0 = 0x80)).length_le
  rw [List.length_drop] at hle
  omega

theorem utf8Next_drop_length_le {i : ℕ} (hi : i < bs.length) :
    (utf8Next (bs.drop i)).length ≤ bs.length - (i + 1) := by
  have hle := utf8Next_length_le bs[i] (bs.drop (i + 1))
  rwa [← List.drop_eq_getElem_cons hi, List.length_drop] at hle

/-- If a step is over one byte, no byte is skipped. -/
theorem utf8Next_drop_of_length {i : ℕ} (hi : i < bs.length)
    (h : bs.length - (i + 1) ≤ (utf8Next (bs.drop i)).length) :
    utf8Next (bs.drop i) = bs.drop (i + 1) := by
  have hle := utf8Next_drop_length_le hi
  refine List.IsSuffix.eq_of_length ?_ (by rw [List.length_drop]; omega)
  rw [List.drop_eq_getElem_cons hi, utf8Next]
  split_ifs
  · exact List.dropWhile_suffix _
  · exact List.suffix_rfl

theorem skipChars_cons {n : ℕ} {p : List UInt8} (hp : p ≠ []) :
    skipChars (n + 1) p = skipChars n (utf8Next p) := by
  cases p with
  | nil => exact absurd rfl hp
  | cons c p => rfl

theorem drop_ne_nil {i : ℕ} (hi : i < bs.length) : bs.drop i ≠ [] := by
  simpa using hi

theorem skipChars_bytes {k : ℕ} (hk : k < bs.length) (hsep : Separate bs (k + 1)) {i n : ℕ}
    (hi : i + n ≤ k) : skipChars n (bs.drop i) = .ok (bs.drop (i + n)) := by
  induction n generalizing i with
  | zero => rfl
  | succ n ih =>
    rw [skipChars_cons (drop_ne_nil (by omega)),
      utf8Next_bytes hk hsep (by omega), ih (by omega), Nat.add_assoc,
      Nat.add_comm 1 n]

theorem skipChars_length {n : ℕ} {q p : List UInt8} (h : skipChars n q = .ok p) :
    p.length + n ≤ q.length := by
  induction n generalizing q with
  | zero =>
    obtain rfl := Except.ok.inj h
    exact Nat.le_refl _
  | succ n ih =>
    cases q with
    | nil => simp [skipChars] at h
    | cons c q =>
      rw [skipChars] at h
      have hrest := ih h
      have hle := utf8Next_length_le c q
      rw [List.length_cons]
      omega

/-- If a byte is skipped, the steps go too far. -/
theorem separate_of_skipChars {i n : ℕ} {p : List UInt8} (h : skipChars n (bs.drop i) = .ok p)
    (hlen : p.length + (i + n) = bs.length) :
    ∀ j b c, i ≤ j → j < i + n → bs[j]? = some b → bs[j + 1]? = some c →
      ¬ (0x80 ≤ b ∧ IsContinuation c) := by
  induction n generalizing i with
  | zero =>
    intro j b c hij hj
    omega
  | succ n ih =>
    intro j b c hij hj hb hc hskip
    have hi : i < bs.length := by omega
    rw [skipChars_cons (drop_ne_nil hi)] at h
    have hrest := skipChars_length h
    have hle := utf8Next_drop_length_le hi
    rcases Nat.lt_or_eq_of_le hij with hlt | rfl
    · rw [utf8Next_drop_of_length hi (by omega)] at h
      exact ih h (by omega) j b c hlt (by omega) hb hc hskip
    · have hlt := utf8Next_length_lt hb hc hskip.1 hskip.2
      omega

/-- `njs_string_offset` in a byte string. -/
theorem offsetHolds_bytes_iff {k : ℕ} (hk : k < bs.length) :
    OffsetHolds (.bytes bs) k ↔ k < mapStride ∧ Separate bs (k + 1) := by
  have hself : (Subject.bytes bs).offset k = k :=
    Subject.bytes_offset bs (by simpa [Subject.chars] using Nat.le_of_lt hk)
  constructor
  · intro hholds
    obtain ⟨cells', hok, -⟩ := hholds [] (inMemory_bytes.mpr rfl)
    rw [hself] at hok
    unfold stringOffset offsetStart at hok
    rcases Nat.lt_or_ge k mapStride with hlow | hhigh
    · refine ⟨hlow, fun i b c hi hb hc => ?_⟩
      rw [if_neg (by omega), Nat.mod_eq_of_lt hlow] at hok
      simp only [bind, Except.bind, List.drop_zero, Subject.prop] at hok
      cases hskip : skipChars k bs with
      | error e => simp [hskip] at hok
      | ok p =>
        simp only [hskip, Except.ok.injEq, Prod.mk.injEq, StringProp.size] at hok
        have hlen := skipChars_length hskip
        exact separate_of_skipChars (i := 0) hskip (by omega) i b c (Nat.zero_le _) (by omega) hb hc
    · simp [hhigh, initializedMap_nil, bind, Except.bind] at hok
  · rintro ⟨hlow, hsep⟩ cells hmem
    obtain rfl := inMemory_bytes.mp hmem
    have hskip := skipChars_bytes hk hsep (i := 0) (n := k) (by omega)
    rw [List.drop_zero, Nat.zero_add] at hskip
    refine ⟨[], ?_, hmem⟩
    unfold stringOffset offsetStart
    rw [if_neg (by omega), Nat.mod_eq_of_lt hlow, hself]
    simp only [bind, Except.bind, List.drop_zero, Subject.prop, hskip, StringProp.size,
      List.length_drop, Except.ok.injEq, Prod.mk.injEq, and_true]
    omega

/-- The loop counts at most one character for a byte. -/
theorem indexLoop_le {offset : ℕ} (hoffset : offset ≤ bs.length) (fuel i : ℕ) {p : List UInt8}
    (hp : p.length ≤ bs.length) :
    indexLoop bs.length offset fuel p i ≤ i + (offset - (bs.length - p.length)) := by
  induction fuel generalizing i p with
  | zero => exact Nat.le_add_right _ _
  | succ fuel ih =>
    rw [indexLoop]
    split_ifs with hlt
    · cases p with
      | nil => exact absurd hlt (by simpa using hoffset)
      | cons c p =>
        have hle := utf8Next_length_le c p
        rw [List.length_cons] at hp hlt ⊢
        have hrest := ih (i + 1) (p := utf8Next (c :: p)) (by omega)
        omega
    · exact Nat.le_add_right _ _

/-- If a byte is skipped, the loop counts too few. -/
theorem separate_of_indexLoop {offset : ℕ} (hoffset : offset ≤ bs.length) {fuel i : ℕ}
    (hfuel : offset ≤ i + fuel) (h : indexLoop bs.length offset fuel (bs.drop i) i = offset) :
    ∀ j b c, i ≤ j → j + 1 < offset → bs[j]? = some b → bs[j + 1]? = some c →
      ¬ (0x80 ≤ b ∧ IsContinuation c) := by
  induction fuel generalizing i with
  | zero =>
    intro j b c hij hj
    omega
  | succ fuel ih =>
    intro j b c hij hj hb hc hskip
    have hi : i < bs.length := by omega
    rw [indexLoop, List.length_drop, if_pos (by omega)] at h
    have hle := utf8Next_drop_length_le hi
    have hrest := indexLoop_le hoffset fuel (i + 1) (p := utf8Next (bs.drop i)) (by omega)
    rw [h] at hrest
    rcases Nat.lt_or_eq_of_le hij with hlt | rfl
    · rw [utf8Next_drop_of_length hi (by omega)] at h
      exact ih (by omega) h j b c hlt hj hb hc hskip
    · have hlt := utf8Next_length_lt hb hc hskip.1 hskip.2
      omega

theorem stringIndex_byteString (k : ℕ) : stringIndex ⟨bs, 0⟩ k =
    if bs.length = 0 then k else indexLoop bs.length k bs.length bs 0 := rfl

theorem storedIndex_byteString (cells : List ℕ) (k : ℕ) :
    storedIndex (Subject.bytes bs).prop cells k =
      if bs.length = 0 then .ok (k, cells)
      else .ok (indexLoop bs.length k bs.length bs 0, cells) := rfl

/-- `njs_string_index` in a byte string. -/
theorem indexHolds_bytes_iff {k : ℕ} (hk : k ≤ bs.length) :
    IndexHolds (.bytes bs) k ↔ Separate bs k := by
  have hself : (Subject.bytes bs).offset k = k :=
    Subject.bytes_offset bs (by simpa [Subject.chars] using hk)
  constructor
  · intro hholds
    obtain ⟨cells', hok, -⟩ := hholds [] (inMemory_bytes.mpr rfl)
    rw [hself, storedIndex_byteString] at hok
    intro i b c hi hb hc
    have hne : bs.length ≠ 0 := by
      have := (List.getElem?_eq_some_iff.mp hb).1
      omega
    rw [if_neg hne] at hok
    obtain ⟨hindex, -⟩ := Prod.mk.inj (Except.ok.inj hok)
    exact separate_of_indexLoop (i := 0) hk (by omega) hindex i b c (Nat.zero_le _) hi hb hc
  · intro hsep cells hmem
    have hindex := stringIndex_bytes hk hsep
    rw [stringIndex_byteString] at hindex
    refine ⟨cells, ?_, hmem⟩
    rw [hself, storedIndex_byteString]
    split_ifs at hindex ⊢ with hempty
    · rfl
    · rw [hindex]

end Bytes

/-- The map of a string is not needed for the position of a character, or it has one. -/
def OffsetSafe : Subject → ℕ → Prop
  | .bytes bs, k => k < mapStride ∧ Separate bs (k + 1)
  | .text us, k => k < mapStride ∨ (code.encodeAll us).length ≠ us.length

/-- No byte of a byte string is skipped, and a text is ASCII or not as long as a stride. -/
def IndexSafe : Subject → ℕ → Prop
  | .bytes bs, k => Separate bs k
  | .text us, _ => (code.encodeAll us).length = us.length ∨ us.length ≠ mapStride

/-- `njs_string_offset` and `njs_string_index` agree with the positions of the characters, and
use no memory outside of the map area, for these strings and positions only. -/
theorem offsetMap_holds_iff (s : Subject) :
    (∀ k < s.chars.length, OffsetHolds s k ↔ OffsetSafe s k) ∧
      ∀ k ≤ s.chars.length, IndexHolds s k ↔ IndexSafe s k := by
  cases s with
  | bytes bs =>
    simp only [Subject.chars, List.length_map]
    exact ⟨fun k hk => offsetHolds_bytes_iff hk, fun k hk => indexHolds_bytes_iff hk⟩
  | text us =>
    simp only [Subject.chars, textChars_length]
    refine ⟨fun k hk => ⟨fun h => ?_, stringOffset_text hk⟩,
      fun k hk => ⟨fun h => ?_, storedIndex_text hk⟩⟩
    · by_contra hunsafe
      simp only [OffsetSafe, not_or, not_lt, not_not] at hunsafe
      exact not_offsetHolds_ascii hunsafe.1 hunsafe.2 h
    · by_contra hunsafe
      simp only [IndexSafe, not_or, not_not] at hunsafe
      exact not_indexHolds_stride k hunsafe.1 hunsafe.2 h

/-- A text of 31 letters and one character of two bytes. -/
def strideText : Subject := .text (List.replicate 31 letterA ++ [letterEAcute])

/-- It has no map, but `njs_string_index` reads the first cell of one. -/
theorem strideText_not_indexHolds : ¬ ∀ s : Subject,
    (∀ k < s.chars.length, OffsetHolds s k) ∧ ∀ k ≤ s.chars.length, IndexHolds s k := by
  intro hall
  obtain ⟨cells', hok, -⟩ := (hall strideText).2 0 (Nat.zero_le _) [] ⟨by decide, by simp⟩
  have hfault : storedIndex strideText.prop [] (strideText.offset 0) = .error .fault := by
    decide
  rw [hfault] at hok
  exact absurd hok (by simp)

end Njs.Str
