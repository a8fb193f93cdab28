import Njs.Str.UriLaws

/-!
# The URI functions as a codec

Decoding an encoded string gives back its bytes. The string that the decoder builds
is well-formed only when the length that it sets, and the storage that it asked for
before it knew the length, are right for the bytes.
-/

namespace Njs.Str

open Utf8

/-- A well-formed string: its length is the number of code points of a text and zero
for other bytes, it is inline exactly when it is short, and the storage of a long text
has the offset map that `njs_string_alloc` reserves. -/
structure WellFormed (v : StringValue) : Prop where
  length_of_text : ∀ us, code.encodeAll us = v.bytes → v.length = us.length
  length_of_not_text : (∀ us, code.encodeAll us ≠ v.bytes) → v.length = 0
  inline_iff : v.isInline = true ↔ v.size ≤ shortMax
  map_reserved : mapStride < v.length → v.length ≠ v.size →
    allocTotal v.size v.length ≤ v.capacity

/-- Well-formed strings with the same bytes are equal values. -/
theorem WellFormed.stringEq {v w : StringValue} (hv : WellFormed v) (hw : WellFormed w)
    (h : w.bytes = v.bytes) : stringEq v w = true := by
  have hsize : v.size = w.size := by rw [← v.bytes_length, ← h, w.bytes_length]
  have hinl : v.isInline = w.isInline := by
    rw [Bool.eq_iff_iff, hv.inline_iff, hw.inline_iff, hsize]
  have hlen : v.length = w.length := by
    by_cases htext : ∃ us, code.encodeAll us = v.bytes
    · obtain ⟨us, hus⟩ := htext
      rw [hv.length_of_text us hus, hw.length_of_text us (hus.trans h.symm)]
    · push Not at htext
      rw [hv.length_of_not_text htext, hw.length_of_not_text (h ▸ htext)]
  cases v with
  | short s =>
    cases w with
    | short t =>
      have hst : s.size = t.size := Fin.ext hsize
      have hlen : s.length = t.length := Fin.ext hlen
      simpa [Str.stringEq, hst, hlen, StringValue.bytes] using h.symm
    | long t => cases hinl
  | long s =>
    cases w with
    | short t => cases hinl
    | long t =>
      have hst : s.size = t.size := hsize
      have hlen : s.length = t.length := hlen
      simpa [Str.stringEq, hst, hlen, StringValue.bytes] using h.symm

/-- The two pairs of functions. -/
inductive UriCodec
  | uri
  | component
  deriving DecidableEq

namespace UriCodec

/-- The table of the encoder. -/
def escape : UriCodec → List UInt32
  | uri => uriEscape
  | component => uriComponentEscape

/-- The table of the decoder. -/
def reserve : UriCodec → List UInt32
  | uri => uriReserve
  | component => uriComponentReserve

/-- `encodeURI` and `encodeURIComponent`. -/
def encode : UriCodec → Env → StringValue → Result StringValue
  | uri => encodeUri
  | component => encodeUriComponent

/-- `decodeURI` and `decodeURIComponent`. -/
def decode : UriCodec → Env → StringValue → Result StringValue
  | uri => decodeUri
  | component => decodeUriComponent

theorem encode_eq (c : UriCodec) (env : Env) (v : StringValue) :
    c.encode env v = Str.encode env v c.escape := by cases c <;> rfl

theorem decode_eq (c : UriCodec) (env : Env) (v : StringValue) :
    c.decode env v = Str.decode env v c.reserve := by cases c <;> rfl

theorem isMarked_percent (c : UriCodec) : isMarked c.escape (byte '%') = true := by
  cases c <;> decide

/-- The tables complement each other: no byte that is escaped is reserved. -/
theorem not_reserved_of_escaped (c : UriCodec) (b : UInt8) :
    isMarked c.escape b = true → isMarked c.reserve b = false := by
  cases c <;> revert b <;> exact forall_byte (by decide +kernel)

/-- Only ASCII bytes are reserved. -/
theorem not_reserved_of_high (c : UriCodec) (b : UInt8) :
    0x80 ≤ b → isMarked c.reserve b = false := by
  cases c <;> revert b <;> exact forall_byte (by decide +kernel)

end UriCodec

/-! ## What the decoder returns -/

section Decoding

variable (env : Env) (reserve : List UInt32) {v : StringValue} {ps : List Piece}

theorem decode_of_not_pieces (h : pieces v.bytes = none) :
    decode env v reserve = .error (.throw .uriError) := by
  rw [decode, decodeScan_eq, h]
  rfl

/-- A string with nothing to decode is returned itself. -/
theorem decode_of_countP_eq_zero (h : pieces v.bytes = some ps)
    (hcount : ps.countP (Piece.isDecoded reserve) = 0) : decode env v reserve = .ok v := by
  rw [decode, decodeScan_eq, h, Option.map_some]
  exact if_pos (by rw [hcount])

/-- What a decoded string looks like: its length is the number of its bytes, or the
number of its code points if some escape is not ASCII, and nothing is reserved after
its bytes. -/
structure Decoded (ps : List Piece) (r : StringValue) : Prop where
  bytes_eq : r.bytes = ps.flatMap (Piece.bytes reserve)
  inline_iff : r.isInline = true ↔ r.size ≤ shortMax
  capacity_eq : r.isInline = false → r.capacity = r.size
  length_eq : r.length = if ps.any Piece.isHighEscape then
    ((Utf8.length r.bytes).getD 0).toNat else r.size

@[simp] theorem StringValue.setLength_bytes (n : ℕ) (v : StringValue) :
    (v.setLength n).bytes = v.bytes := by cases v <;> rfl

@[simp] theorem StringValue.setLength_size (n : ℕ) (v : StringValue) :
    (v.setLength n).size = v.size := by cases v <;> rfl

@[simp] theorem StringValue.setLength_isInline (n : ℕ) (v : StringValue) :
    (v.setLength n).isInline = v.isInline := by cases v <;> rfl

@[simp] theorem StringValue.setLength_capacity (n : ℕ) (v : StringValue) :
    (v.setLength n).capacity = v.capacity := by cases v <;> rfl

/-- A length of at most fourteen characters fits the four bits of an inline string. -/
theorem StringValue.setLength_length {n : ℕ} {v : StringValue}
    (h : v.isInline = true → n ≤ shortMax) : (v.setLength n).length = n := by
  cases v with
  | short s =>
    have hn : n ≤ 14 := h rfl
    exact Nat.mod_eq_of_lt (by omega)
  | long s => rfl

private theorem length_toNat_le (p : List UInt8) {n : ℤ} (h : Utf8.length p = some n) :
    n.toNat ≤ p.length := by
  rcases Int.lt_or_le n 0 with hn | hn
  · rw [Int.toNat_of_nonpos hn.le]
    exact Nat.zero_le _
  · lift n to ℕ using hn
    obtain ⟨us, hlen, rfl⟩ := length_eq_iff.mp h
    rw [Int.toNat_natCast, ← hlen]
    exact (encodeAll_length us).1

theorem decode_spec (h : pieces v.bytes = some ps)
    (hcount : ps.countP (Piece.isDecoded reserve) ≠ 0) :
    Returns env (decode env v reserve) (Decoded reserve ps) := by
  have hlen := pieces_length reserve h
  have hmax := v.size_le_max
  rw [← v.bytes_length] at hmax
  set out := ps.flatMap (Piece.bytes reserve) with hout
  have hsize : v.bytes.length - 2 * ps.countP (Piece.isDecoded reserve) = out.length := by omega
  rw [decode, decodeScan_eq, h]
  simp only [Option.map_some, Nat.zero_add]
  rw [if_neg (by omega), hsize, decodeLoop_eq reserve h]
  simp only [Bool.false_or]
  rw [← bind_assoc]
  refine (stringAlloc_fill_spec env (by omega)).bind fun w hw => ?_
  obtain ⟨halloc, hbytes⟩ := hw
  have hcap : w.isInline = false → w.capacity = w.size := fun hinl => by
    rw [halloc.capacity_eq hinl, halloc.size_eq]
    simp [allocTotal]
  by_cases hhigh : ps.any Piece.isHighEscape = true
  · obtain ⟨n, hn, -⟩ := length_isSome w.bytes
    have hle := length_toNat_le w.bytes hn
    rw [if_pos hhigh, hn]
    refine .ok rfl ⟨?_, ?_, ?_, ?_⟩
    · rw [StringValue.setLength_bytes, hbytes]
    · rw [StringValue.setLength_isInline, StringValue.setLength_size, halloc.inline_iff,
        halloc.size_eq]
    · rw [StringValue.setLength_isInline, StringValue.setLength_size,
        StringValue.setLength_capacity]
      exact hcap
    · rw [if_pos hhigh, StringValue.setLength_bytes, hn, Option.getD_some,
        StringValue.setLength_length fun hinl => ?_]
      rw [w.bytes_length, halloc.size_eq] at hle
      exact hle.trans (halloc.inline_iff.mp hinl)
  · rw [if_neg hhigh]
    refine .ok rfl ⟨hbytes, by rw [halloc.inline_iff, halloc.size_eq], hcap, ?_⟩
    rw [if_neg hhigh, halloc.length_eq, halloc.size_eq]
    split_ifs with hshort
    · exact Nat.mod_eq_of_lt (by simp only [shortMax] at hshort; omega)
    · rfl

end Decoding

/-! ## When the result is well-formed -/

/-- ASCII bytes are a text. -/
theorem exists_encodeAll_of_ascii {p : List UInt8} (h : ∀ b ∈ p, b < 0x80) :
    ∃ us, code.encodeAll us = p := by
  induction p with
  | nil => exact ⟨[], rfl⟩
  | cons b p ih =>
    obtain ⟨hb, hp⟩ := List.forall_mem_cons.mp h
    obtain ⟨us, hus⟩ := ih hp
    have hlt : b.toNat < 0x80 := UInt8.lt_iff_toNat_lt.mp hb
    have hone : CodePoint.encode ⟨b.toNat, by simp only [codePointEnd]; omega⟩ = [b] := by
      have henc := CodePoint.encode_eq ⟨b.toNat, by simp only [codePointEnd]; omega⟩
      rw [encode_one hlt] at henc
      simpa [UInt8.ofNat_toNat] using (Option.some.inj henc).symm
    refine ⟨⟨b.toNat, by simp only [codePointEnd]; omega⟩ :: us, ?_⟩
    rw [code.encodeAll_cons, hus]
    exact congrArg (· ++ p) hone

/-- A string whose length is its size is well-formed exactly when it is ASCII. -/
theorem wellFormed_iff_of_length_eq_size {r : StringValue} (hlen : r.length = r.size)
    (hinl : r.isInline = true ↔ r.size ≤ shortMax) (hne : r.bytes ≠ []) :
    WellFormed r ↔ ∀ b ∈ r.bytes, b < 0x80 := by
  rw [← r.bytes_length] at hlen
  constructor
  · intro h
    by_cases htext : ∃ us, code.encodeAll us = r.bytes
    · obtain ⟨us, hus⟩ := htext
      have hcount := h.length_of_text us hus
      rw [← hus, ← (encodeAll_length us).2, hus, ← hlen, hcount]
    · push Not at htext
      have hzero := h.length_of_not_text htext
      exact absurd (List.length_eq_zero_iff.mp (hlen.symm.trans hzero)) hne
  · intro h
    obtain ⟨us, hus⟩ := exists_encodeAll_of_ascii h
    refine ⟨fun vs hvs => ?_, fun htext => absurd hus (htext us), hinl, fun _ hsize => ?_⟩
    · obtain rfl := code.encodeAll_injective (hus.trans hvs.symm)
      rw [hlen, ← hus]
      exact ((encodeAll_length us).2.mpr (hus ▸ h)).symm
    · exact absurd (hlen.trans r.bytes_length) hsize

/-- A string that is not ASCII, whose length is right and that has no room for the
offset map, is well-formed exactly when it needs none. -/
theorem wellFormed_iff_of_capacity_eq_size {r : StringValue}
    (hlen : r.length = ((Utf8.length r.bytes).getD 0).toNat)
    (hinl : r.isInline = true ↔ r.size ≤ shortMax)
    (hcap : r.isInline = false → r.capacity = r.size) (hhigh : ∃ b ∈ r.bytes, 0x80 ≤ b) :
    WellFormed r ↔ ∀ us, code.encodeAll us = r.bytes → us.length ≤ mapStride := by
  have hcount : ∀ us, code.encodeAll us = r.bytes → r.length = us.length := by
    intro us hus
    rw [hlen, length_eq_iff.mpr ⟨us, rfl, hus⟩]
    rfl
  have hsmall : ∀ us, code.encodeAll us = r.bytes → us.length < r.size := by
    intro us hus
    obtain ⟨hle, hascii⟩ := encodeAll_length us
    rw [hus, r.bytes_length] at hle
    refine lt_of_le_of_ne hle fun heq => ?_
    obtain ⟨b, hb, hb80⟩ := hhigh
    have hlow := hascii.mp (by rw [hus, r.bytes_length, heq]) b (hus ▸ hb)
    exact absurd hlow (UInt8.not_lt.mpr hb80)
  constructor
  · intro h us hus
    by_contra hlong
    have hlt := hsmall us hus
    have hnot : r.isInline = false := by
      rw [Bool.eq_false_iff, Ne, hinl]
      simp only [mapStride, shortMax] at hlong ⊢
      omega
    have hreserved := h.map_reserved (by rw [hcount us hus]; omega) (by rw [hcount us hus]; omega)
    rw [hcap hnot, hcount us hus, allocTotal, if_pos ⟨by omega, by omega⟩] at hreserved
    have hoffset := le_mapOffset r.size
    simp only [mapSize, mapStride] at hreserved hlong
    omega
  · intro h
    refine ⟨hcount, fun htext => ?_, hinl, fun hstride _ => ?_⟩
    · obtain ⟨n, hn, -⟩ := length_isSome r.bytes
      rw [hlen, hn, Option.getD_some]
      rcases Int.lt_or_le n 0 with hneg | hpos
      · exact Int.toNat_of_nonpos hneg.le
      · lift n to ℕ using hpos
        obtain ⟨us, -, hus⟩ := length_eq_iff.mp hn
        exact absurd hus (htext us)
    · obtain ⟨n, hn, hneg⟩ := length_isSome r.bytes
      rw [hlen, hn, Option.getD_some] at hstride
      lift n to ℕ using (by omega)
      obtain ⟨us, hus, htext⟩ := length_eq_iff.mp hn
      have := h us htext
      omega

/-- The texts that a decoder turns into well-formed strings. If nothing is decoded, the
string itself is returned. If an escape of a byte outside ASCII is decoded, the result
must not need an offset map; if only ASCII is decoded, no plain byte may be outside. -/
def DecodesSoundly (c : UriCodec) (v : StringValue) : Prop :=
  ∀ ps, pieces v.bytes = some ps →
    if ps.countP (Piece.isDecoded c.reserve) = 0 then WellFormed v
    else if ps.any Piece.isHighEscape then
      ∀ us, code.encodeAll us = ps.flatMap (Piece.bytes c.reserve) → us.length ≤ mapStride
    else ∀ b, Piece.plain b ∈ ps → b < 0x80

private theorem hexValue_lt (c : UInt8) : (hexValue? c).isSome → c < 0x80 := by
  revert c
  exact forall_byte (by decide +kernel)

private theorem bytes_ascii_iff (c : UriCodec) {ps : List Piece} (hvalid : ∀ p ∈ ps, p.IsValid)
    (hlow : ps.any Piece.isHighEscape = false) :
    (∀ b ∈ ps.flatMap (Piece.bytes c.reserve), b < 0x80) ↔ ∀ b, Piece.plain b ∈ ps → b < 0x80 := by
  constructor
  · intro h b hb
    exact h b (List.mem_flatMap.mpr ⟨_, hb, by simp [Piece.bytes]⟩)
  · intro h b hb
    obtain ⟨p, hp, hb⟩ := List.mem_flatMap.mp hb
    cases p with
    | plain a =>
      obtain rfl : b = a := by simpa [Piece.bytes] using hb
      exact h b hp
    | escape c0 c1 =>
      obtain ⟨h0, h1⟩ := hvalid _ hp
      have hvalue : (Piece.escape c0 c1).value < 0x80 := by
        have := List.any_eq_false.mp hlow _ hp
        simpa [Piece.isHighEscape] using this
      rw [Piece.bytes] at hb
      split_ifs at hb
      · rcases List.mem_cons.mp hb with rfl | hb
        · decide
        · rcases List.mem_cons.mp hb with rfl | hb
          · exact hexValue_lt _ h0
          · rw [List.mem_singleton.mp hb]
            exact hexValue_lt _ h1
      · rw [List.mem_singleton.mp hb]
        exact hvalue

private theorem exists_high_byte (c : UriCodec) {ps : List Piece}
    (hhigh : ps.any Piece.isHighEscape = true) :
    ∃ b ∈ ps.flatMap (Piece.bytes c.reserve), 0x80 ≤ b := by
  obtain ⟨p, hp, hb⟩ := List.any_eq_true.mp hhigh
  cases p with
  | plain b => cases hb
  | escape c0 c1 =>
    have hle : 0x80 ≤ (Piece.escape c0 c1).value := by simpa [Piece.isHighEscape] using hb
    refine ⟨_, List.mem_flatMap.mpr ⟨_, hp, ?_⟩, hle⟩
    rw [Piece.bytes, c.not_reserved_of_high _ hle]
    exact List.mem_singleton_self _

private theorem Decoded.wellFormed_iff (c : UriCodec) {ps : List Piece} {r : StringValue}
    (hr : Decoded c.reserve ps r) (hvalid : ∀ p ∈ ps, p.IsValid) (hne : ps ≠ []) :
    WellFormed r ↔ if ps.any Piece.isHighEscape then
      ∀ us, code.encodeAll us = ps.flatMap (Piece.bytes c.reserve) → us.length ≤ mapStride
    else ∀ b, Piece.plain b ∈ ps → b < 0x80 := by
  have hlen := hr.length_eq
  split_ifs with hhigh
  · rw [if_pos hhigh] at hlen
    rw [wellFormed_iff_of_capacity_eq_size hlen hr.inline_iff hr.capacity_eq
      (hr.bytes_eq ▸ exists_high_byte c hhigh), hr.bytes_eq]
  · rw [if_neg hhigh] at hlen
    have hbytes : r.bytes ≠ [] := by
      rw [hr.bytes_eq]
      obtain ⟨p, ps, rfl⟩ := List.exists_cons_of_ne_nil hne
      cases p with
      | plain b => simp [Piece.bytes]
      | escape c0 c1 =>
        rw [List.flatMap_cons, Piece.bytes]
        split_ifs <;> simp
    rw [wellFormed_iff_of_length_eq_size hlen hr.inline_iff hbytes, hr.bytes_eq,
      bytes_ascii_iff c hvalid (by simpa using hhigh)]

/-- The result of a decoder, where there is one, is well-formed in these cases only. -/
theorem decodesSoundly_iff (c : UriCodec) (v : StringValue) :
    (∀ (env : Env) (r : StringValue), c.decode env v = .ok r → WellFormed r) ↔
      DecodesSoundly c v := by
  simp only [c.decode_eq]
  constructor
  · intro h ps hps
    obtain ⟨-, hvalid⟩ := pieces_sound hps
    split_ifs with hcount hhigh
    · exact h generous v (decode_of_countP_eq_zero generous c.reserve hps hcount)
    all_goals
      have hne : ps ≠ [] := by
        rintro rfl
        exact hcount rfl
      obtain ⟨r, hok, hr⟩ :=
        (decode_spec generous c.reserve hps hcount).exists_ok fun _ => rfl
      have hiff := (hr.wellFormed_iff c hvalid hne).mp (h generous r hok)
    · rwa [if_pos hhigh] at hiff
    · rwa [if_neg hhigh] at hiff
  · intro h env r hok
    cases hps : pieces v.bytes with
    | none => rw [decode_of_not_pieces env c.reserve hps] at hok; cases hok
    | some ps =>
      have hsound := h ps hps
      obtain ⟨-, hvalid⟩ := pieces_sound hps
      by_cases hcount : ps.countP (Piece.isDecoded c.reserve) = 0
      · rw [decode_of_countP_eq_zero env c.reserve hps hcount] at hok
        rw [if_pos hcount] at hsound
        exact Except.ok.inj hok ▸ hsound
      · have hne : ps ≠ [] := by
          rintro rfl
          exact hcount rfl
        rw [if_neg hcount] at hsound
        rcases decode_spec env c.reserve hps hcount with ⟨r', hok', hr⟩ | ⟨herr, -⟩
        · obtain rfl : r' = r := Except.ok.inj (hok'.symm.trans hok)
          exact (hr.wellFormed_iff c hvalid hne).mpr hsound
        · rw [herr] at hok
          cases hok

/-! ## Round trips -/

/-- Encoding a string and decoding the result gives the bytes of the string back. -/
def UriRoundTrips (c : UriCodec) (s : StringValue) : Prop :=
  ∀ env env' : Env, Returns env (c.encode env s) fun t =>
    Returns env' (c.decode env' t) fun r => r.bytes = s.bytes

/-- Whether a string itself or a new one is returned, its bytes are the decoded ones. -/
theorem decode_bytes (env : Env) (reserve : List UInt32) {v : StringValue} {ps : List Piece}
    (h : pieces v.bytes = some ps) :
    Returns env (decode env v reserve) fun r => r.bytes = ps.flatMap (Piece.bytes reserve) := by
  by_cases hcount : ps.countP (Piece.isDecoded reserve) = 0
  · refine .ok (decode_of_countP_eq_zero env reserve h hcount) ?_
    rw [← (pieces_sound h).1, List.flatMap_def, List.flatMap_def]
    refine congrArg _ (List.map_congr_left fun p hp => ?_)
    have hnot := List.countP_eq_zero.mp hcount p hp
    cases p with
    | plain b => rfl
    | escape c0 c1 =>
      rw [Piece.bytes, if_pos (by simpa [Piece.isDecoded] using hnot)]
      rfl
  · exact (decode_spec env reserve h hcount).mono fun r hr => hr.bytes_eq

theorem encode_bytes (env : Env) (escape : List UInt32) {s : StringValue}
    (hmax : s.size + 2 * s.bytes.countP (isMarked escape) ≤ maxLength) :
    Returns env (encode env s escape) fun t => t.bytes = encodeLoop escape s.bytes := by
  have hlen := encodeLoop_length escape s.bytes
  rw [encode, escapesSize_eq]
  simp only [Nat.zero_add]
  split_ifs with hcount
  · refine .ok rfl ?_
    have hnone : s.bytes.countP (isMarked escape) = 0 := by omega
    have hplain : ∀ b ∈ s.bytes, encodePiece escape b = .plain b := by
      intro b hb
      have hnot := List.countP_eq_zero.mp hnone b hb
      rw [encodePiece, if_neg hnot]
    rw [encodeLoop_eq, List.map_congr_left hplain, List.flatMap_map]
    exact (List.flatMap_singleton' _).symm
  · rw [← hlen]
    exact (stringAlloc_fill_spec env (by rw [hlen, s.bytes_length]; exact hmax)).mono
      fun t ht => ht.2

theorem uriRoundTrips_iff (c : UriCodec) (s : StringValue) :
    UriRoundTrips c s ↔ s.size + 2 * s.bytes.countP (isMarked c.escape) ≤ maxLength := by
  constructor
  · intro h
    by_contra hmax
    have hbound := s.size_le_max
    obtain ⟨t, ht, -⟩ := (h generous generous).exists_ok fun _ => rfl
    rw [c.encode_eq, encode, escapesSize_eq] at ht
    simp only [Nat.zero_add] at ht
    rw [if_neg (by omega), stringAlloc, dif_pos (by rw [s.bytes_length]; omega)] at ht
    cases ht
  · intro hmax env env'
    rw [c.encode_eq]
    refine (encode_bytes env c.escape hmax).mono fun t ht => ?_
    have hvalid : ∀ p ∈ s.bytes.map (encodePiece c.escape), p.IsValid := by
      intro p hp
      obtain ⟨b, -, rfl⟩ := List.mem_map.mp hp
      exact encodePiece_isValid c.isMarked_percent b
    have hpieces := pieces_flatMap_source hvalid
    rw [← encodeLoop_eq, ← ht] at hpieces
    rw [c.decode_eq]
    refine (decode_bytes env' c.reserve hpieces).mono fun r hr => ?_
    rw [hr, List.flatMap_map]
    simp only [fun b => bytes_encodePiece (c.not_reserved_of_escaped b)]
    exact List.flatMap_singleton' _

/-! ## The property -/

/-- The URI functions work for a string to encode and a string to decode. -/
structure UriCodecHolds (s v : StringValue) : Prop where
  roundTrips : ∀ c : UriCodec, UriRoundTrips c s
  wellFormed : ∀ (c : UriCodec) (env : Env) (r : StringValue), c.decode env v = .ok r →
    WellFormed r ∧ ∀ w, WellFormed w → w.bytes = r.bytes → stringEq r w = true

/-- The URI functions do what they should exactly when the encoded text is not too
long and the text to decode is one of those that are decoded soundly. -/
theorem uriCodecHolds_iff (s v : StringValue) :
    UriCodecHolds s v ↔
      (∀ c : UriCodec, s.size + 2 * s.bytes.countP (isMarked c.escape) ≤ maxLength) ∧
        ∀ c : UriCodec, DecodesSoundly c v := by
  simp only [← uriRoundTrips_iff, ← decodesSoundly_iff]
  constructor
  · intro h
    exact ⟨h.roundTrips, fun c env r hr => (h.wellFormed c env r hr).1⟩
  · intro h
    refine ⟨h.1, fun c env r hr => ?_⟩
    have hwf := h.2 c env r hr
    exact ⟨hwf, fun w hw hbytes => hwf.stringEq hw hbytes⟩

/-- The text `"%41"` followed by U+00E9: one escape and one two-byte character. -/
def mixedText : StringValue :=
  .short {
    size := 5
    length := 4
    start := [0x25, 0x34, 0x31, 0xC3, 0xA9] ++ List.replicate 9 0
    start_length := rfl }

/-- The text `"A"` followed by U+00E9. -/
def mixedResult : StringValue :=
  .short {
    size := 3
    length := 2
    start := [0x41, 0xC3, 0xA9] ++ List.replicate 11 0
    start_length := rfl }

theorem mixedResult_wellFormed : WellFormed mixedResult := by
  have htext : code.encodeAll [⟨0x41, by decide⟩, ⟨0xE9, by decide⟩] = mixedResult.bytes := by
    decide
  refine ⟨fun us hus => ?_, fun hnot => absurd htext (hnot _), by decide, by decide⟩
  rw [← code.encodeAll_injective (htext.trans hus.symm)]
  rfl

/-- `decodeURI` gives the decoded text the length 3, and so it is not equal to the
two characters that it consists of. -/
theorem not_uriCodecHolds : ¬∀ s v : StringValue, UriCodecHolds s v := by
  intro h
  obtain ⟨r, hr, hbytes, hne⟩ : ∃ r, UriCodec.uri.decode generous mixedText = .ok r ∧
      mixedResult.bytes = r.bytes ∧ stringEq r mixedResult = false :=
    ⟨_, rfl, by decide, by decide⟩
  have heq := ((h emptyString mixedText).wellFormed .uri generous r hr).2 _
    mixedResult_wellFormed hbytes
  rw [hne] at heq
  cases heq

end Njs.Str
