import Njs.Str.Encodings

/-!
# Byte strings through their text encodings

The decoders return well-formed byte strings that hold the decoded prefix, the
encoders write texts that decode to the bytes they were made from, and the two
methods know nearly the same names. The last section states exactly where they
and the hexadecimal alphabet fall short.
-/

namespace Njs.Str

open Lib

/-- A well-formed byte string: no character length, inline exactly when it is short,
and true exactly when it is not empty. -/
structure IsByteString (v : StringValue) : Prop where
  length_eq : v.length = 0
  inline_iff : v.isInline = true ↔ v.size ≤ shortMax
  truth_iff : v.truth = true ↔ v.size ≠ 0

/-- The truth flag follows from the other two properties. -/
theorem isByteString_of_inline {v : StringValue} (hlen : v.length = 0)
    (hinl : v.isInline = true ↔ v.size ≤ shortMax) : IsByteString v := by
  refine ⟨hlen, hinl, ?_⟩
  cases v with
  | short s =>
    have hs : s.length.val = 0 := hlen
    simp [StringValue.truth, StringValue.size, hs]
  | long s =>
    have hs : ¬ s.size ≤ shortMax := by simpa [StringValue.isInline, StringValue.size] using hinl
    simp only [StringValue.truth, StringValue.size, true_iff]
    simp only [shortMax] at hs
    omega

theorem emptyString_isByteString : IsByteString emptyString := by
  constructor <;> decide

/-- Two byte strings are equal values exactly when they have the same bytes. -/
theorem IsByteString.stringEq {v w : StringValue} (hv : IsByteString v) (hw : IsByteString w)
    (h : v.bytes = w.bytes) : stringEq v w = true := by
  have hsize : v.size = w.size := by rw [← v.bytes_length, h, w.bytes_length]
  have hv0 := hv.length_eq
  have hinl : v.isInline = w.isInline := by
    rw [Bool.eq_iff_iff, hv.inline_iff, hw.inline_iff, hsize]
  cases v with
  | short s =>
    cases w with
    | short t =>
      have hs : s.length = 0 := Fin.ext hv0
      have hst : s.size = t.size := Fin.ext hsize
      simpa [Str.stringEq, hs, hst, StringValue.bytes] using h
    | long t => cases hinl
  | long s =>
    cases w with
    | short t => cases hinl
    | long t =>
      have hs : s.length = 0 := hv0
      have hst : s.size = t.size := hsize
      simpa [Str.stringEq, hs, hst, StringValue.bytes] using h

/-! ## Decoding -/

/-- Shortening a byte string keeps it well-formed, also when it becomes inline. -/
theorem truncate_spec (env : Env) {v : StringValue} {size : ℕ} (hv : IsByteString v)
    (h : size ≤ v.size) :
    ∃ w, truncate env v size = .ok w ∧ IsByteString w ∧ w.bytes = v.bytes.take size := by
  unfold truncate
  have hv0 := hv.length_eq
  have hinl := hv.inline_iff
  by_cases hsize : size ≤ shortMax
  · rw [dif_pos hsize]
    cases v with
    | short s =>
      refine ⟨_, rfl, isByteString_of_inline hv0 (by simp [StringValue.isInline, StringValue.size,
        hsize]), ?_⟩
      have hle : size ≤ s.size.val := h
      simp [StringValue.bytes, List.take_take, Nat.min_eq_left hle]
    | long s =>
      have hle : size ≤ s.storage.length := Nat.le_trans h s.size_le
      refine ⟨_, dif_pos hle, isByteString_of_inline rfl
        (by simp [StringValue.isInline, StringValue.size, hsize]), ?_⟩
      have hle' : size ≤ s.size := h
      simp [StringValue.bytes, List.take_take, Nat.min_eq_left hle', Nat.min_eq_left hle]
  · rw [dif_neg hsize]
    cases v with
    | short s =>
      have hle : size ≤ s.size.val := h
      have := s.size.isLt
      simp only [shortMax] at hsize
      omega
    | long s =>
      have hle : size ≤ s.size := h
      refine ⟨_, dif_pos hle, isByteString_of_inline hv0
        (by simp [StringValue.isInline, StringValue.size, hsize]), ?_⟩
      simp [StringValue.bytes, List.take_take, Nat.min_eq_left hle]

/-- Both decoders end the same way: they keep exactly the bytes written, which never
exceed the bytes allocated. -/
theorem decoded_spec (env : Env) {dstLen : ℕ} {out : List UInt8} (hout : out.length ≤ dstLen)
    (hmax : dstLen ≤ maxLength) :
    Returns env (decoded env dstLen out) fun v => IsByteString v ∧ v.bytes = out := by
  refine (stringAlloc_spec env hmax).bind fun v hv => ?_
  obtain ⟨w, hfill, hsize, hlen, hinl, -, hbytes⟩ :=
    StringValue.fill_spec v (hout.trans_eq hv.size_eq.symm)
  have hw : IsByteString w := by
    apply isByteString_of_inline
    · rw [hlen, hv.length_eq]
      split_ifs <;> rfl
    · rw [hinl, hsize, hv.size_eq, hv.inline_iff]
  simp only [hfill, bind, Except.bind, pure, Except.pure]
  by_cases hne : out.length = dstLen
  · rw [if_neg (not_not.mpr hne)]
    refine .ok rfl ⟨hw, ?_⟩
    rwa [List.take_of_length_le (by rw [w.bytes_length, hsize, hv.size_eq, hne])] at hbytes
  · rw [if_pos hne]
    obtain ⟨x, htrunc, hx, hxb⟩ := truncate_spec env hw
      (hout.trans_eq (hsize.trans hv.size_eq).symm)
    exact .ok htrunc ⟨hx, hxb.trans hbytes⟩

/-- The standard value of a hexadecimal digit. -/
def hexValue? (c : UInt8) : Option ℕ :=
  if 0x30 ≤ c ∧ c ≤ 0x39 then some (c.toNat - 0x30)
  else if 0x41 ≤ c ∧ c ≤ 0x46 then some (c.toNat - 0x41 + 10)
  else if 0x61 ≤ c ∧ c ≤ 0x66 then some (c.toNat - 0x61 + 10)
  else none

/-- Setting the letter-case bit first makes digits of ten control characters. -/
theorem charToHex_eq (c : UInt8) :
    charToHex c = if 0x10 ≤ c ∧ c ≤ 0x19 then some (c.toNat - 0x10) else hexValue? c := by
  revert c
  apply forall_byte
  decide +kernel

private theorem findIdx?_toNat (l : List UInt8) (c : UInt8) :
    (l.map UInt8.toNat).findIdx? (Nat.beq c.toNat) = l.idxOf? c := by
  induction l with
  | nil => rfl
  | cons b l ih =>
    have hbeq : Nat.beq c.toNat b.toNat = (b == c) := by
      rw [Bool.eq_iff_iff, Nat.beq_eq, beq_iff_eq, UInt8.toNat_inj, eq_comm]
    rw [List.map_cons, List.findIdx?_cons, List.idxOf?_cons, ih, hbeq]

/-- A table that lists the places of all codes in an alphabet decodes the alphabet. -/
theorem sextet?_of_table {basis codes : List ℕ} {alphabet : List UInt8}
    (hcodes : alphabet.map UInt8.toNat = codes)
    (htable : basis = (List.range 256).map fun n => (codes.findIdx? (Nat.beq n)).getD 77)
    (hpad : byte '=' ∉ alphabet) (hlen : alphabet.length ≤ 64) (c : UInt8) :
    sextet? basis c = alphabet.idxOf? c := by
  have hget : basis.getD c.toNat 77 = (alphabet.idxOf? c).getD 77 := by
    rw [htable, ← hcodes, List.getD_eq_getElem?_getD, List.getElem?_map,
      List.getElem?_range c.toNat_lt, Option.map_some, Option.getD_some, findIdx?_toNat]
  unfold sextet?
  by_cases heq : c = byte '='
  · rw [if_pos heq, heq, List.idxOf?_eq_none_iff.mpr hpad]
  · rw [if_neg heq, hget]
    cases hfound : alphabet.idxOf? c with
    | none => rfl
    | some d =>
      obtain ⟨hd, -⟩ := List.idxOf?_eq_some_iff.mp hfound
      exact if_neg (by simp only [Option.getD_some]; omega)

/-- The codes of the letters and digits, in the order of the alphabets. -/
def alphanumericCodes : List ℕ := List.range' 65 26 ++ List.range' 97 26 ++ List.range' 48 10

/-- The decoding table of base64 is the inverse of its alphabet. -/
theorem sextet?_base64 (c : UInt8) : sextet? decodeBasis64 c = encodeBasis64.idxOf? c :=
  @sextet?_of_table _ (alphanumericCodes ++ [43, 47]) _ (by decide) (by decide +kernel)
    (by decide) (by decide) c

/-- The decoding table of base64url is the inverse of its alphabet. -/
theorem sextet?_base64url (c : UInt8) :
    sextet? decodeBasis64url c = encodeBasis64url.idxOf? c :=
  @sextet?_of_table _ (alphanumericCodes ++ [45, 95]) _ (by decide) (by decide +kernel)
    (by decide) (by decide) c

theorem decodeHex_spec (env : Env) {src : List UInt8} (hsrc : src.length ≤ maxLength) :
    Returns env (decodeHex env src)
      fun v => IsByteString v ∧ v.bytes = octets 4 (digits charToHex src) := by
  unfold decodeHex
  by_cases h0 : src.length = 0
  · obtain rfl := List.length_eq_zero_iff.mp h0
    exact .ok rfl ⟨emptyString_isByteString, by simp [digits, octets]; decide⟩
  · rw [if_neg h0, ← (decodeHexLoop_eq src 0).1 rfl]
    apply decoded_spec
    · have hle := digits_length_le charToHex src
      rw [(decodeHexLoop_eq src 0).1 rfl, octets_length]
      omega
    · simp only [maxLength] at hsrc ⊢
      omega

/-- A character before the end of the valid prefix has a sextet. -/
private theorem lt_of_mem_validLength {basis : List ℕ}
    (hbasis : ∀ c, ∀ d ∈ sextet? basis c, d < 64) (src : List UInt8) :
    ∀ c ∈ src.take (validLength basis src), basis.getD c.toNat 77 < 64 := by
  induction src with
  | nil => simp
  | cons b src ih =>
    rw [validLength]
    split_ifs with heq hinv
    · simp
    · simp
    · intro c hc
      rcases List.mem_cons.mp hc with rfl | hc
      · exact hbasis c _ (by rw [sextet?, if_neg heq, if_neg hinv]; exact rfl)
      · exact ih c hc

/-- The length that `njs_decode_base64_core` decodes, rounded down where one character
is left over. -/
private def wholeLength (len : ℕ) : ℕ := if len % 4 = 1 then len - 1 else len

private theorem decodeBase64Core_eq (env : Env) (basis : List ℕ) (src : List UInt8) :
    decodeBase64Core env basis src = if src.length = 0 then .ok emptyString else
      decoded env (base64DecodedLength (wholeLength (validLength basis src)))
        (decodeBase64Loop basis (src.take (wholeLength (validLength basis src)))) := rfl

private theorem wholeLength_le (len : ℕ) : wholeLength len ≤ len := by
  unfold wholeLength
  split_ifs <;> omega

/-- Leaving out the single character does not change what is decoded. -/
private theorem octets_take_wholeLength (ds : List ℕ) :
    octets 6 (ds.take (wholeLength ds.length)) = octets 6 ds := by
  unfold wholeLength
  split_ifs with h
  · exact octets_take_of_mod h
  · rw [List.take_length]

/-- What both base64 decoders return, for any table of sextets. -/
theorem decodeBase64Core_spec (env : Env) {basis : List ℕ} {src : List UInt8}
    (hbasis : ∀ c, ∀ d ∈ sextet? basis c, d < 64) (hsrc : src.length ≤ maxLength) :
    Returns env (decodeBase64Core env basis src)
      fun v => IsByteString v ∧ v.bytes = octets 6 (digits (sextet? basis) src) := by
  rw [decodeBase64Core_eq]
  by_cases h0 : src.length = 0
  · obtain rfl := List.length_eq_zero_iff.mp h0
    exact .ok rfl ⟨emptyString_isByteString, by simp [digits, octets]; decide⟩
  · rw [if_neg h0]
    obtain ⟨hlen, hdigits⟩ := validLength_eq basis src
    have hle : validLength basis src ≤ src.length := hlen ▸ digits_length_le _ _
    have hwhole := wholeLength_le (validLength basis src)
    have htake : (src.take (wholeLength (validLength basis src))).map
        (fun c => basis.getD c.toNat 77) =
          (digits (sextet? basis) src).take (wholeLength (validLength basis src)) := by
      rw [hdigits, ← List.map_take, List.take_take, Nat.min_eq_left hwhole]
    have hout : decodeBase64Loop basis (src.take (wholeLength (validLength basis src))) =
        octets 6 (digits (sextet? basis) src) := by
      rw [decodeBase64Loop_eq fun c hc => lt_of_mem_validLength hbasis src c
        (List.take_subset_take_left _ hwhole hc), htake, hlen, octets_take_wholeLength]
    rw [hout]
    apply decoded_spec
    · rw [octets_length, ← hlen, base64DecodedLength, wholeLength]
      split_ifs <;> omega
    · simp only [maxLength, base64DecodedLength] at hsrc ⊢
      omega

/-! ## Round trips -/

private theorem hexDigits_value : ∀ d < 2 ^ 4, charToHex (hexDigits.getD d 0) = some d := by
  decide

theorem encodeBasis64_value :
    ∀ d < 2 ^ 6, encodeBasis64.idxOf? (encodeBasis64.getD d 0) = some d := by
  decide

theorem encodeBasis64url_value :
    ∀ d < 2 ^ 6, encodeBasis64url.idxOf? (encodeBasis64url.getD d 0) = some d := by
  decide

private theorem groups_stream_lt {w : ℕ} (bs : List UInt8) (k : ℕ) :
    ∀ d ∈ groups w (stream bs ++ bits k 0), d < 2 ^ w := by
  intro d hd
  refine lt_of_mem_groups (fun b hb => ?_) hd
  rcases List.mem_append.mp hb with hb | hb
  · exact mem_stream_lt_two hb
  · exact mem_bits_lt_two hb

theorem hexLoop_length (src : List UInt8) : (hexLoop src).length = src.length * 2 := by
  rw [hexLoop_eq, List.length_map, groups_length, stream_length]
  omega

/-- Decoding a hexadecimal text gives the bytes it was made from. -/
theorem octets_digits_hexLoop (src : List UInt8) :
    octets 4 (digits charToHex (hexLoop src)) = src := by
  have hread := digits_map_append hexDigits_value (groups_stream_lt src 0) []
  rw [List.append_nil] at hread
  have hback := octets_groups_stream (w := 4) (n := src.length * 2) (k := 0) src (by decide)
    (by omega)
  rw [show bits 0 0 = [] from rfl, List.append_nil] at hread hback
  rw [hexLoop_eq, hread, digits, List.append_nil, hback]

private theorem zeroBits_spec (len : ℕ) :
    zeroBits len < 8 ∧ len * 8 + zeroBits len = (len * 4 + 2) / 3 * 6 := by
  unfold zeroBits
  split_ifs <;> omega

/-- The number of characters that a base64 text has without its padding. -/
private theorem groups_stream_length (src : List UInt8) :
    (groups 6 (stream src ++ bits (zeroBits src.length) 0)).length =
      (src.length * 4 + 2) / 3 := by
  have hz := (zeroBits_spec src.length).2
  rw [groups_length, List.length_append, stream_length, bits_length]
  omega

theorem encodeBase64Core_length (basis src : List UInt8) :
    (encodeBase64Core basis true src).length = base64EncodedLength src.length := by
  rw [encodeBase64Core_eq, if_pos rfl, List.length_append, List.length_map, groups_stream_length,
    List.length_replicate, paddingLength, base64EncodedLength]
  split_ifs <;> omega

/-- The source computes the length without the padding from the remainder modulo 3. -/
theorem encodeBase64Core_length_of_not_padding (basis src : List UInt8) :
    (encodeBase64Core basis false src).length =
      base64EncodedLength src.length - (4 >>> (src.length % 3) &&& 0x03) := by
  rw [encodeBase64Core_eq, if_neg Bool.false_ne_true, List.append_nil, List.length_map,
    groups_stream_length, base64EncodedLength]
  have hmod : src.length % 3 < 3 := Nat.mod_lt _ (by decide)
  have hpad : ∀ r < 3, 4 >>> r &&& 0x03 = if r = 1 then 2 else if r = 2 then 1 else 0 := by decide
  rw [hpad _ hmod]
  split_ifs <;> omega

/-- Decoding a base64 text gives the bytes it was made from, for any alphabet and its
table, with or without padding. -/
theorem octets_digits_encodeBase64Core {basis : List UInt8} {digit? : UInt8 → Option ℕ}
    (hbasis : ∀ d < 2 ^ 6, digit? (basis.getD d 0) = some d) (heq : digit? (byte '=') = none)
    (padding : Bool) (src : List UInt8) :
    octets 6 (digits digit? (encodeBase64Core basis padding src)) = src := by
  obtain ⟨hz, hlen⟩ := zeroBits_spec src.length
  have hpad : digits digit? (if padding then List.replicate (paddingLength src.length) (byte '=')
      else []) = [] := by
    split_ifs
    · cases paddingLength src.length with
      | zero => rfl
      | succ n => rw [List.replicate_succ, digits, heq]
    · rfl
  rw [encodeBase64Core_eq, digits_map_append hbasis (groups_stream_lt src _), hpad,
    List.append_nil]
  exact octets_groups_stream src hz hlen

end Njs.Str
