import Njs.Str.TextEncodings
import Njs.Str.Uri

/-!
# Texts with escapes

A text to decode is a sequence of plain bytes and escapes. Both passes of the
decoder are folds over this sequence, and the encoder writes one.
-/

namespace Njs.Str

/-- A plain byte of a text, or an escape with its two digits. -/
inductive Piece
  | plain (b : UInt8)
  | escape (c0 c1 : UInt8)
  deriving DecidableEq

namespace Piece

/-- The byte that a piece stands for. -/
def value : Piece → UInt8
  | plain b => b
  | escape c0 c1 => ((hexValue? c0).getD 0 * 16 + (hexValue? c1).getD 0).toUInt8

/-- Whether the decoder with a table of reserved bytes replaces the piece. -/
def isDecoded (reserve : List UInt32) : Piece → Bool
  | plain _ => false
  | escape c0 c1 => !isMarked reserve (escape c0 c1).value

/-- The bytes that the decoder writes for the piece; reserved escapes stay as they are. -/
def bytes (reserve : List UInt32) : Piece → List UInt8
  | plain b => [b]
  | escape c0 c1 =>
    if isMarked reserve (escape c0 c1).value then [byte '%', c0, c1] else [(escape c0 c1).value]

/-- The characters of the piece. -/
def source : Piece → List UInt8
  | plain b => [b]
  | escape c0 c1 => [byte '%', c0, c1]

/-- A plain byte is not a percent sign, and an escape has two digits. -/
def IsValid : Piece → Prop
  | plain b => b ≠ byte '%'
  | escape c0 c1 => (hexValue? c0).isSome ∧ (hexValue? c1).isSome

/-- Whether the piece is an escape of a byte outside ASCII. -/
def isHighEscape : Piece → Bool
  | plain _ => false
  | escape c0 c1 => (escape c0 c1).value ≥ 0x80

end Piece

/-- The pieces of a text, if every percent sign in it starts an escape. -/
def pieces : List UInt8 → Option (List Piece)
  | [] => some []
  | b :: src =>
    if b = byte '%' then
      match src with
      | c0 :: c1 :: src =>
        if (hexValue? c0).isSome ∧ (hexValue? c1).isSome then
          (pieces src).map (Piece.escape c0 c1 :: ·)
        else none
      | _ => none
    else (pieces src).map (Piece.plain b :: ·)

theorem uriHex_eq (c : UInt8) : uriHex c = ((hexValue? c).map fun d => (d : ℤ)).getD (-1) := by
  revert c
  apply forall_byte
  decide +kernel

private theorem ofInt_natCast (m : ℕ) : UInt8.ofInt (m : ℤ) = m.toUInt8 := by
  apply UInt8.toNat_inj.mp
  have hmod : ((m : ℤ) % 2 ^ 8).toNat = m % 2 ^ 8 := by omega
  rw [UInt8.ofInt, hmod, UInt8.toNat_ofNat']
  change m % 2 ^ 8 % 2 ^ 8 = (UInt8.ofNat m).toNat
  rw [UInt8.toNat_ofNat', Nat.mod_mod]

/-- The two ways to compute the byte of an escape. -/
theorem uriByte_uriHex {c0 c1 : UInt8} (h0 : (hexValue? c0).isSome) (h1 : (hexValue? c1).isSome) :
    uriByte (uriHex c0) (uriHex c1) = (Piece.escape c0 c1).value := by
  obtain ⟨d0, hd0⟩ := Option.isSome_iff_exists.mp h0
  obtain ⟨d1, hd1⟩ := Option.isSome_iff_exists.mp h1
  rw [uriHex_eq, uriHex_eq, Piece.value, hd0, hd1, uriByte, ← ofInt_natCast]
  rfl

theorem uriHex_lt_zero_iff (c : UInt8) : uriHex c < 0 ↔ ¬(hexValue? c).isSome := by
  rw [uriHex_eq]
  cases hexValue? c <;> simp

/-- The first pass counts the escapes to decode. -/
theorem decodeScan_eq (reserve : List UInt32) (src : List UInt8) (n : ℕ) :
    decodeScan reserve src n =
      (pieces src).map fun ps => n + 2 * ps.countP (Piece.isDecoded reserve) := by
  induction src using pieces.induct generalizing n with
  | case1 => rfl
  | case2 c0 c1 src hc ih =>
    have h0 : ¬uriHex c0 < 0 := by rw [uriHex_lt_zero_iff]; exact not_not.mpr hc.1
    have h1 : ¬uriHex c1 < 0 := by rw [uriHex_lt_zero_iff]; exact not_not.mpr hc.2
    rw [decodeScan, pieces, if_pos rfl, if_pos rfl, if_pos hc, Option.map_map]
    simp only [if_neg h0, if_neg h1, uriByte_uriHex hc.1 hc.2, ih]
    by_cases hres : isMarked reserve (Piece.escape c0 c1).value = true
    · rw [if_pos hres]
      congr 1
      funext ps
      simp [Piece.isDecoded, hres]
    · rw [if_neg hres]
      congr 1
      funext ps
      simp only [Function.comp_apply, Piece.isDecoded, hres, List.countP_cons, Bool.not_false,
        if_true]
      omega
  | case3 c0 c1 src hc =>
    rw [decodeScan, pieces, if_pos rfl, if_pos rfl, if_neg hc, Option.map_none]
    by_cases h0 : uriHex c0 < 0
    · simp only [if_pos h0]
    · have h1 : uriHex c1 < 0 := by
        rw [uriHex_lt_zero_iff] at h0 ⊢
        exact fun h1 => hc ⟨not_not.mp h0, h1⟩
      simp only [if_neg h0, if_pos h1]
  | case4 src hsrc =>
    match src with
    | [] => rfl
    | [_] => rfl
    | c0 :: c1 :: src => exact absurd rfl (hsrc c0 c1 src)
  | case5 b src hb ih =>
    rw [decodeScan.eq_def, pieces.eq_def]
    simp only [if_neg hb, ih, Option.map_map]
    rfl

/-- The pieces of a text are valid, and their characters make up the text. -/
theorem pieces_sound {src : List UInt8} {ps : List Piece} (h : pieces src = some ps) :
    ps.flatMap Piece.source = src ∧ ∀ p ∈ ps, p.IsValid := by
  induction src using pieces.induct generalizing ps with
  | case1 =>
    obtain rfl : [] = ps := Option.some.inj h
    simp
  | case2 c0 c1 src hc ih =>
    rw [pieces, if_pos rfl, if_pos hc] at h
    obtain ⟨qs, hqs, rfl⟩ := Option.map_eq_some_iff.mp h
    obtain ⟨hsrc, hvalid⟩ := ih hqs
    exact ⟨by rw [List.flatMap_cons, hsrc]; rfl, List.forall_mem_cons.mpr ⟨hc, hvalid⟩⟩
  | case3 c0 c1 src hc =>
    rw [pieces, if_pos rfl, if_neg hc] at h
    cases h
  | case4 src hsrc =>
    match src with
    | [] => cases h
    | [_] => cases h
    | c0 :: c1 :: src => exact absurd rfl (hsrc c0 c1 src)
  | case5 b src hb ih =>
    rw [pieces.eq_def] at h
    simp only [if_neg hb] at h
    obtain ⟨qs, hqs, rfl⟩ := Option.map_eq_some_iff.mp h
    obtain ⟨hsrc, hvalid⟩ := ih hqs
    exact ⟨by rw [List.flatMap_cons, hsrc]; rfl, List.forall_mem_cons.mpr ⟨hb, hvalid⟩⟩

theorem pieces_source_append {p : Piece} (hp : p.IsValid) (rest : List UInt8) :
    pieces (p.source ++ rest) = (pieces rest).map (p :: ·) := by
  cases p with
  | plain b =>
    rw [Piece.source, List.singleton_append, pieces.eq_def]
    exact if_neg hp
  | escape c0 c1 => exact if_pos hp

/-- Conversely, a text made of valid pieces consists of them. -/
theorem pieces_flatMap_source {ps : List Piece} (h : ∀ p ∈ ps, p.IsValid) :
    pieces (ps.flatMap Piece.source) = some ps := by
  induction ps with
  | nil => rfl
  | cons p ps ih =>
    obtain ⟨hp, hps⟩ := List.forall_mem_cons.mp h
    rw [List.flatMap_cons, pieces_source_append hp, ih hps, Option.map_some]

theorem decodeLoop_source_append (reserve : List UInt32) {p : Piece} (hp : p.IsValid)
    (rest : List UInt8) (utf8 : Bool) :
    decodeLoop reserve (p.source ++ rest) utf8 =
      (decodeLoop reserve rest (utf8 || p.isHighEscape)).map
        fun (out, utf8) => (p.bytes reserve ++ out, utf8) := by
  cases p with
  | plain b =>
    rw [Piece.source, List.singleton_append, decodeLoop.eq_def, Piece.isHighEscape, Bool.or_false]
    exact if_neg hp
  | escape c0 c1 =>
    rw [Piece.source, List.cons_append, decodeLoop.eq_def]
    simp only [if_true, List.cons_append, List.nil_append, uriByte_uriHex hp.1 hp.2]
    rfl

/-- The second pass writes the pieces one after another, on a text that the first pass
accepts. -/
theorem decodeLoop_eq (reserve : List UInt32) {src : List UInt8} {ps : List Piece}
    (h : pieces src = some ps) (utf8 : Bool) :
    decodeLoop reserve src utf8 =
      some (ps.flatMap (Piece.bytes reserve), utf8 || ps.any Piece.isHighEscape) := by
  obtain ⟨rfl, hvalid⟩ := pieces_sound h
  clear h
  induction ps generalizing utf8 with
  | nil => simp [decodeLoop]
  | cons p ps ih =>
    obtain ⟨hp, hps⟩ := List.forall_mem_cons.mp hvalid
    rw [List.flatMap_cons, decodeLoop_source_append reserve hp, ih _ hps, Option.map_some,
      List.flatMap_cons, List.any_cons, Bool.or_assoc]

/-- The size that the first pass computes is the one that the second pass needs. -/
theorem pieces_length (reserve : List UInt32) {src : List UInt8} {ps : List Piece}
    (h : pieces src = some ps) :
    src.length =
      (ps.flatMap (Piece.bytes reserve)).length + 2 * ps.countP (Piece.isDecoded reserve) := by
  obtain ⟨rfl, -⟩ := pieces_sound h
  clear h
  have hpiece : ∀ p : Piece, p.source.length =
      (p.bytes reserve).length + if p.isDecoded reserve then 2 else 0 := by
    intro p
    cases p with
    | plain b => rfl
    | escape c0 c1 =>
      rw [Piece.bytes, Piece.isDecoded]
      cases isMarked reserve (Piece.escape c0 c1).value <;> rfl
  induction ps with
  | nil => rfl
  | cons p ps ih =>
    simp only [List.flatMap_cons, List.length_append, List.countP_cons, hpiece, ih]
    split_ifs <;> omega

/-! ## What the encoder writes -/

/-- The piece that the encoder writes for a byte. -/
def encodePiece (escape : List UInt32) (b : UInt8) : Piece :=
  if isMarked escape b then
    .escape (upperHexDigits.getD (b >>> 4).toNat 0) (upperHexDigits.getD (b &&& 0xf).toNat 0)
  else .plain b

theorem escapesSize_eq (escape : List UInt32) (src : List UInt8) (n : ℕ) :
    escapesSize escape src n = n + 2 * src.countP (isMarked escape) := by
  induction src generalizing n with
  | nil => rfl
  | cons b src ih =>
    rw [escapesSize, ih, List.countP_cons]
    split_ifs <;> omega

theorem encodeLoop_length (escape : List UInt32) (src : List UInt8) :
    (encodeLoop escape src).length = src.length + 2 * src.countP (isMarked escape) := by
  induction src with
  | nil => rfl
  | cons b src ih =>
    rw [encodeLoop, List.countP_cons]
    split_ifs <;> simp only [List.length_cons, ih] <;> omega

private theorem upperHexDigits_value (b : UInt8) :
    (hexValue? (upperHexDigits.getD (b >>> 4).toNat 0)).isSome ∧
    (hexValue? (upperHexDigits.getD (b &&& 0xf).toNat 0)).isSome ∧
    (Piece.escape (upperHexDigits.getD (b >>> 4).toNat 0)
      (upperHexDigits.getD (b &&& 0xf).toNat 0)).value = b := by
  revert b
  apply forall_byte
  decide +kernel

/-- The encoder writes one piece for each byte. -/
theorem encodeLoop_eq (escape : List UInt32) (src : List UInt8) :
    encodeLoop escape src = (src.map (encodePiece escape)).flatMap Piece.source := by
  induction src with
  | nil => rfl
  | cons b src ih =>
    rw [encodeLoop, List.map_cons, List.flatMap_cons, encodePiece, ih]
    split_ifs <;> rfl

/-- The pieces of the encoder are valid, if it escapes percent signs. -/
theorem encodePiece_isValid {escape : List UInt32} (hescape : isMarked escape (byte '%') = true)
    (b : UInt8) : (encodePiece escape b).IsValid := by
  obtain ⟨h0, h1, -⟩ := upperHexDigits_value b
  rw [encodePiece]
  split_ifs with hb
  · exact ⟨h0, h1⟩
  · exact fun h => hb (h ▸ hescape)

/-- A piece of the encoder is decoded to its byte, unless the byte is reserved. -/
theorem bytes_encodePiece {escape reserve : List UInt32} {b : UInt8}
    (hreserve : isMarked escape b = true → isMarked reserve b = false) :
    (encodePiece escape b).bytes reserve = [b] := by
  obtain ⟨-, -, hvalue⟩ := upperHexDigits_value b
  rw [encodePiece]
  split_ifs with hb
  · simp only [Piece.bytes, hvalue, hreserve hb, Bool.false_eq_true, if_false]
  · rfl

end Njs.Str
