import Mathlib.Data.List.Basic
import Mathlib.Data.Nat.Bitwise
import Njs.Lib.BitGroups
import Njs.Lib.PrefixCode

/-!
# The UTF-8 codec

`njs_utf8_encode`, `njs_utf8_decode` and `njs_utf8_length`. A pair of pointers
`p ≤ end` is the list of the bytes between them, so reading at or beyond `end`
has no value: the outer `none` of a decoding function is that out-of-range read.
-/

namespace Njs.Utf8

/-- The value returned for an invalid, truncated or overlong sequence. -/
def invalid : ℕ := 0xFFFFFFFF

/-- Code points are the integers below this bound, surrogates included. -/
def codePointEnd : ℕ := 0x110000

/-- `njs_utf8_size`: the number of bytes in the encoding of a code point. -/
def size (u : ℕ) : ℕ :=
  if u < 0x80 then 1 else if u < 0x0800 then 2 else if u < 0x10000 then 3 else 4

/-- `njs_utf8_encode`: the bytes written at `p`, or `none` for the `NULL` result. -/
def encode (u : ℕ) : Option (List UInt8) :=
  if u < 0x80 then
    some [(u &&& 0xFF).toUInt8]
  else if u < 0x0800 then
    some [(u >>> 6 ||| 0xC0).toUInt8, (u &&& 0x3F ||| 0x80).toUInt8]
  else if u < 0x10000 then
    some [(u >>> 12 ||| 0xE0).toUInt8, (u >>> 6 &&& 0x3F ||| 0x80).toUInt8,
      (u &&& 0x3F ||| 0x80).toUInt8]
  else if u < 0x110000 then
    some [(u >>> 18 ||| 0xF0).toUInt8, (u >>> 12 &&& 0x3F ||| 0x80).toUInt8,
      (u >>> 6 &&& 0x3F ||| 0x80).toUInt8, (u &&& 0x3F ||| 0x80).toUInt8]
  else none

/-- The `do … while (n != 0)` loop of `njs_utf8_decode2`. The inner `none` is its
`return 0xFFFFFFFF` on a byte outside `0x80 – 0xBF`. -/
def decode2Loop : ℕ → ℕ → List UInt8 → Option (Option (ℕ × List UInt8))
  | 0, u, p => some (some (u, p))
  | _ + 1, _, [] => none
  | n + 1, u, c :: p =>
    -- Values below 0x80 wrap around and become at least 0x80.
    let c := c - 0x80
    if c > 0x3F then some none else decode2Loop n (u <<< 6 ||| c.toNat) p

/-- The part of `njs_utf8_decode2` after the lead byte has been classified. -/
def decode2Tail (start p : List UInt8) (u overlong n : ℕ) : Option (ℕ × List UInt8) :=
  if n ≤ p.length then
    match decode2Loop n u p with
    | none => none
    | some none => some (invalid, start)
    | some (some (u, p)) =>
      if overlong < u ∧ u < 0x110000 then some (u, p) else some (invalid, start)
  else some (invalid, start)

/-- `njs_utf8_decode2`: decode a sequence of two or more bytes. The result is the
code point or `invalid`, with the new value of `*start`. -/
def decode2 : List UInt8 → Option (ℕ × List UInt8)
  | [] => none
  | b :: p =>
    let u := b.toNat
    if u ≥ 0xE0 then
      if u ≥ 0xF0 then
        if u > 0xF4 then some (invalid, b :: p)
        else decode2Tail (b :: p) p (u &&& 0x07) 0x00FFFF 3
      else decode2Tail (b :: p) p (u &&& 0x0F) 0x07FF 2
    else if u ≥ 0xC2 then decode2Tail (b :: p) p (u &&& 0x1F) 0x007F 1
    else some (invalid, b :: p)

/-- `njs_utf8_decode`: decode one code point. -/
def decode : List UInt8 → Option (ℕ × List UInt8)
  | [] => none
  | b :: p => if b.toNat < 0x80 then some (b.toNat, p) else decode2 (b :: p)

/-- The loop of `njs_utf8_length`, with fuel for its iterations. -/
def lengthLoop : ℕ → List UInt8 → ℕ → Option ℤ
  | _, [], length => some length
  | 0, _ :: _, _ => none
  | fuel + 1, b :: p, length =>
    match decode (b :: p) with
    | none => none
    | some (u, p) => if u = invalid then some (-1) else lengthLoop fuel p (length + 1)

/-- `njs_utf8_length`: the number of code points, or `-1` for an invalid text.
Every iteration that goes on consumes a byte, so the size is fuel enough. -/
def length (p : List UInt8) : Option ℤ := lengthLoop p.length p 0

/-! ## Bit operations as arithmetic -/

theorem shift_or {u c : ℕ} (hc : c < 64) : u <<< 6 ||| c = u * 64 + c := by
  rw [← Nat.shiftLeft_add_eq_or_of_lt (i := 6) hc, Nat.shiftLeft_eq]

private theorem or_80 {x : ℕ} (hx : x < 64) : x ||| 0x80 = x + 0x80 :=
  Lib.or_mul_two_pow (k := 6) 2 hx

private theorem or_c0 {x : ℕ} (hx : x < 64) : x ||| 0xC0 = x + 0xC0 :=
  Lib.or_mul_two_pow (k := 6) 3 hx

private theorem or_e0 {x : ℕ} (hx : x < 32) : x ||| 0xE0 = x + 0xE0 :=
  Lib.or_mul_two_pow (k := 5) 7 hx

private theorem or_f0 {x : ℕ} (hx : x < 16) : x ||| 0xF0 = x + 0xF0 :=
  Lib.or_mul_two_pow (k := 4) 15 hx

private theorem and_3f (x : ℕ) : x &&& 0x3F = x % 64 := Nat.and_two_pow_sub_one_eq_mod x 6

/-- A continuation byte of a multi-byte sequence. -/
def IsContinuation (c : UInt8) : Prop := 0x80 ≤ c.toNat ∧ c.toNat < 0xC0

/-- The wrap-around test of the decoder accepts exactly the continuation bytes. -/
theorem sub_le_iff_isContinuation (c : UInt8) : ¬ c - 0x80 > 0x3F ↔ IsContinuation c := by
  have hc := c.toNat_lt
  simp only [IsContinuation, gt_iff_lt, UInt8.lt_iff_toNat_lt, UInt8.toNat_sub]
  simp
  omega

theorem IsContinuation.sub_toNat {c : UInt8} (h : IsContinuation c) :
    (c - 0x80).toNat = c.toNat - 0x80 := by
  obtain ⟨hlow, hhigh⟩ := h
  rw [UInt8.toNat_sub]
  simp
  omega

/-! ## The continuation loop -/

/-- The value accumulated from the six low bits of each continuation byte. -/
def accumulate (u : ℕ) (cs : List UInt8) : ℕ := cs.foldl (fun u c => u * 64 + (c.toNat - 0x80)) u

@[simp] theorem accumulate_nil (u : ℕ) : accumulate u [] = u := rfl

@[simp] theorem accumulate_cons (u : ℕ) (c : UInt8) (cs : List UInt8) :
    accumulate u (c :: cs) = accumulate (u * 64 + (c.toNat - 0x80)) cs :=
  List.foldl_cons ..

/-- With enough bytes before `end` the loop reads no further than `end`. -/
theorem decode2Loop_ne_none {n u : ℕ} {p : List UInt8} (h : n ≤ p.length) :
    decode2Loop n u p ≠ none := by
  induction n generalizing u p with
  | zero => simp [decode2Loop]
  | succ n ih =>
    cases p with
    | nil => simp at h
    | cons c p =>
      simp only [decode2Loop]
      split
      · simp
      · exact ih (by simpa using h)

/-- The loop succeeds exactly on `n` continuation bytes, whose bits it accumulates. -/
theorem decode2Loop_eq_some_iff {n u v : ℕ} {p rest : List UInt8} :
    decode2Loop n u p = some (some (v, rest)) ↔
      ∃ cs, cs.length = n ∧ p = cs ++ rest ∧ (∀ c ∈ cs, IsContinuation c) ∧
        v = accumulate u cs := by
  induction n generalizing u p with
  | zero =>
    simp only [decode2Loop, Option.some.injEq, Prod.mk.injEq, List.length_eq_zero_iff]
    constructor
    · rintro ⟨rfl, rfl⟩
      exact ⟨[], rfl, rfl, by simp, rfl⟩
    · rintro ⟨cs, rfl, rfl, _, rfl⟩
      exact ⟨rfl, rfl⟩
  | succ n ih =>
    cases p with
    | nil =>
      simp only [decode2Loop, reduceCtorEq, false_iff, not_exists, not_and]
      rintro (_ | ⟨c, cs⟩) hlen hnil
      · simp at hlen
      · simp at hnil
    | cons c p =>
      simp only [decode2Loop]
      by_cases hc : IsContinuation c
      · have hsub := hc.sub_toNat
        have hlt : c.toNat - 0x80 < 64 := by have := hc.2; omega
        rw [if_neg ((sub_le_iff_isContinuation c).mpr hc), hsub, shift_or hlt, ih]
        constructor
        · rintro ⟨cs, rfl, rfl, hcs, rfl⟩
          refine ⟨c :: cs, rfl, rfl, by simpa using ⟨hc, hcs⟩, ?_⟩
          rw [accumulate_cons]
        · rintro ⟨_ | ⟨d, cs⟩, hlen, hp, hcs, rfl⟩
          · simp at hlen
          · obtain ⟨rfl, rfl⟩ := List.cons.inj hp
            refine ⟨cs, by simpa using hlen, rfl, fun c h => hcs c (by simp [h]), ?_⟩
            rw [accumulate_cons]
      · rw [if_pos (not_not.mp (mt (sub_le_iff_isContinuation c).mp hc))]
        simp only [Option.some.injEq, reduceCtorEq, false_iff, not_exists, not_and]
        rintro (_ | ⟨d, cs⟩) hlen hp hcs
        · simp at hlen
        · obtain ⟨rfl, rfl⟩ := List.cons.inj hp
          exact absurd (hcs c (by simp)) hc

/-- What the tail of the decoder does on a lead byte that announces `n` more bytes:
it accepts `n` continuation bytes whose value is neither overlong nor too large,
and otherwise leaves the start pointer where it was. -/
theorem decode2Tail_spec (start p : List UInt8) (u overlong n : ℕ) :
    decode2Tail start p u overlong n = some (invalid, start) ∨
    ∃ cs rest, cs.length = n ∧ p = cs ++ rest ∧ (∀ c ∈ cs, IsContinuation c) ∧
      overlong < accumulate u cs ∧ accumulate u cs < codePointEnd ∧
      decode2Tail start p u overlong n = some (accumulate u cs, rest) := by
  unfold decode2Tail
  by_cases hn : n ≤ p.length
  · rw [if_pos hn]
    cases hloop : decode2Loop n u p with
    | none => exact absurd hloop (decode2Loop_ne_none hn)
    | some result =>
      cases result with
      | none => exact Or.inl rfl
      | some result =>
        obtain ⟨v, rest⟩ := result
        obtain ⟨cs, hlen, hp, hcs, rfl⟩ := decode2Loop_eq_some_iff.mp hloop
        by_cases hv : overlong < accumulate u cs ∧ accumulate u cs < 0x110000
        · exact Or.inr ⟨cs, rest, hlen, hp, hcs, hv.1, hv.2, if_pos hv⟩
        · exact Or.inl (if_neg hv)
  · exact Or.inl (if_neg hn)

/-- Continuation bytes of an acceptable value are decoded, whatever follows them. -/
theorem decode2Tail_of_continuation {start rest : List UInt8} {u overlong : ℕ}
    (cs : List UInt8) (hcs : ∀ c ∈ cs, IsContinuation c) (hlow : overlong < accumulate u cs)
    (hhigh : accumulate u cs < codePointEnd) :
    decode2Tail start (cs ++ rest) u overlong cs.length = some (accumulate u cs, rest) := by
  have hloop : decode2Loop cs.length u (cs ++ rest) = some (some (accumulate u cs, rest)) :=
    decode2Loop_eq_some_iff.mpr ⟨cs, rfl, rfl, hcs, rfl⟩
  unfold decode2Tail
  rw [if_pos (by simp), hloop]
  exact if_pos ⟨hlow, hhigh⟩

/-! ## Encodings by arithmetic -/

private theorem toUInt8_eq {x : ℕ} {b : UInt8} (h : x = b.toNat) : x.toUInt8 = b := by
  subst h
  exact UInt8.ofNat_toNat

private theorem toUInt8_toNat {x : ℕ} (h : x < 256) : x.toUInt8.toNat = x :=
  UInt8.toNat_ofNat_of_lt' h

theorem encode_one {u : ℕ} (h : u < 0x80) : encode u = some [u.toUInt8] := by
  rw [encode, if_pos h, show u &&& 0xFF = u by
    rw [show (0xFF : ℕ) = 2 ^ 8 - 1 from rfl, Nat.and_two_pow_sub_one_eq_mod]; omega]

theorem encode_two {u : ℕ} (hlow : 0x80 ≤ u) (hhigh : u < 0x0800) :
    encode u = some [(u / 64 + 0xC0).toUInt8, (u % 64 + 0x80).toUInt8] := by
  rw [encode, if_neg (by omega), if_pos hhigh, Nat.shiftRight_eq_div_pow, and_3f,
    or_80 (Nat.mod_lt _ (by decide)), or_c0 (by omega)]

theorem encode_three {u : ℕ} (hlow : 0x0800 ≤ u) (hhigh : u < 0x10000) :
    encode u = some [(u / 64 / 64 + 0xE0).toUInt8, (u / 64 % 64 + 0x80).toUInt8,
      (u % 64 + 0x80).toUInt8] := by
  rw [encode, if_neg (by omega), if_neg (by omega), if_pos hhigh]
  simp only [Nat.shiftRight_eq_div_pow, and_3f]
  rw [or_80 (Nat.mod_lt _ (by decide)), or_80 (Nat.mod_lt _ (by decide)),
    or_e0 (by omega), Nat.div_div_eq_div_mul u 64 64]

theorem encode_four {u : ℕ} (hlow : 0x10000 ≤ u) (hhigh : u < codePointEnd) :
    encode u = some [(u / 64 / 64 / 64 + 0xF0).toUInt8, (u / 64 / 64 % 64 + 0x80).toUInt8,
      (u / 64 % 64 + 0x80).toUInt8, (u % 64 + 0x80).toUInt8] := by
  have hhigh' : u < 0x110000 := hhigh
  rw [encode, if_neg (by omega), if_neg (by omega), if_neg (by omega), if_pos hhigh']
  simp only [Nat.shiftRight_eq_div_pow, and_3f]
  rw [or_80 (Nat.mod_lt _ (by decide)), or_80 (Nat.mod_lt _ (by decide)),
    or_80 (Nat.mod_lt _ (by decide)), or_f0 (by omega),
    Nat.div_div_eq_div_mul u 64 64, Nat.div_div_eq_div_mul u (64 * 64) 64]

/-- The encoder returns `NULL` exactly above the last code point. -/
theorem encode_isSome_iff {u : ℕ} : (encode u).isSome ↔ u < codePointEnd := by
  unfold encode codePointEnd
  split_ifs <;> simp <;> omega

/-- `njs_utf8_size` is the number of bytes that the encoder writes. -/
theorem encode_length {u : ℕ} {bs : List UInt8} (h : encode u = some bs) :
    bs.length = size u := by
  unfold encode at h
  unfold size
  split_ifs at h ⊢ <;> (obtain rfl := Option.some.inj h; rfl)

/-! ## Decoding what was encoded -/

private theorem isContinuation_toUInt8 (x : ℕ) : IsContinuation (x % 64 + 0x80).toUInt8 := by
  rw [IsContinuation, toUInt8_toNat (by omega)]
  omega

private theorem continuation_value (x : ℕ) : (x % 64 + 0x80).toUInt8.toNat - 0x80 = x % 64 := by
  rw [toUInt8_toNat (by omega)]
  omega

private theorem and_low {x k m : ℕ} (hx : x < 2 ^ k) : (x + m * 2 ^ k) &&& (2 ^ k - 1) = x := by
  rw [Nat.and_two_pow_sub_one_eq_mod, Nat.add_mul_mod_self_right, Nat.mod_eq_of_lt hx]

/-- `njs_utf8_decode` undoes `njs_utf8_encode`, whatever bytes follow. -/
theorem decode_encode_append {u : ℕ} {bs : List UInt8} (h : encode u = some bs)
    (rest : List UInt8) : decode (bs ++ rest) = some (u, rest) := by
  have hu : u < codePointEnd := encode_isSome_iff.mp (by simp [h])
  have hu' : u < 0x110000 := hu
  by_cases h1 : u < 0x80
  · obtain rfl := Option.some.inj ((encode_one h1).symm.trans h)
    simp only [List.cons_append, List.nil_append, decode]
    rw [toUInt8_toNat (by omega), if_pos h1]
  by_cases h2 : u < 0x0800
  · obtain rfl := Option.some.inj ((encode_two (by omega) h2).symm.trans h)
    have hb : (u / 64 + 0xC0).toUInt8.toNat = u / 64 + 0xC0 := toUInt8_toNat (by omega)
    have hlead : u / 64 + 0xC0 &&& 0x1F = u / 64 := and_low (k := 5) (m := 6) (by omega)
    have hacc : accumulate (u / 64) [(u % 64 + 0x80).toUInt8] = u := by
      simp only [accumulate_cons, accumulate_nil, continuation_value]
      omega
    simp only [List.cons_append, List.nil_append, decode, decode2, hb, hlead]
    rw [if_neg (by omega), if_neg (by omega), if_pos (by omega)]
    refine (decode2Tail_of_continuation [(u % 64 + 0x80).toUInt8] ?_ ?_ ?_).trans ?_
    · simpa using isContinuation_toUInt8 u
    · rw [hacc]; omega
    · rwa [hacc]
    · rw [hacc]
  by_cases h3 : u < 0x10000
  · obtain rfl := Option.some.inj ((encode_three (by omega) h3).symm.trans h)
    have hb : (u / 64 / 64 + 0xE0).toUInt8.toNat = u / 64 / 64 + 0xE0 :=
      toUInt8_toNat (by omega)
    have hlead : u / 64 / 64 + 0xE0 &&& 0x0F = u / 64 / 64 :=
      and_low (k := 4) (m := 14) (by omega)
    have hacc : accumulate (u / 64 / 64)
        [(u / 64 % 64 + 0x80).toUInt8, (u % 64 + 0x80).toUInt8] = u := by
      simp only [accumulate_cons, accumulate_nil, continuation_value]
      omega
    simp only [List.cons_append, List.nil_append, decode, decode2, hb, hlead]
    rw [if_neg (by omega), if_pos (by omega), if_neg (by omega)]
    refine (decode2Tail_of_continuation
      [(u / 64 % 64 + 0x80).toUInt8, (u % 64 + 0x80).toUInt8] ?_ ?_ ?_).trans ?_
    · simp only [List.mem_cons, List.not_mem_nil, or_false, forall_eq_or_imp, forall_eq]
      exact ⟨isContinuation_toUInt8 (u / 64), isContinuation_toUInt8 u⟩
    · rw [hacc]; omega
    · rwa [hacc]
    · rw [hacc]
  · obtain rfl := Option.some.inj ((encode_four (by omega) hu).symm.trans h)
    have hb : (u / 64 / 64 / 64 + 0xF0).toUInt8.toNat = u / 64 / 64 / 64 + 0xF0 :=
      toUInt8_toNat (by omega)
    have hlead : u / 64 / 64 / 64 + 0xF0 &&& 0x07 = u / 64 / 64 / 64 :=
      and_low (k := 3) (m := 30) (by omega)
    have hacc : accumulate (u / 64 / 64 / 64) [(u / 64 / 64 % 64 + 0x80).toUInt8,
        (u / 64 % 64 + 0x80).toUInt8, (u % 64 + 0x80).toUInt8] = u := by
      simp only [accumulate_cons, accumulate_nil, continuation_value]
      omega
    simp only [List.cons_append, List.nil_append, decode, decode2, hb, hlead]
    rw [if_neg (by omega), if_pos (by omega), if_pos (by omega), if_neg (by omega)]
    refine (decode2Tail_of_continuation [(u / 64 / 64 % 64 + 0x80).toUInt8,
      (u / 64 % 64 + 0x80).toUInt8, (u % 64 + 0x80).toUInt8] ?_ ?_ ?_).trans ?_
    · simp only [List.mem_cons, List.not_mem_nil, or_false, forall_eq_or_imp, forall_eq]
      exact ⟨isContinuation_toUInt8 (u / 64 / 64), isContinuation_toUInt8 (u / 64),
        isContinuation_toUInt8 u⟩
    · rw [hacc]; omega
    · rwa [hacc]
    · rw [hacc]

/-! ## Encoding what was decoded -/

/-- The four classes of lead bytes: on a non-empty input the decoder either reports
an invalid sequence with the start pointer where it was, or has read exactly the
encoding of the code point it returns. -/
theorem decode_cons (b : UInt8) (p : List UInt8) :
    decode (b :: p) = some (invalid, b :: p) ∨
    ∃ u bs rest, decode (b :: p) = some (u, rest) ∧ encode u = some bs ∧ b :: p = bs ++ rest := by
  have hb := b.toNat_lt
  by_cases h1 : b.toNat < 0x80
  · refine Or.inr ⟨b.toNat, [b], p, by simp [decode, h1], ?_, rfl⟩
    rw [encode_one h1, toUInt8_eq rfl]
  simp only [decode, if_neg h1, decode2]
  by_cases h4 : b.toNat ≥ 0xF0
  · rw [if_pos (by omega), if_pos h4]
    by_cases h5 : b.toNat > 0xF4
    · exact Or.inl (if_pos h5)
    rw [if_neg h5, show b.toNat &&& 0x07 = b.toNat - 0xF0 by
      rw [show (0x07 : ℕ) = 2 ^ 3 - 1 from rfl, Nat.and_two_pow_sub_one_eq_mod]; omega]
    rcases decode2Tail_spec (b :: p) p (b.toNat - 0xF0) 0x00FFFF 3 with
      h | ⟨cs, rest, hlen, rfl, hcs, hlow, hhigh, h⟩
    · exact Or.inl h
    obtain ⟨c, d, e, rfl⟩ := List.length_eq_three.mp hlen
    simp only [List.mem_cons, List.not_mem_nil, or_false, forall_eq_or_imp, forall_eq] at hcs
    obtain ⟨⟨hc, hc'⟩, ⟨hd, hd'⟩, he, he'⟩ := hcs
    simp only [accumulate_cons, accumulate_nil] at hlow hhigh h
    refine Or.inr ⟨_, [b, c, d, e], rest, h, ?_, rfl⟩
    rw [encode_four (by omega) hhigh, toUInt8_eq (b := b) (by omega),
      toUInt8_eq (b := c) (by omega), toUInt8_eq (b := d) (by omega),
      toUInt8_eq (b := e) (by omega)]
  by_cases h3 : b.toNat ≥ 0xE0
  · rw [if_pos h3, if_neg h4, show b.toNat &&& 0x0F = b.toNat - 0xE0 by
      rw [show (0x0F : ℕ) = 2 ^ 4 - 1 from rfl, Nat.and_two_pow_sub_one_eq_mod]; omega]
    rcases decode2Tail_spec (b :: p) p (b.toNat - 0xE0) 0x07FF 2 with
      h | ⟨cs, rest, hlen, rfl, hcs, hlow, hhigh, h⟩
    · exact Or.inl h
    obtain ⟨c, d, rfl⟩ := List.length_eq_two.mp hlen
    simp only [List.mem_cons, List.not_mem_nil, or_false, forall_eq_or_imp, forall_eq] at hcs
    obtain ⟨⟨hc, hc'⟩, hd, hd'⟩ := hcs
    simp only [accumulate_cons, accumulate_nil] at hlow hhigh h
    refine Or.inr ⟨_, [b, c, d], rest, h, ?_, rfl⟩
    rw [encode_three (by omega) (by omega), toUInt8_eq (b := b) (by omega),
      toUInt8_eq (b := c) (by omega), toUInt8_eq (b := d) (by omega)]
  · rw [if_neg h3]
    by_cases h2 : b.toNat ≥ 0xC2
    · rw [if_pos h2, show b.toNat &&& 0x1F = b.toNat - 0xC0 by
        rw [show (0x1F : ℕ) = 2 ^ 5 - 1 from rfl, Nat.and_two_pow_sub_one_eq_mod]; omega]
      rcases decode2Tail_spec (b :: p) p (b.toNat - 0xC0) 0x007F 1 with
        h | ⟨cs, rest, hlen, rfl, hcs, hlow, hhigh, h⟩
      · exact Or.inl h
      obtain ⟨c, rfl⟩ := List.length_eq_one_iff.mp hlen
      simp only [List.mem_cons, List.not_mem_nil, or_false, forall_eq] at hcs
      obtain ⟨hc, hc'⟩ := hcs
      simp only [accumulate_cons, accumulate_nil] at hlow hhigh h
      refine Or.inr ⟨_, [b, c], rest, h, ?_, rfl⟩
      rw [encode_two (by omega) (by omega), toUInt8_eq (b := b) (by omega),
        toUInt8_eq (b := c) (by omega)]
    · exact Or.inl (if_neg h2)

/-- The error value is not a code point. -/
theorem encode_invalid : encode invalid = none := by decide

/-! ## Texts -/

/-- A code point: an integer that the encoder accepts. -/
@[ext] structure CodePoint where
  /-- The number of the code point. -/
  val : ℕ
  isLt : val < codePointEnd
  deriving DecidableEq

/-- The letter `a`. -/
def letterA : CodePoint := ⟨0x61, by decide⟩

/-- The letter `b`. -/
def letterB : CodePoint := ⟨0x62, by decide⟩

/-- The letter `e` with an acute accent, of two bytes. -/
def letterEAcute : CodePoint := ⟨0xE9, by decide⟩

/-- The encoding of a code point, which always exists. -/
def CodePoint.encode (u : CodePoint) : List UInt8 :=
  (Utf8.encode u.val).get (encode_isSome_iff.mpr u.isLt)

theorem CodePoint.encode_eq (u : CodePoint) : Utf8.encode u.val = some u.encode :=
  (Option.some_get _).symm

/-- The code point at the front of a text, with the bytes after it. -/
def decodeCodePoint (p : List UInt8) : Option (CodePoint × List UInt8) :=
  match decode p with
  | none => none
  | some (u, rest) => if h : u < codePointEnd then some (⟨u, h⟩, rest) else none

theorem decodeCodePoint_eq_some {p rest : List UInt8} {u : CodePoint} :
    decodeCodePoint p = some (u, rest) ↔ decode p = some (u.val, rest) := by
  unfold decodeCodePoint
  cases hdecode : decode p with
  | none => simp
  | some result =>
    obtain ⟨v, rest'⟩ := result
    by_cases hv : v < codePointEnd
    · simp only [dif_pos hv, Option.some.injEq, Prod.mk.injEq]
      rw [CodePoint.ext_iff]
    · simp only [dif_neg hv, reduceCtorEq, Option.some.injEq, Prod.mk.injEq, false_iff, not_and]
      exact fun h => absurd (h ▸ u.isLt) hv

/-- UTF-8 is a self-delimiting code: the two functions of the source satisfy
the laws of a prefix code on code points. -/
def code : Lib.PrefixCode CodePoint UInt8 where
  encode := CodePoint.encode
  decode := decodeCodePoint
  encode_ne_nil u hnil := by
    have hlen := encode_length u.encode_eq
    rw [hnil, List.length_nil, size] at hlen
    split_ifs at hlen
  decode_encode u rest := decodeCodePoint_eq_some.mpr (decode_encode_append u.encode_eq rest)
  decode_sound {p u rest} h := by
    have hdecode := decodeCodePoint_eq_some.mp h
    cases p with
    | nil => simp [decode] at hdecode
    | cons b p =>
      rcases decode_cons b p with hinv | ⟨v, bs, rest', hok, henc, hp⟩
      · rw [hinv] at hdecode
        have hu : invalid = u.val := (Prod.mk.inj (Option.some.inj hdecode)).1
        exact absurd u.encode_eq (by rw [← hu, encode_invalid]; simp)
      · rw [hok] at hdecode
        obtain ⟨rfl, rfl⟩ := Prod.mk.inj (Option.some.inj hdecode)
        rwa [← Option.some.inj (henc.symm.trans u.encode_eq)]

/-- The length loop counts the code points of a text and reports everything else. -/
theorem lengthLoop_spec {fuel : ℕ} {p : List UInt8} (hfuel : p.length ≤ fuel) (length : ℕ) :
    (∃ us, code.encodeAll us = p ∧ lengthLoop fuel p length = some ((length + us.length : ℕ) : ℤ)) ∨
    ((∀ us, code.encodeAll us ≠ p) ∧ lengthLoop fuel p length = some (-1)) := by
  induction fuel generalizing p length with
  | zero =>
    obtain rfl : p = [] := List.length_eq_zero_iff.mp (by omega)
    exact Or.inl ⟨[], rfl, by simp [lengthLoop]⟩
  | succ fuel ih =>
    cases p with
    | nil => exact Or.inl ⟨[], rfl, by simp [lengthLoop]⟩
    | cons b p =>
      simp only [lengthLoop]
      rcases decode_cons b p with hinv | ⟨v, bs, rest, hok, henc, hp⟩
      · refine Or.inr ⟨fun us hus => ?_, by simp [hinv]⟩
        obtain ⟨u, rest, tail, hu, -, -⟩ :=
          (code.mem_range_encodeAll_iff (List.cons_ne_nil b p)).mp hus
        have hdecode := decodeCodePoint_eq_some.mp hu
        rw [hinv] at hdecode
        have hu : invalid = u.val := (Prod.mk.inj (Option.some.inj hdecode)).1
        exact absurd u.encode_eq (by rw [← hu, encode_invalid]; simp)
      · have hv : v < codePointEnd := encode_isSome_iff.mp (by simp [henc])
        have hne : v ≠ invalid := by
          rintro rfl
          simp [encode_invalid] at henc
        have hdecode : code.decode (b :: p) = some (⟨v, hv⟩, rest) :=
          decodeCodePoint_eq_some.mpr hok
        have hlt := code.decode_length_lt hdecode
        simp only [hok, if_neg hne]
        rcases @ih rest (by simp only [List.length_cons] at hlt hfuel; omega) (length + 1) with
          ⟨us, hus, hlen⟩ | ⟨hus, hlen⟩
        · refine Or.inl ⟨⟨v, hv⟩ :: us, ?_, ?_⟩
          · rw [code.encodeAll_cons, hus, ← code.decode_sound hdecode]
          · rw [hlen, List.length_cons, Nat.add_right_comm, Nat.add_assoc]
        · refine Or.inr ⟨fun us h => ?_, hlen⟩
          obtain ⟨u, rest', tail, hu, -, htail⟩ :=
            (code.mem_range_encodeAll_iff (List.cons_ne_nil b p)).mp h
          rw [hdecode] at hu
          obtain ⟨-, rfl⟩ := Prod.mk.inj (Option.some.inj hu)
          exact hus tail htail

/-- `njs_utf8_length` of a text is its number of code points. -/
theorem length_eq_iff {p : List UInt8} {n : ℕ} :
    length p = some (n : ℤ) ↔ ∃ us : List CodePoint, us.length = n ∧ code.encodeAll us = p := by
  unfold length
  rcases lengthLoop_spec (le_refl p.length) 0 with ⟨us, hus, hlen⟩ | ⟨hus, hlen⟩
  · rw [Nat.zero_add] at hlen
    rw [hlen]
    constructor
    · intro h
      exact ⟨us, by exact_mod_cast Option.some.inj h, hus⟩
    · rintro ⟨vs, rfl, hvs⟩
      rw [code.encodeAll_injective (hus.trans hvs.symm)]
  · rw [hlen]
    constructor
    · intro h
      have := Option.some.inj h
      omega
    · rintro ⟨vs, -, hvs⟩
      exact absurd hvs (hus vs)

/-- `njs_utf8_length` always returns, and never reads at or beyond `end`. -/
theorem length_isSome (p : List UInt8) : ∃ n : ℤ, length p = some n ∧ -1 ≤ n := by
  unfold length
  rcases lengthLoop_spec (le_refl p.length) 0 with ⟨us, -, hlen⟩ | ⟨-, hlen⟩
  · exact ⟨_, hlen, by omega⟩
  · exact ⟨-1, hlen, Int.le_refl _⟩

private theorem CodePoint.encode_spec (u : CodePoint) :
    1 ≤ u.encode.length ∧ (u.encode.length = 1 ↔ ∀ b ∈ u.encode, b < 0x80) := by
  by_cases hu : u.val < 0x80
  · have hone : u.encode = [u.val.toUInt8] :=
      Option.some.inj (u.encode_eq.symm.trans (encode_one hu))
    have hlt : u.val.toUInt8 < 0x80 := by
      rw [UInt8.lt_iff_toNat_lt]
      change u.val % 256 < 128
      omega
    rw [hone]
    simp [hlt]
  · have hsize : 2 ≤ u.encode.length := by
      rw [encode_length u.encode_eq, size]
      split_ifs <;> omega
    refine ⟨by omega, iff_of_false (by omega) fun hlow => ?_⟩
    obtain ⟨b, rest, hb⟩ := List.exists_cons_of_ne_nil (List.ne_nil_of_length_pos (by omega :
      0 < u.encode.length))
    have hlt : b.toNat < 0x80 := UInt8.lt_iff_toNat_lt.mp (hlow b (by simp [hb]))
    have hback := decode_encode_append u.encode_eq []
    rw [hb, List.append_nil, decode, if_pos hlt] at hback
    obtain ⟨-, hrest⟩ := Prod.mk.inj (Option.some.inj hback)
    rw [hb, hrest] at hsize
    simp at hsize

/-- A text has as many code points as bytes exactly when it is ASCII. -/
theorem encodeAll_length (us : List CodePoint) :
    us.length ≤ (code.encodeAll us).length ∧
      (us.length = (code.encodeAll us).length ↔ ∀ b ∈ code.encodeAll us, b < 0x80) := by
  induction us with
  | nil => simp
  | cons u us ih =>
    obtain ⟨hone, hiff⟩ : 1 ≤ (code.encode u).length ∧ ((code.encode u).length = 1 ↔
      ∀ b ∈ code.encode u, b < 0x80) := u.encode_spec
    rw [code.encodeAll_cons, List.length_append, List.length_cons]
    refine ⟨by omega, ?_⟩
    simp only [List.mem_append, or_imp, forall_and, ← hiff, ← ih.2]
    omega

end Njs.Utf8
