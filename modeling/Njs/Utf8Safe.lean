import Mathlib.Data.List.TakeWhile
import Njs.Utf8

/-!
# Lossy decoding

`njs_utf8_safe_decode` and `njs_utf8_safe_length`: where there is no sequence of a character, the
replacement character is returned for the bytes that could begin one.
-/

namespace Njs.Utf8

/-- `NJS_UTF8_REPLACEMENT`. -/
def replacement : ℕ := 0xFFFD

/-- The loop of `njs_utf8_safe_decode2`: the value and the number of missing bytes, or nothing if
it was left for a byte outside `0x80 – 0xBF`, and the new value of `p`. -/
def safeLoop : ℕ → ℕ → List UInt8 → Option (ℕ × ℕ) × List UInt8
  | 0, u, p => (some (u, 0), p)
  | n + 1, u, [] => (some (u, n + 1), [])
  | n + 1, u, c :: p =>
    if c - 0x80 > 0x3F then (none, c :: p) else safeLoop n (u <<< 6 ||| (c - 0x80).toNat) p

/-- The part of `njs_utf8_safe_decode2` after the lead byte has been classified. -/
def safeTail (p : List UInt8) (u overlong n : ℕ) : ℕ × List UInt8 :=
  match safeLoop n u p with
  | (none, p) => (replacement, p)
  | (some (u, n), p) =>
    if n = 0 ∧ overlong < u ∧ u < 0x110000 then (u, p) else (replacement, p)

/-- `njs_utf8_safe_decode2`. -/
def safeDecode2 : List UInt8 → Option (ℕ × List UInt8)
  | [] => none
  | b :: p =>
    let u := b.toNat
    if u ≥ 0xE0 then
      if u ≥ 0xF0 then
        if u > 0xF4 then some (replacement, p)
        else some (safeTail p (u &&& 0x07) 0x00FFFF 3)
      else some (safeTail p (u &&& 0x0F) 0x07FF 2)
    else if u ≥ 0xC2 then some (safeTail p (u &&& 0x1F) 0x007F 1)
    else some (replacement, p)

/-- `njs_utf8_safe_decode`. -/
def safeDecode : List UInt8 → Option (ℕ × List UInt8)
  | [] => none
  | b :: p => if b.toNat < 0x80 then some (b.toNat, p) else safeDecode2 (b :: p)

/-- The loop that decodes a whole text, with fuel for its iterations. -/
def safeDecodeAll : ℕ → List UInt8 → Option (List ℕ)
  | _, [] => some []
  | 0, _ :: _ => none
  | fuel + 1, b :: p =>
    match safeDecode (b :: p) with
    | none => none
    | some (u, p) => (safeDecodeAll fuel p).map (u :: ·)

/-- The loop of `njs_utf8_safe_length`. -/
def safeLengthLoop : ℕ → List UInt8 → ℕ → ℕ → Option (ℕ × ℕ)
  | _, [], size, length => some (length, size)
  | 0, _ :: _, _, _ => none
  | fuel + 1, b :: p, size, length =>
    match safeDecode (b :: p) with
    | none => none
    | some (codepoint, p) => safeLengthLoop fuel p (size + Utf8.size codepoint) (length + 1)

/-- `njs_utf8_safe_length`, with the value that is written to `*out_size`. -/
def safeLength (p : List UInt8) : Option (ℕ × ℕ) := safeLengthLoop p.length p 0 0

/-! ## The beginning of a sequence -/

/-- The number of bytes that a lead byte announces. -/
def announced (b : UInt8) : ℕ :=
  if b.toNat < 0xC2 then 0
  else if b.toNat < 0xE0 then 1
  else if b.toNat < 0xF0 then 2
  else if b.toNat ≤ 0xF4 then 3
  else 0

/-- The bytes that continue a sequence, up to some number of them. -/
def continued (n : ℕ) (p : List UInt8) : List UInt8 :=
  (p.take n).takeWhile fun c => 0x80 ≤ c.toNat ∧ c.toNat < 0xC0

/-- The longest beginning of a sequence at a position: a byte, and the bytes after it that
continue the sequence that it announces. -/
def maximalPrefix : List UInt8 → List UInt8
  | [] => []
  | b :: p => b :: continued (announced b) p

/-- The bytes are the sequence of a character. -/
def IsSequence (bs : List UInt8) : Prop := ∃ u : CodePoint, u.encode = bs

theorem continued_cons {c : UInt8} (hc : IsContinuation c) (n : ℕ) (p : List UInt8) :
    continued (n + 1) (c :: p) = c :: continued n p := by
  rw [continued, List.take_succ_cons,
    List.takeWhile_cons_of_pos (by simpa [IsContinuation] using hc)]
  rfl

theorem continued_cons_of_not {c : UInt8} (hc : ¬ IsContinuation c) (n : ℕ) (p : List UInt8) :
    continued (n + 1) (c :: p) = [] := by
  rw [continued, List.take_succ_cons,
    List.takeWhile_cons_of_neg (by simpa [IsContinuation] using hc)]

theorem continued_isPrefix (n : ℕ) (p : List UInt8) : continued n p <+: p :=
  (List.takeWhile_prefix _).trans (List.take_prefix n p)

theorem isContinuation_of_mem_continued {n : ℕ} {p : List UInt8} :
    ∀ c ∈ continued n p, IsContinuation c := by
  intro c hc
  simpa [IsContinuation] using List.mem_takeWhile_imp hc

/-- The loop stops behind the bytes that continue the sequence. -/
theorem safeLoop_spec (n u : ℕ) (p : List UInt8) :
    (safeLoop n u p).2 = p.drop (continued n p).length ∧
      ((safeLoop n u p).1 = some (accumulate u (continued n p), 0) ∧
          (continued n p).length = n ∨
        (∀ v, (safeLoop n u p).1 ≠ some (v, 0)) ∧ (continued n p).length ≠ n) := by
  induction n generalizing u p with
  | zero => exact ⟨rfl, .inl ⟨rfl, rfl⟩⟩
  | succ n ih =>
    cases p with
    | nil => exact ⟨rfl, .inr ⟨fun v => by simp [safeLoop], by simp [continued]⟩⟩
    | cons c p =>
      rw [safeLoop]
      by_cases hc : IsContinuation c
      · have hsub := hc.sub_toNat
        have hlt : c.toNat - 0x80 < 64 := by
          have := hc.2
          omega
        obtain ⟨hrest, hvalue⟩ := ih (u * 64 + (c.toNat - 0x80)) p
        rw [if_neg ((sub_le_iff_isContinuation c).mpr hc), hsub, shift_or hlt,
          continued_cons hc, accumulate_cons, List.length_cons, List.drop_succ_cons]
        exact ⟨hrest, by simpa using hvalue⟩
      · rw [if_pos (not_not.mp (mt (sub_le_iff_isContinuation c).mp hc)),
          continued_cons_of_not hc]
        exact ⟨rfl, .inr ⟨fun v => by simp, by simp⟩⟩

theorem continued_append {cs : List UInt8} (hcs : ∀ c ∈ cs, IsContinuation c)
    (rest : List UInt8) : continued cs.length (cs ++ rest) = cs := by
  induction cs with
  | nil => rfl
  | cons c cs ih =>
    rw [List.cons_append, List.length_cons, continued_cons (hcs c List.mem_cons_self),
      ih fun c hc => hcs c (List.mem_cons_of_mem _ hc)]

/-- Behind a lead byte, both decoders agree on the sequences of characters, and the lossy one
skips the bytes that continue a sequence. -/
theorem safeTail_spec (start p : List UInt8) (u overlong n : ℕ) :
    let rest := p.drop (continued n p).length
    (decode2Tail start p u overlong n = some (invalid, start) ∧
        safeTail p u overlong n = (replacement, rest)) ∨
      ∃ v < codePointEnd, decode2Tail start p u overlong n = some (v, rest) ∧
        safeTail p u overlong n = (v, rest) := by
  intro rest
  have hsplit : p = continued n p ++ rest :=
    (List.prefix_iff_eq_append.mp (continued_isPrefix n p)).symm
  obtain ⟨hrest, hvalue⟩ := safeLoop_spec n u p
  have hsafe : safeLoop n u p = ((safeLoop n u p).1, rest) := Prod.ext rfl hrest
  unfold safeTail
  rcases hvalue with ⟨hdone, hlen⟩ | ⟨hmissing, hlen⟩
  · rw [hsafe, hdone]
    simp only [true_and]
    by_cases hv : overlong < accumulate u (continued n p) ∧
      accumulate u (continued n p) < 0x110000
    · have hdecode : decode2Tail start (continued n p ++ rest) u overlong (continued n p).length =
          some (accumulate u (continued n p), rest) :=
        decode2Tail_of_continuation _ isContinuation_of_mem_continued hv.1 hv.2
      rw [← hsplit, hlen] at hdecode
      exact .inr ⟨_, hv.2, hdecode, if_pos hv⟩
    · refine .inl ⟨?_, if_neg hv⟩
      rcases decode2Tail_spec start p u overlong n with
        h | ⟨cs, rest', rfl, rfl, hcs, hlow, hhigh, -⟩
      · exact h
      · rw [continued_append hcs] at hv
        exact absurd ⟨hlow, hhigh⟩ hv
  · refine .inl ⟨?_, ?_⟩
    · rcases decode2Tail_spec start p u overlong n with h | ⟨cs, rest', rfl, rfl, hcs, -⟩
      · exact h
      · exact absurd (congrArg List.length (continued_append hcs rest')) hlen
    · rw [hsafe]
      cases hloop : (safeLoop n u p).1 with
      | none => rfl
      | some result =>
        obtain ⟨v, m⟩ := result
        have hm : m ≠ 0 := by
          rintro rfl
          exact hmissing v hloop
        simp only
        rw [if_neg fun h => hm h.1]

/-- On the sequence of a character the lossy decoder is the other one. Elsewhere it returns the
replacement character, and is behind the longest beginning of a sequence. -/
theorem safeDecode_cons (b : UInt8) (p : List UInt8) :
    let rest := p.drop (continued (announced b) p).length
    (decode (b :: p) = some (invalid, b :: p) ∧
        safeDecode (b :: p) = some (replacement, rest)) ∨
      ∃ u < codePointEnd, decode (b :: p) = some (u, rest) ∧
        safeDecode (b :: p) = some (u, rest) := by
  have hzero : p.drop (continued 0 p).length = p := rfl
  have htail (u overlong n : ℕ) (hn : announced b = n)
      (hdecode : decode (b :: p) = decode2Tail (b :: p) p u overlong n)
      (hsafe : safeDecode (b :: p) = some (safeTail p u overlong n)) :
      (decode (b :: p) = some (invalid, b :: p) ∧ safeDecode (b :: p) =
          some (replacement, p.drop (continued (announced b) p).length)) ∨
        ∃ u < codePointEnd,
          decode (b :: p) = some (u, p.drop (continued (announced b) p).length) ∧
          safeDecode (b :: p) = some (u, p.drop (continued (announced b) p).length) := by
    rw [hn, hdecode, hsafe]
    rcases safeTail_spec (b :: p) p u overlong n with ⟨h, h'⟩ | ⟨v, hv, h, h'⟩
    · exact .inl ⟨h, congrArg some h'⟩
    · exact .inr ⟨v, hv, h, congrArg some h'⟩
  have hb := b.toNat_lt
  by_cases h1 : b.toNat < 0x80
  · have hn : announced b = 0 := if_pos (by omega)
    rw [hn, hzero, decode, safeDecode, if_pos h1, if_pos h1]
    exact .inr ⟨b.toNat, by unfold codePointEnd; omega, rfl, rfl⟩
  have hdecode : decode (b :: p) = decode2 (b :: p) := if_neg h1
  have hsafe : safeDecode (b :: p) = safeDecode2 (b :: p) := if_neg h1
  by_cases h2 : b.toNat < 0xC2
  · have hn : announced b = 0 := if_pos h2
    rw [hn, hzero, hdecode, hsafe, decode2, safeDecode2]
    simp only [if_neg (show ¬ b.toNat ≥ 0xE0 by omega), if_neg (show ¬ b.toNat ≥ 0xC2 by omega)]
    exact .inl ⟨trivial, trivial⟩
  by_cases h3 : b.toNat < 0xE0
  · refine htail (b.toNat &&& 0x1F) 0x007F 1 ?_ ?_ ?_
    · rw [announced, if_neg h2, if_pos h3]
    · rw [hdecode, decode2]
      simp only [if_neg (show ¬ b.toNat ≥ 0xE0 by omega), if_pos (show b.toNat ≥ 0xC2 by omega)]
    · rw [hsafe, safeDecode2]
      simp only [if_neg (show ¬ b.toNat ≥ 0xE0 by omega), if_pos (show b.toNat ≥ 0xC2 by omega)]
  by_cases h4 : b.toNat < 0xF0
  · refine htail (b.toNat &&& 0x0F) 0x07FF 2 ?_ ?_ ?_
    · rw [announced, if_neg h2, if_neg h3, if_pos h4]
    · rw [hdecode, decode2]
      simp only [if_pos (show b.toNat ≥ 0xE0 by omega), if_neg (show ¬ b.toNat ≥ 0xF0 by omega)]
    · rw [hsafe, safeDecode2]
      simp only [if_pos (show b.toNat ≥ 0xE0 by omega), if_neg (show ¬ b.toNat ≥ 0xF0 by omega)]
  by_cases h5 : b.toNat ≤ 0xF4
  · refine htail (b.toNat &&& 0x07) 0x00FFFF 3 ?_ ?_ ?_
    · rw [announced, if_neg h2, if_neg h3, if_neg h4, if_pos h5]
    · rw [hdecode, decode2]
      simp only [if_pos (show b.toNat ≥ 0xE0 by omega), if_pos (show b.toNat ≥ 0xF0 by omega),
        if_neg (show ¬ b.toNat > 0xF4 by omega)]
    · rw [hsafe, safeDecode2]
      simp only [if_pos (show b.toNat ≥ 0xE0 by omega), if_pos (show b.toNat ≥ 0xF0 by omega),
        if_neg (show ¬ b.toNat > 0xF4 by omega)]
  · have hn : announced b = 0 := by
      rw [announced, if_neg h2, if_neg h3, if_neg h4, if_neg h5]
    rw [hn, hzero, hdecode, hsafe, decode2, safeDecode2]
    simp only [if_pos (show b.toNat ≥ 0xE0 by omega), if_pos (show b.toNat ≥ 0xF0 by omega),
      if_pos (show b.toNat > 0xF4 by omega)]
    exact .inl ⟨trivial, trivial⟩

/-! ## Whole texts -/

theorem replacement_lt : replacement < codePointEnd := by decide

/-- One step of the decoder: what is read is the longest beginning of a sequence, and the value
is that of the sequence or the replacement character. -/
theorem safeDecode_spec {p : List UInt8} (hp : p ≠ []) :
    ∃ (u : CodePoint) (rest : List UInt8), safeDecode p = some (u.val, rest) ∧
      p = maximalPrefix p ++ rest ∧ maximalPrefix p ≠ [] ∧
      (u.encode = maximalPrefix p ∨ (u.val = replacement ∧ ¬ IsSequence (maximalPrefix p))) := by
  obtain ⟨b, p, rfl⟩ := List.exists_cons_of_ne_nil hp
  have hsplit : b :: p = maximalPrefix (b :: p) ++ p.drop (continued (announced b) p).length :=
    congrArg (b :: ·) (List.prefix_iff_eq_append.mp (continued_isPrefix (announced b) p)).symm
  rcases safeDecode_cons b p with ⟨hdecode, hsafe⟩ | ⟨u, hu, hdecode, hsafe⟩
  · refine ⟨⟨replacement, replacement_lt⟩, _, hsafe, hsplit, List.cons_ne_nil _ _,
      .inr ⟨rfl, ?_⟩⟩
    rintro ⟨v, hv⟩
    rw [hsplit, ← hv, decode_encode_append v.encode_eq] at hdecode
    have hval : v.val = invalid := (Prod.mk.inj (Option.some.inj hdecode)).1
    have hlt := v.isLt
    rw [hval] at hlt
    exact absurd hlt (by decide)
  · refine ⟨⟨u, hu⟩, _, hsafe, hsplit, List.cons_ne_nil _ _, .inl ?_⟩
    have hsound := code.decode_sound (p := b :: p) (a := ⟨u, hu⟩)
      (decodeCodePoint_eq_some.mpr hdecode)
    exact (List.append_cancel_right (hsplit.symm.trans hsound)).symm

/-- The repeated decoder and the length loop see the same code points. -/
theorem safeDecodeAll_spec {fuel : ℕ} {p : List UInt8} (hfuel : p.length ≤ fuel)
    (size length : ℕ) :
    ∃ us : List CodePoint, safeDecodeAll fuel p = some (us.map CodePoint.val) ∧
      safeLengthLoop fuel p size length =
        some (length + us.length, size + (code.encodeAll us).length) := by
  induction fuel generalizing p size length with
  | zero =>
    obtain rfl := List.length_eq_zero_iff.mp (Nat.le_zero.mp hfuel)
    exact ⟨[], rfl, rfl⟩
  | succ fuel ih =>
    cases p with
    | nil => exact ⟨[], rfl, rfl⟩
    | cons b p =>
      obtain ⟨u, rest, hsafe, hsplit, hne, -⟩ := safeDecode_spec (List.cons_ne_nil b p)
      have hlen := congrArg List.length hsplit
      have hpos := List.length_pos_of_ne_nil hne
      rw [List.length_append] at hlen
      obtain ⟨us, hall, hloop⟩ := ih (p := rest) (by omega) (size + Utf8.size u.val) (length + 1)
      refine ⟨u :: us, ?_, ?_⟩
      · rw [safeDecodeAll, hsafe]
        simp only [hall]
        rfl
      · rw [safeLengthLoop, hsafe]
        simp only [hloop]
        rw [code.encodeAll_cons, List.length_append, List.length_cons,
          show (code.encode u).length = Utf8.size u.val from encode_length u.encode_eq,
          Nat.add_assoc, Nat.add_assoc, Nat.add_comm 1]

/-- What `njs_utf8_decode` accepts is decoded in the same way. -/
theorem safeDecode_of_decode {p rest : List UInt8} {u : ℕ} (h : decode p = some (u, rest))
    (hu : u ≠ invalid) : safeDecode p = some (u, rest) := by
  cases p with
  | nil => exact absurd h (by simp [decode])
  | cons b p =>
    rcases safeDecode_cons b p with ⟨hdecode, -⟩ | ⟨v, -, hdecode, hsafe⟩
    · exact absurd (Prod.mk.inj (Option.some.inj (hdecode.symm.trans h))).1.symm hu
    · rw [hsafe, ← hdecode, h]

/-- A valid text is decoded to its code points. -/
theorem safeDecodeAll_encodeAll (us : List CodePoint) {fuel : ℕ}
    (hfuel : (code.encodeAll us).length ≤ fuel) :
    safeDecodeAll fuel (code.encodeAll us) = some (us.map CodePoint.val) := by
  induction us generalizing fuel with
  | nil => cases fuel <;> rfl
  | cons u us ih =>
    obtain ⟨b, p, hbytes⟩ := List.exists_cons_of_ne_nil
      (show code.encodeAll (u :: us) ≠ [] by simp [code.encode_ne_nil u])
    have hdecode : decode (code.encodeAll (u :: us)) = some (u.val, code.encodeAll us) :=
      decode_encode_append u.encode_eq (code.encodeAll us)
    have hne : u.val ≠ invalid := by
      have hlt := u.isLt
      unfold codePointEnd at hlt
      unfold invalid
      omega
    have hsafe := safeDecode_of_decode hdecode hne
    have hpos := List.length_pos_of_ne_nil (code.encode_ne_nil u)
    rw [code.encodeAll_cons, List.length_append] at hfuel
    cases fuel with
    | zero => omega
    | succ fuel =>
      rw [hbytes] at hsafe ⊢
      rw [safeDecodeAll, hsafe]
      simp only [ih (show (code.encodeAll us).length ≤ fuel by omega)]
      rfl

/-- Decoding a text until its end gives code points whose encodings are as long as the length
function says, and are a valid text. One call reads the longest beginning of a sequence at a
position, in which all bytes but the first continue the sequence. It agrees with
`njs_utf8_decode`, and returns the replacement character exactly where the beginning is `bad`. -/
def DecodesLossily (bad : List UInt8 → Prop) (p : List UInt8) : Prop :=
  (∃ us : List CodePoint, safeDecodeAll p.length p = some (us.map CodePoint.val) ∧
    safeLength p = some (us.length, (code.encodeAll us).length) ∧
    length (code.encodeAll us) = some (us.length : ℤ) ∧
    ∀ vs, code.encodeAll vs = p → us = vs) ∧
  (p ≠ [] → ∃ u rest, safeDecode p = some (u, rest) ∧ p = maximalPrefix p ++ rest ∧
    maximalPrefix p ≠ [] ∧ (∀ c ∈ (maximalPrefix p).tail, IsContinuation c) ∧
    (∀ v rest', decode p = some (v, rest') → v ≠ invalid → v = u ∧ rest' = rest) ∧
    (u = replacement ↔ bad (maximalPrefix p)))

/-- The sequence of the replacement character itself. -/
theorem replacement_encode : (⟨replacement, replacement_lt⟩ : CodePoint).encode =
    [0xEF, 0xBF, 0xBD] := by
  decide

/-- Every text is decoded so, with the replacement character for what is not a sequence, and for
its own sequence. -/
theorem decodesLossily (p : List UInt8) :
    DecodesLossily (fun bs => ¬ IsSequence bs ∨ bs = [0xEF, 0xBF, 0xBD]) p := by
  constructor
  · obtain ⟨us, hall, hlength⟩ := safeDecodeAll_spec (Nat.le_refl p.length) 0 0
    rw [Nat.zero_add, Nat.zero_add] at hlength
    refine ⟨us, hall, hlength, length_eq_iff.mpr ⟨us, rfl, rfl⟩, ?_⟩
    rintro vs rfl
    rw [safeDecodeAll_encodeAll vs (Nat.le_refl _)] at hall
    exact List.map_injective_iff.mpr (fun u v h => CodePoint.ext h) (Option.some.inj hall).symm
  · intro hp
    obtain ⟨u, rest, hsafe, hsplit, hne, hvalue⟩ := safeDecode_spec hp
    refine ⟨u.val, rest, hsafe, hsplit, hne, ?_, ?_, ?_⟩
    · cases p with
      | nil => exact absurd rfl hp
      | cons b p => exact isContinuation_of_mem_continued
    · intro v rest' hdecode hv
      have hsame := Option.some.inj ((safeDecode_of_decode hdecode hv).symm.trans hsafe)
      exact Prod.mk.inj hsame
    · rcases hvalue with hseq | ⟨hreplaced, hnot⟩
      · constructor
        · intro hu
          obtain rfl : u = ⟨replacement, replacement_lt⟩ := CodePoint.ext hu
          exact .inr (hseq.symm.trans replacement_encode)
        · rintro (hnot | hbytes)
          · exact absurd ⟨u, hseq⟩ hnot
          · rw [hbytes, ← replacement_encode] at hseq
            have hu := decode_encode_append u.encode_eq []
            rw [hseq, decode_encode_append (CodePoint.encode_eq _)] at hu
            exact (Prod.mk.inj (Option.some.inj hu)).1.symm
      · exact iff_of_true hreplaced (.inl hnot)

/-- The sequence of the replacement character is one. -/
theorem replacement_not_decodesLossily :
    ¬ DecodesLossily (fun bs => ¬ IsSequence bs) [0xEF, 0xBF, 0xBD] := by
  rintro ⟨-, hstep⟩
  obtain ⟨u, rest, hsafe, -, -, -, -, hiff⟩ := hstep (List.cons_ne_nil _ _)
  have hrun : safeDecode [0xEF, 0xBF, 0xBD] = some (replacement, []) := by decide
  have hprefix : maximalPrefix [0xEF, 0xBF, 0xBD] = [0xEF, 0xBF, 0xBD] := by decide
  have hu : u = replacement := (Prod.mk.inj (Option.some.inj (hsafe.symm.trans hrun))).1
  exact hiff.mp hu ⟨⟨replacement, replacement_lt⟩, replacement_encode.trans hprefix.symm⟩

end Njs.Utf8
