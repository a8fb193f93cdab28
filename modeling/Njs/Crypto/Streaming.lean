import Njs.Crypto.Digests

/-!
# Streaming digests

A context that has taken a text in any number of pieces holds the words of its whole
blocks and the bytes behind them. The result of `final` is that of the text with its
padding, taken at once.
-/

namespace Njs.Crypto

open Njs.Lib

variable {W : Type} (t : Transformation W)

/-- The padding of a text of `n` bytes: a bit, the fewest zeros that leave room for the
bit length at the end of a block, and the bit length. -/
def padding (n : ℕ) : List UInt8 :=
  0x80 :: (List.replicate ((119 - n % blockSize) % blockSize) 0 : List UInt8) ++
    t.lengthBytes (n.toUInt64 <<< 3)

/-- The digest of a text: the transformation is applied to the successive blocks of the
padded text. -/
def digest (text : List UInt8) : List UInt8 :=
  t.result (absorbAll t.block blockSize t.initial (text ++ padding t text.length))

-- The digest of `abc`.
example : (digest sha2 [0x61, 0x62, 0x63]).take 4 = [0xba, 0x78, 0x16, 0xbf] := by decide +kernel

/-- A context that has taken a text. -/
structure Taken (text : List UInt8) (ctx : HashContext W) : Prop where
  bytes_eq : ctx.bytes = text.length.toUInt64
  words_eq : ctx.words = absorbAll t.block blockSize t.initial text
  buffer_eq : ctx.buffer.bytes.take (text.length % blockSize) = remainder blockSize text

variable {t}

theorem Buffer.write_spec (buffer : Buffer) {i : ℕ} {data : List UInt8}
    (h : i + data.length ≤ blockSize) :
    ∃ next, buffer.write i data = .ok next ∧
      next.bytes = buffer.bytes.take i ++ data ++ buffer.bytes.drop (i + data.length) :=
  ⟨_, dif_pos h, rfl⟩

/-- The bytes up to the end of what is written. -/
theorem Buffer.write_take (buffer : Buffer) {i : ℕ} {data : List UInt8}
    (h : i + data.length ≤ blockSize) :
    ∃ next, buffer.write i data = .ok next ∧
      next.bytes.take (i + data.length) = buffer.bytes.take i ++ data := by
  obtain ⟨next, hnext, hbytes⟩ := buffer.write_spec h
  have hi : (buffer.bytes.take i).length = i := by
    have := buffer.length_bytes
    rw [List.length_take]
    omega
  refine ⟨next, hnext, ?_⟩
  rw [hbytes]
  exact List.take_left' (by rw [List.length_append, hi])

/-- The bytes of a buffer that is written up to its end. -/
theorem Buffer.write_full (buffer : Buffer) {i : ℕ} {data : List UInt8}
    (h : i + data.length = blockSize) :
    ∃ next, buffer.write i data = .ok next ∧ next.bytes = buffer.bytes.take i ++ data := by
  obtain ⟨next, hnext, htake⟩ := buffer.write_take (Nat.le_of_eq h)
  refine ⟨next, hnext, ?_⟩
  rwa [h, List.take_of_length_le (Nat.le_of_eq next.length_bytes)] at htake

/-- The low bits of the byte counter count the bytes in the buffer. -/
theorem used_eq (n : ℕ) : (n.toUInt64 &&& 0x3f).toNat = n % blockSize := by
  have hmask : (0x3f : UInt64).toNat = 2 ^ 6 - 1 := rfl
  have hn : n.toUInt64.toNat = n % 2 ^ 64 := rfl
  rw [UInt64.toNat_and, hmask, Nat.and_two_pow_sub_one_eq_mod, hn]
  exact Nat.mod_mod_of_dvd n (by decide)

theorem toUInt64_add (m n : ℕ) : m.toUInt64 + n.toUInt64 = (m + n).toUInt64 := by
  apply UInt64.toNat_inj.mp
  simp [Nat.toUInt64]

theorem hashBody_eq (words : W) (data : List UInt8) :
    hashBody t words data = absorbAll t.block blockSize words data := rfl

/-- Where the buffer is empty, the whole blocks of the data are taken, and the bytes
behind them are in the buffer. -/
theorem updateBlocks_spec (ctx : HashContext W) (data : List UInt8) :
    ∃ next, updateBlocks t ctx data = .ok next ∧ next.bytes = ctx.bytes ∧
      next.words = absorbAll t.block blockSize ctx.words data ∧
      next.buffer.bytes.take (data.length % blockSize) = remainder blockSize data := by
  have hlt : data.length % blockSize < blockSize := Nat.mod_lt _ (by decide)
  have hlen : (remainder blockSize data).length = data.length % blockSize := remainder_length data
  obtain ⟨buffer, hbuffer, htake⟩ :=
    @Buffer.write_take ctx.buffer 0 (remainder blockSize data) (by omega)
  rw [Nat.zero_add, hlen, List.take_zero, List.nil_append] at htake
  by_cases h : data.length ≥ blockSize
  · have hwhole : data.length / blockSize * blockSize ≤ data.length := Nat.div_mul_le_self _ _
    have hcount : (data.take (data.length / blockSize * blockSize)).length / blockSize =
        data.length / blockSize := by
      rw [List.length_take, Nat.min_eq_left hwhole, Nat.mul_div_cancel _ (by decide)]
    refine ⟨{ ctx with words := absorbAll t.block blockSize ctx.words data, buffer := buffer },
      ?_, rfl, rfl, htake⟩
    have hwords : hashBody t ctx.words (data.take (data.length / blockSize * blockSize)) =
        absorbAll t.block blockSize ctx.words data := by
      rw [hashBody, hcount]
      exact absorb_take hwhole _
    simp only [updateBlocks, if_pos h, hwords]
    rw [← remainder, hbuffer]
    rfl
  · have hsmall : data.length < blockSize := Nat.lt_of_not_le h
    refine ⟨{ ctx with buffer := buffer }, ?_, rfl, (absorbAll_of_lt hsmall _).symm, htake⟩
    rw [remainder_of_lt hsmall] at hbuffer
    simp only [updateBlocks, if_neg h, hbuffer]
    rfl

theorem taken_init (ctx : HashContext W) : Taken t [] (hashInit t ctx) where
  bytes_eq := rfl
  words_eq := rfl
  buffer_eq := rfl

/-- An `update` never writes outside of the buffer, and appends its data to the text
that the context has taken. -/
theorem Taken.update {text : List UInt8} {ctx : HashContext W} (h : Taken t text ctx)
    (data : List UInt8) :
    ∃ next, hashUpdate t ctx data = .ok next ∧ Taken t (text ++ data) next := by
  have hused := used_eq text.length
  have hlt : text.length % blockSize < blockSize := Nat.mod_lt _ (by decide)
  have hrem : (remainder blockSize text).length = text.length % blockSize := remainder_length text
  have hbytes : ctx.bytes + data.length.toUInt64 = (text ++ data).length.toUInt64 := by
    rw [h.bytes_eq, toUInt64_add, List.length_append]
  have hrest : (remainder blockSize text ++ data).length % blockSize =
      (text ++ data).length % blockSize := by
    rw [← remainder_length, ← remainder_append, remainder_length]
  -- Whatever is absorbed from here on starts with the bytes in the buffer.
  have hwords : ∀ w, w = absorbAll t.block blockSize ctx.words (remainder blockSize text ++ data) →
      w = absorbAll t.block blockSize t.initial (text ++ data) := by
    intro w hw
    rw [hw, h.words_eq, ← absorbAll_append]
  have hbuffer : ∀ b : List UInt8,
      b.take ((remainder blockSize text ++ data).length % blockSize) =
        remainder blockSize (remainder blockSize text ++ data) →
      b.take ((text ++ data).length % blockSize) = remainder blockSize (text ++ data) := by
    intro b hb
    rw [← hrest, hb, remainder_append text data]
  simp only [hashUpdate, h.bytes_eq, hused]
  rw [← h.bytes_eq, hbytes]
  by_cases hzero : text.length % blockSize = 0
  · have hnil : remainder blockSize text = [] := List.eq_nil_of_length_eq_zero (hrem.trans hzero)
    rw [hnil, List.nil_append] at hwords hbuffer
    obtain ⟨next, hnext, hb, hw, hbuf⟩ :=
      updateBlocks_spec (t := t) { ctx with bytes := (text ++ data).length.toUInt64 } data
    refine ⟨next, ?_, hb, hwords _ hw, hbuffer _ hbuf⟩
    rw [if_neg (by simpa using hzero)]
    exact hnext
  · rw [if_pos hzero]
    by_cases hfits : data.length < blockSize - text.length % blockSize
    · obtain ⟨buffer, hwrite, htake⟩ := @Buffer.write_take ctx.buffer (text.length % blockSize) data
        (by omega)
      have hsmall : (remainder blockSize text ++ data).length < blockSize := by
        rw [List.length_append, hrem]
        omega
      refine ⟨{ ctx with bytes := (text ++ data).length.toUInt64, buffer := buffer }, ?_, rfl,
        hwords _ (absorbAll_of_lt hsmall _).symm, hbuffer _ ?_⟩
      · rw [if_pos hfits, hwrite]
        rfl
      · rw [Nat.mod_eq_of_lt hsmall, remainder_of_lt hsmall, List.length_append, hrem, htake,
          h.buffer_eq]
    · have hfull : text.length % blockSize +
          (data.take (blockSize - text.length % blockSize)).length = blockSize := by
        rw [List.length_take]
        omega
      obtain ⟨buffer, hwrite, hfilled⟩ := ctx.buffer.write_full hfull
      rw [h.buffer_eq] at hfilled
      have hsplit : remainder blockSize text ++ data =
          buffer.bytes ++ data.drop (blockSize - text.length % blockSize) := by
        rw [hfilled, List.append_assoc, List.take_append_drop]
      rw [hsplit, absorbAll_append, absorbAll_block buffer.length_bytes (by decide),
        remainder_block buffer.length_bytes (by decide), List.nil_append] at hwords
      have hlast : (buffer.bytes ++
          data.drop (blockSize - text.length % blockSize)).length % blockSize =
          (data.drop (blockSize - text.length % blockSize)).length % blockSize := by
        rw [List.length_append, buffer.length_bytes, Nat.add_mod_left]
      rw [hsplit, remainder_append, remainder_block buffer.length_bytes (by decide),
        List.nil_append, hlast] at hbuffer
      obtain ⟨next, hnext, hb, hw, hbuf⟩ := updateBlocks_spec (t := t)
        { ctx with
          bytes := (text ++ data).length.toUInt64
          words := hashBody t ctx.words buffer.bytes
          buffer := buffer }
        (data.drop (blockSize - text.length % blockSize))
      refine ⟨next, ?_, hb, hwords _ (hw.trans ?_), hbuffer _ hbuf⟩
      · rw [if_neg hfits, hwrite]
        exact hnext
      · rw [hashBody_eq, absorbAll_block buffer.length_bytes (by decide)]

/-- The last block of a text: what is in the buffer, zeros up to the bit length, and the
bit length. -/
private theorem lastBlock_spec (buffer : Buffer) {used : ℕ} (bytes : UInt64) (h : used ≤ 56) :
    ∃ zeroed last, buffer.write used (List.replicate (blockSize - used - 8) 0) = .ok zeroed ∧
      zeroed.write 56 (t.lengthBytes bytes) = .ok last ∧
      last.bytes = buffer.bytes.take used ++ List.replicate (56 - used) 0 ++
        t.lengthBytes bytes := by
  have hzeros : blockSize - used - 8 = 56 - used := by
    simp only [blockSize]
    omega
  rw [hzeros]
  obtain ⟨zeroed, hzeroed, htake⟩ := @Buffer.write_take buffer used (List.replicate (56 - used) 0)
    (by rw [List.length_replicate]; simp only [blockSize]; omega)
  rw [List.length_replicate, Nat.add_sub_cancel' h] at htake
  obtain ⟨last, hlast, hfull⟩ := @Buffer.write_full zeroed 56 (t.lengthBytes bytes)
    (by rw [t.length_lengthBytes]; rfl)
  exact ⟨zeroed, last, hzeroed, hlast, by rw [hfull, htake]⟩

/-- `final` yields the digest of the text that the context has taken. -/
theorem Taken.final {text : List UInt8} {ctx : HashContext W} (h : Taken t text ctx) :
    hashFinal t ctx =
      .ok (digest t text, { bytes := 0, words := t.zero, buffer := Buffer.zero }) := by
  have hused := used_eq text.length
  have hlt : text.length % blockSize < blockSize := Nat.mod_lt _ (by decide)
  have hrem : (remainder blockSize text).length = text.length % blockSize := remainder_length text
  obtain ⟨marked, hmarked, hmark⟩ := @Buffer.write_take ctx.buffer (text.length % blockSize) [0x80]
    (by rw [List.length_singleton]; omega)
  rw [List.length_singleton, h.buffer_eq] at hmark
  have hdigest : digest t text = t.result (absorbAll t.block blockSize ctx.words
      (remainder blockSize text ++ padding t text.length)) := by
    rw [digest, absorbAll_append, ← h.words_eq]
  simp only [hashFinal, h.bytes_eq, hused, hmarked]
  by_cases hroom : blockSize - (text.length % blockSize + 1) < 8
  · -- The bit length does not fit behind the text, and goes to a block of its own.
    obtain ⟨first, hfirst, hfull⟩ := @Buffer.write_full marked (text.length % blockSize + 1)
      (List.replicate (blockSize - (text.length % blockSize + 1)) 0)
      (by rw [List.length_replicate]; omega)
    rw [hmark] at hfull
    obtain ⟨zeroed, last, hzeroed, hlast, hbytes⟩ :=
      lastBlock_spec (t := t) first (text.length.toUInt64 <<< 3) (Nat.zero_le 56)
    have hsplit : remainder blockSize text ++ padding t text.length =
      first.bytes ++ last.bytes := by
      have hcount : (119 - text.length % blockSize) % blockSize =
          (blockSize - (text.length % blockSize + 1)) + 56 := by
        simp only [blockSize] at hlt hroom ⊢
        omega
      rw [hbytes, hfull, padding, hcount, List.replicate_add]
      simp
    have habsorbed : absorbAll t.block blockSize ctx.words (first.bytes ++ last.bytes) =
        hashBody t (hashBody t ctx.words first.bytes) last.bytes := by
      rw [absorbAll_append, remainder_block first.length_bytes (by decide)]
      rfl
    rw [hdigest, hsplit, habsorbed]
    simp only [if_pos hroom, hfirst, bind, Except.bind, pure, Except.pure]
    rw [show blockSize - 8 = blockSize - 0 - 8 from rfl, hzeroed]
    simp only [hlast]
  · obtain ⟨zeroed, last, hzeroed, hlast, hbytes⟩ :=
      @lastBlock_spec _ t marked (text.length % blockSize + 1)
        (text.length.toUInt64 <<< 3) (by simp only [blockSize] at hroom ⊢; omega)
    have hsplit : remainder blockSize text ++ padding t text.length = last.bytes := by
      have hcount : (119 - text.length % blockSize) % blockSize =
          56 - (text.length % blockSize + 1) := by
        simp only [blockSize] at hlt hroom ⊢
        omega
      rw [hbytes, hmark, padding, hcount]
      simp
    rw [hdigest, hsplit]
    simp only [if_neg hroom, hzeroed, hlast, bind, Except.bind, pure, Except.pure]
    rfl

/-- A text taken in pieces, however it is cut, has the digest of the whole. -/
theorem stream_digest (ctx : HashContext W) (pieces : List (List UInt8)) :
    ∃ taken left, pieces.foldlM (hashUpdate t) (hashInit t ctx) = .ok taken ∧
      hashFinal t taken = .ok (digest t pieces.flatten, left) := by
  have hrun : ∀ (pieces : List (List UInt8)) (text : List UInt8) (ctx : HashContext W),
      Taken t text ctx → ∃ taken, pieces.foldlM (hashUpdate t) ctx = .ok taken ∧
        Taken t (text ++ pieces.flatten) taken := by
    intro pieces
    induction pieces with
    | nil => exact fun text ctx h => ⟨ctx, rfl, by rwa [List.flatten_nil, List.append_nil]⟩
    | cons data pieces ih =>
      intro text ctx h
      obtain ⟨next, hnext, htaken⟩ := h.update data
      obtain ⟨taken, hall, hlast⟩ := ih _ _ htaken
      refine ⟨taken, ?_, by rwa [List.flatten_cons, ← List.append_assoc]⟩
      rw [List.foldlM_cons, hnext]
      exact hall
  obtain ⟨taken, hall, htaken⟩ := hrun pieces [] _ (taken_init ctx)
  exact ⟨taken, _, hall, htaken.final⟩

end Njs.Crypto
