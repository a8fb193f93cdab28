import Njs.Decimal.FixedDigits
import Njs.Decimal.Printing

/-!
# Layouts of numbers

`njs_dtoa_format`, `njs_dtoa_prec_format` and `njs_dtoa_exp_format` move the digits of a number
inside their buffer to make room for zeros, a point and an exponent. What is left there are the
notations of ECMAScript, and `njs_strtod` reads the number back.
-/

namespace Njs.Decimal

open Json

variable {a b digits text : List UInt8} {n : ℕ} {point e : ℤ}

/-! ## Notations of ECMAScript -/

namespace Ecma

/-- An exponent with its sign. -/
def exponentPart (e : ℤ) : List UInt8 :=
  101 :: (if e < 0 then 45 else 43) :: decimal e.natAbs

/-- One digit, and the other ones behind a point. -/
def mantissa (digits : List UInt8) : List UInt8 :=
  digits.take 1 ++ if digits.length = 1 then [] else 46 :: digits.drop 1

/-- `Number.prototype.toExponential`, from its significant digits and the exponent of the first
one on. -/
def toExponential (digits : List UInt8) (e : ℤ) : List UInt8 := mantissa digits ++ exponentPart e

/-- `Number.prototype.toPrecision`, likewise. -/
def toPrecision (digits : List UInt8) (e : ℤ) : List UInt8 :=
  if e < -6 ∨ digits.length ≤ e then toExponential digits e
  else if e = digits.length - 1 then digits
  else if 0 ≤ e then digits.take (e + 1).toNat ++ 46 :: digits.drop (e + 1).toNat
  else 48 :: 46 :: (List.replicate (-(e + 1)).toNat 48 ++ digits)

/-- `Number::toString`, from the digits and the number of them before the point on. -/
def numberToString (digits : List UInt8) (n : ℤ) : List UInt8 :=
  if digits.length ≤ n ∧ n ≤ 21 then digits ++ List.replicate (n - digits.length).toNat 48
  else if 0 < n ∧ n ≤ 21 then digits.take n.toNat ++ 46 :: digits.drop n.toNat
  else if -6 < n ∧ n ≤ 0 then 48 :: 46 :: (List.replicate (-n).toNat 48 ++ digits)
  else toExponential digits (n - 1)

end Ecma

/-! ## The buffer -/

/-- The memory behind a pointer, and nothing for a byte that has no value yet. -/
def Buffer : Type := ℕ → Option UInt8

namespace Buffer

/-- Other bytes from an index on. -/
def overlay (start : Buffer) (pos size : ℕ) (bytes : ℕ → Option UInt8) : Buffer := fun i =>
  if pos ≤ i ∧ i < pos + size then bytes (i - pos) else start i

/-- Bytes are written. An index or a size that is negative would be a very large one. -/
def write (start : Buffer) (pos size : ℤ) (bytes : ℕ → Option UInt8) : Result Buffer :=
  if 0 ≤ pos ∧ 0 ≤ size then .ok (start.overlay pos.toNat size.toNat bytes) else .error .fault

/-- A byte is written. -/
def store (start : Buffer) (pos : ℤ) (c : UInt8) : Result Buffer :=
  start.write pos 1 fun _ => some c

/-- `njs_memset`. -/
def memset (start : Buffer) (pos : ℤ) (c : UInt8) (size : ℤ) : Result Buffer :=
  start.write pos size fun _ => some c

/-- `memcpy` from other memory. -/
def memcpy (start : Buffer) (pos : ℤ) (bytes : List UInt8) : Result Buffer :=
  start.write pos bytes.length fun i => bytes[i]?

/-- `memmove` inside the buffer. -/
def memmove (start : Buffer) (pos source size : ℤ) : Result Buffer :=
  if 0 ≤ source then start.write pos size fun i => start (source.toNat + i) else .error .fault

/-- The loop of `njs_write_exponent`, which goes backwards through four bytes. -/
def exponentLoop (u32 : ℕ) (p : List UInt8) : Result (List UInt8) :=
  if 4 ≤ p.length then .error .fault
  else if u32 / 10 = 0 then .ok (digitChar (u32 % 10) :: p)
  else exponentLoop (u32 / 10) (digitChar (u32 % 10) :: p)
termination_by u32

/-- `njs_write_exponent`. -/
def writeExponent (buffer : Buffer) (exp start : ℤ) : Result (Buffer × ℤ) := do
  let buffer ← buffer.store start (if exp < 0 then 45 else 43)
  let start := start + 1
  let exp := if exp < 0 then -exp else exp
  let p ← exponentLoop exp.toNat []
  let buffer ← buffer.memcpy start p
  .ok (buffer, p.length + 1)

/-- `njs_dtoa_format`, with the length that is returned. -/
def dtoaFormat (start : Buffer) (len : ℕ) (point : ℤ) : Result (Buffer × ℤ) :=
  let length : ℤ := len
  if length ≤ point ∧ point ≤ 21 then
    if 0 < point - length then do
      let start ← start.memset length 48 (point - length)
      .ok (start, point)
    else .ok (start, point)
  else if 0 < point ∧ point ≤ 21 then do
    let start ← start.memmove (point + 1) point (length - point)
    let start ← start.store point 46
    .ok (start, length + 1)
  else if -6 < point ∧ point ≤ 0 then do
    let offset := 2 - point
    let start ← start.memmove offset 0 length
    let start ← start.store 0 48
    let start ← start.store 1 46
    let start ← if 0 < offset - 2 then start.memset 2 48 (offset - 2) else .ok start
    .ok (start, length + offset)
  else if length = 1 then do
    let start ← start.store 1 101
    let (start, size) ← start.writeExponent (point - 1) 2
    .ok (start, size + 2)
  else do
    let start ← start.memmove 2 1 (length - 1)
    let start ← start.store 1 46
    let start ← start.store (length + 1) 101
    let (start, size) ← start.writeExponent (point - 1) (length + 2)
    .ok (start, size + length + 2)

/-- `njs_dtoa_exp_format`. -/
def dtoaExpFormat (start : Buffer) (exponent : ℤ) (prec len : ℕ) : Result (Buffer × ℤ) := do
  let p : ℤ := len
  let (start, p) ←
    if prec ≠ 1 then do
      let start ← start.memmove 2 1 (len - 1)
      let start ← start.store 1 46
      .ok (start, p + 1)
    else .ok (start, p)
  let start ← start.memset p 48 (prec - len)
  let p := p + (prec - len)
  let start ← start.store p 101
  let p := p + 1
  let (start, size) ← start.writeExponent exponent p
  .ok (start, prec + 1 + (if prec ≠ 1 then 1 else 0) + size)

/-- `njs_dtoa_prec_format`. More zeros may be written than belong to the text. -/
def dtoaPrecFormat (start : Buffer) (prec len : ℕ) (point : ℤ) : Result (Buffer × ℤ) :=
  let exponent := point - 1
  if exponent < -6 ∨ prec ≤ exponent then start.dtoaExpFormat exponent prec len
  else if point ≤ 0 then do
    let start ← start.memmove (2 + -point) 0 len
    let start ← start.store 0 48
    let start ← start.store 1 46
    let start ← start.memset 2 48 (-point)
    let start ←
      if len < prec then start.memset (2 + -point + len) 48 (prec - len) else .ok start
    .ok (start, prec + 2 + -point)
  else do
    let start ←
      if len ≤ point then do
        let start ← start.memset len 48 (point - len)
        if point < prec then do
          let start ← start.store point 46
          start.memset (point + 1) 48 (prec - len)
        else .ok start
      else if point < prec then do
        let m : ℤ := min len point
        let rest : ℤ := min len prec - m
        let start ← start.memmove (m + 1) m rest
        let start ← start.store m 46
        start.memset (m + rest + 1) 48 (prec - m - rest)
      else .ok start
    .ok (start, prec + if point < prec then 1 else 0)

/-- The buffer has the bytes of a text from an index on. -/
def Shows (start : Buffer) (pos : ℕ) (text : List UInt8) : Prop :=
  ∀ i < text.length, start (pos + i) = text[i]?

variable {start : Buffer} {pos size : ℕ} {bytes : ℕ → Option UInt8} {c : UInt8}

theorem Shows.append (ha : start.Shows pos a) (hb : start.Shows (pos + a.length) b) :
    start.Shows pos (a ++ b) := by
  intro i hi
  rw [List.length_append] at hi
  rcases Nat.lt_or_ge i a.length with hlt | hge
  · rw [List.getElem?_append_left hlt]
    exact ha i hlt
  · obtain ⟨j, rfl⟩ := Nat.exists_eq_add_of_le hge
    rw [List.getElem?_append_right hge, Nat.add_sub_cancel_left, ← Nat.add_assoc]
    exact hb j (by omega)

theorem Shows.left (h : start.Shows pos (a ++ b)) : start.Shows pos a := fun i hi => by
  rw [h i (by rw [List.length_append]; omega), List.getElem?_append_left hi]

theorem Shows.right (h : start.Shows pos (a ++ b)) : start.Shows (pos + a.length) b :=
  fun i hi => by
    rw [Nat.add_assoc, h (a.length + i) (by rw [List.length_append]; omega),
      List.getElem?_append_right (Nat.le_add_right _ _), Nat.add_sub_cancel_left]

/-- What is written elsewhere changes nothing. -/
theorem Shows.overlay (h : start.Shows pos text) (other size : ℕ) (bytes : ℕ → Option UInt8)
    (hdisjoint : pos + text.length ≤ other ∨ other + size ≤ pos) :
    (start.overlay other size bytes).Shows pos text := fun i hi => by
  rw [Buffer.overlay, if_neg (by omega)]
  exact h i hi

/-- What is written is there. -/
theorem shows_overlay (hsize : text.length = size) (h : ∀ i < size, bytes i = text[i]?) :
    (start.overlay pos size bytes).Shows pos text := fun i hi => by
  rw [Buffer.overlay, if_pos (by omega), Nat.add_sub_cancel_left]
  exact h i (by omega)

theorem shows_byte : (start.overlay pos 1 fun _ => some c).Shows pos [c] :=
  shows_overlay rfl fun i hi => by
    obtain rfl : i = 0 := by omega
    rfl

theorem write_eq (pos size : ℕ) : start.write pos size bytes = .ok (start.overlay pos size bytes) :=
  if_pos ⟨Int.natCast_nonneg pos, Int.natCast_nonneg size⟩

theorem memmove_eq (pos source size : ℕ) : start.memmove pos source size =
    .ok (start.overlay pos size fun i => start (source + i)) := by
  rw [memmove, if_pos (Int.natCast_nonneg source), write_eq]
  rfl

/-- What is written behind a text belongs to it. -/
theorem Shows.write (h : start.Shows 0 text) {p : ℤ} (hp : p = text.length) (more : List UInt8)
    (hmore : ∀ i < more.length, bytes i = more[i]?) :
    ∃ final, start.write p more.length bytes = .ok final ∧ final.Shows 0 (text ++ more) := by
  refine ⟨_, if_pos (by omega), (h.overlay _ _ _ (by omega)).append ?_⟩
  rw [Nat.zero_add, hp]
  exact shows_overlay rfl hmore

theorem Shows.store (h : start.Shows 0 text) {p : ℤ} (hp : p = text.length) (c : UInt8) :
    ∃ final, start.store p c = .ok final ∧ final.Shows 0 (text ++ [c]) := by
  have hwrite := @Shows.write text start (fun _ => some c) h p hp [c] fun i hi => by
    obtain rfl : i = 0 := by simpa using hi
    rfl
  exact hwrite

theorem Shows.memset (h : start.Shows 0 text) {p s : ℤ} (hp : p = text.length) (hs : 0 ≤ s)
    (c : UInt8) : ∃ final, start.memset p c s = .ok final ∧
      final.Shows 0 (text ++ List.replicate s.toNat c) := by
  have hwrite := @Shows.write text start (fun _ => some c) h p hp (List.replicate s.toNat c)
    fun i hi => by
      rw [List.length_replicate] at hi
      rw [List.getElem?_replicate, if_pos hi]
  rw [List.length_replicate, Int.toNat_of_nonneg hs] at hwrite
  exact hwrite

theorem Shows.memcpy (h : start.Shows 0 text) {p : ℤ} (hp : p = text.length)
    (more : List UInt8) :
    ∃ final, start.memcpy p more = .ok final ∧ final.Shows 0 (text ++ more) :=
  h.write hp more fun _ _ => rfl

/-! ## Exponents -/

theorem decimal_of_lt (h : n < 10) : decimal n = [digitChar n] := by
  rcases Nat.eq_zero_or_pos n with rfl | hpos
  · rfl
  · rw [decimal_eq_reverse hpos, Nat.digits_of_lt 10 n hpos.ne' h]
    rfl

theorem decimal_of_ge (h : 10 ≤ n) : decimal n = decimal (n / 10) ++ [digitChar (n % 10)] := by
  rw [decimal_eq_reverse (show 0 < n by omega), decimal_eq_reverse (show 0 < n / 10 by omega),
    Nat.digits_def' (by omega) (by omega), List.map_cons, List.reverse_cons]

theorem exponentLoop_eq {p : List UInt8} (h : (decimal n).length + p.length ≤ 4) :
    exponentLoop n p = .ok (decimal n ++ p) := by
  induction n using Nat.strong_induction_on generalizing p with
  | h n ih =>
    have hpos : 0 < (decimal n).length := List.length_pos_iff.mpr (decimal_ne_nil n)
    rw [exponentLoop, if_neg (by omega)]
    split_ifs with hlast
    · rw [decimal_of_lt (by omega), Nat.mod_eq_of_lt (by omega)]
      rfl
    · have hsplit := decimal_of_ge (show 10 ≤ n by omega)
      rw [hsplit] at h ⊢
      rw [List.length_append, List.length_singleton] at h
      rw [ih (n / 10) (by omega) (by rw [List.length_cons]; omega), List.append_assoc]
      rfl

theorem exponentPart_length (e : ℤ) :
    (Ecma.exponentPart e).length = (decimal e.natAbs).length + 2 := rfl

/-- An exponent is written behind a text. -/
theorem Shows.exponent (h : start.Shows 0 text) {p : ℤ} (hp : p = text.length)
    (hlow : -1000 < e) (hhigh : e < 1000) : ∃ stored, start.store p 101 = .ok stored ∧
      ∃ final, stored.writeExponent e (p + 1) =
        .ok (final, ((Ecma.exponentPart e).length : ℤ) - 1) ∧
        final.Shows 0 (text ++ Ecma.exponentPart e) := by
  have hlength := @length_decimal_le e.natAbs 3 (by omega) (by omega)
  have hloop := @exponentLoop_eq e.natAbs [] (by rw [List.length_nil]; omega)
  have habs : (if e < 0 then -e else e).toNat = e.natAbs := by
    split_ifs
    all_goals omega
  obtain ⟨stored, hletter, hstored⟩ := h.store hp 101
  obtain ⟨signed, hsign, hsigned⟩ :=
    hstored.store (p := p + 1) (by simp [hp]) (if e < 0 then 45 else 43)
  obtain ⟨final, hcopy, hfinal⟩ := hsigned.memcpy (p := p + 1 + 1) (by simp [hp]; ring)
    (decimal e.natAbs)
  refine ⟨stored, hletter, final, ?_, ?_⟩
  · unfold writeExponent
    rw [hsign, ok_bind]
    simp only [habs]
    rw [hloop, ok_bind, List.append_nil, hcopy, ok_bind, exponentPart_length]
    push_cast
    congr 2
    ring
  · simpa [Ecma.exponentPart] using hfinal

/-! ## Moving digits -/

/-- Room for a point. -/
theorem Shows.insert (h : start.Shows 0 (a ++ b)) {p s : ℤ} (hp : p = a.length)
    (hs : s = b.length) : ∃ moved, start.memmove (p + 1) p s = .ok moved ∧
      ∃ final, moved.store p 46 = .ok final ∧ final.Shows 0 (a ++ 46 :: b) := by
  have ha := h.left
  have hb := h.right
  rw [Nat.zero_add] at hb
  subst hp hs
  rw [← Nat.cast_succ, memmove_eq]
  have hmoved : (start.overlay a.length.succ b.length fun i => start (a.length + i)).Shows
      a.length.succ b := shows_overlay rfl hb
  refine ⟨_, rfl, _, write_eq a.length 1, ?_⟩
  apply ((ha.overlay _ _ _ (by omega)).overlay _ _ _ (by omega)).append
  rw [Nat.zero_add]
  exact shows_byte.append (hmoved.overlay _ _ _ (by simp))

/-- Room for zeros and a point in front. -/
theorem Shows.lead (h : start.Shows 0 digits) {p s : ℤ} {k : ℕ} (hp : p = 2 + k)
    (hs : s = digits.length) : ∃ moved, start.memmove p 0 s = .ok moved ∧
      ∃ first, moved.store 0 48 = .ok first ∧ ∃ second, first.store 1 46 = .ok second ∧
        (k = 0 → second.Shows 0 (48 :: 46 :: digits)) ∧
        ∃ final, second.memset 2 48 k = .ok final ∧
          final.Shows 0 (48 :: 46 :: (List.replicate k 48 ++ digits)) := by
  rw [show p = (2 + k : ℕ) by omega, hs, show (0 : ℤ) = (0 : ℕ) by rfl, memmove_eq]
  have hmoved : (start.overlay (2 + k) digits.length fun i => start (0 + i)).Shows (2 + k) digits :=
    shows_overlay rfl h
  have hsecond := (hmoved.overlay 0 1 (fun _ => some 48) (by omega)).overlay 1 1 (fun _ => some 46)
    (by omega)
  have hfirst : (((start.overlay (2 + k) digits.length fun i => start (0 + i)).overlay 0 1
      fun _ => some 48).overlay 1 1 fun _ => some 46).Shows 0 ([48] ++ [46]) :=
    (shows_byte.overlay _ _ _ (.inl le_rfl)).append shows_byte
  refine ⟨_, rfl, _, write_eq 0 1, _, write_eq 1 1, ?_⟩
  generalize ((start.overlay _ _ _).overlay 0 1 _).overlay 1 1 _ = second at *
  refine ⟨?_, _, write_eq 2 k, ?_⟩
  · rintro rfl
    exact hfirst.append hsecond
  · have hzeros : (second.overlay 2 k fun _ => some 48).Shows 2 (List.replicate k 48) :=
      shows_overlay List.length_replicate fun i hi => by rw [List.getElem?_replicate, if_pos hi]
    apply (hfirst.overlay _ _ _ (.inl le_rfl)).append
    apply hzeros.append
    rw [List.length_replicate]
    exact hsecond.overlay _ _ _ (.inr le_rfl)

/-! ## The layouts -/

theorem dtoaExpFormat_spec {prec : ℕ} (h : start.Shows 0 digits) (hne : digits ≠ [])
    (hprec : digits.length ≤ prec) (hlow : -1000 < e) (hhigh : e < 1000) :
    ∃ text final, start.dtoaExpFormat e prec digits.length = .ok (final, (text.length : ℤ)) ∧
      final.Shows 0 text ∧
      text = Ecma.toExponential (digits ++ List.replicate (prec - digits.length) 48) e := by
  obtain ⟨k, rfl⟩ := Nat.exists_eq_add_of_le hprec
  have htail : ∀ (t : List UInt8) (pointed : Buffer), pointed.Shows 0 t →
      ∃ padded, pointed.memset t.length 48 k = .ok padded ∧
      ∃ stored, padded.store (t.length + k) 101 = .ok stored ∧
      ∃ final, stored.writeExponent e (t.length + k + 1) =
        .ok (final, ((Ecma.exponentPart e).length : ℤ) - 1) ∧
        final.Shows 0 (t ++ List.replicate k 48 ++ Ecma.exponentPart e) := by
    intro t pointed ht
    obtain ⟨padded, hpad, hpadded⟩ := ht.memset (p := t.length) (s := k) rfl (by omega) 48
    rw [Int.toNat_natCast] at hpadded
    obtain ⟨stored, hletter, final, hexponent, hfinal⟩ := @Shows.exponent _ _ _ hpadded
      (t.length + k) (by simp) hlow hhigh
    exact ⟨padded, hpad, stored, hletter, final, hexponent, hfinal⟩
  rw [Nat.add_sub_cancel_left]
  unfold dtoaExpFormat
  simp only
  rw [show ((digits.length + k : ℕ) : ℤ) - digits.length = k by push_cast; ring]
  split_ifs with hone
  · obtain ⟨c, rest, rfl⟩ := List.exists_cons_of_ne_nil hne
    obtain ⟨moved, hmove, pointed, hpoint, hpointed⟩ :=
      Shows.insert (a := [c]) (b := rest) h (p := 1) (s := ((c :: rest).length : ℤ) - 1) rfl
        (by simp)
    obtain ⟨padded, hpad, stored, hletter, final, hexponent, hfinal⟩ := htail _ _ hpointed
    have hlast : ((c :: rest).length : ℤ) + 1 = (([c] ++ 46 :: rest).length : ℕ) := by simp
    refine ⟨_, final, ?_, hfinal, ?_⟩
    · rw [show (2 : ℤ) = 1 + 1 by rfl, hmove, ok_bind, hpoint, ok_bind, hlast, ok_bind]
      simp only
      rw [hpad, ok_bind, hletter, ok_bind, hexponent, ok_bind]
      simp only [Except.ok.injEq, Prod.mk.injEq, true_and, List.length_append, List.length_cons,
        List.length_nil, List.length_replicate]
      push_cast
      ring
    · have hlong : (c :: rest ++ List.replicate k 48).length ≠ 1 := by
        rwa [List.length_append, List.length_replicate]
      rw [Ecma.toExponential, Ecma.mantissa, if_neg hlong]
      rfl
  · obtain ⟨padded, hpad, stored, hletter, final, hexponent, hfinal⟩ := htail _ _ h
    rw [not_not] at hone
    have hpos : 0 < digits.length := List.length_pos_iff.mpr hne
    obtain rfl : k = 0 := by omega
    refine ⟨_, final, ?_, hfinal, ?_⟩
    · rw [ok_bind]
      simp only
      rw [hpad, ok_bind, hletter, ok_bind, hexponent, ok_bind]
      simp only [Except.ok.injEq, Prod.mk.injEq, true_and, List.length_append,
        List.length_replicate]
      push_cast
      ring
    · have hshort : (digits ++ List.replicate 0 48).length = 1 := by
        rwa [List.length_append, List.length_replicate]
      rw [Ecma.toExponential, Ecma.mantissa, if_pos hshort, List.append_nil,
        List.take_of_length_le hshort.le]

/-- The layout of a number that is as short as possible. -/
theorem dtoaFormat_spec (h : start.Shows 0 digits) (hne : digits ≠ []) (hlow : -323 ≤ point)
    (hhigh : point ≤ 309) :
    ∃ text final, start.dtoaFormat digits.length point = .ok (final, (text.length : ℤ)) ∧
      final.Shows 0 text ∧ text = Ecma.numberToString digits point := by
  unfold dtoaFormat Ecma.numberToString
  simp only
  split_ifs with hwhole hpad hsplit hsmall hzeros hone
  · obtain ⟨final, hset, hfinal⟩ :=
      h.memset (p := digits.length) (s := point - digits.length) rfl hpad.le 48
    refine ⟨_, final, ?_, hfinal, rfl⟩
    rw [hset, ok_bind]
    simp
    omega
  · obtain rfl : point = digits.length := by omega
    refine ⟨digits, start, rfl, h, ?_⟩
    simp
  · have htake : (digits.take point.toNat).length = point.toNat := by
      rw [List.length_take]
      omega
    obtain ⟨moved, hmove, final, hpoint, hfinal⟩ :=
      Shows.insert (a := digits.take point.toNat) (b := digits.drop point.toNat) (p := point)
        (s := digits.length - point) (by rwa [List.take_append_drop]) (by omega)
        (by rw [List.length_drop]; omega)
    refine ⟨_, final, ?_, hfinal, rfl⟩
    rw [hmove, ok_bind, hpoint, ok_bind]
    simp
    omega
  · obtain ⟨k, hk⟩ := Int.eq_ofNat_of_zero_le (show 0 ≤ -point by omega)
    obtain ⟨moved, hmove, first, hfirst, second, hsecond, -, final, hset, hfinal⟩ :=
      h.lead (p := 2 - point) (k := k) (by omega) rfl
    refine ⟨_, final, ?_, hfinal, by rw [hk, Int.toNat_natCast]⟩
    rw [show 2 - point - 2 = k by omega, hmove, ok_bind, hfirst, ok_bind, hsecond, ok_bind, hset,
      ok_bind]
    simp
    omega
  · obtain rfl : point = 0 := by omega
    obtain ⟨moved, hmove, first, hfirst, second, hsecond, hshown, -⟩ :=
      h.lead (p := 2 - 0) (k := 0) rfl rfl
    refine ⟨_, second, ?_, hshown rfl, by simp⟩
    rw [hmove, ok_bind, hfirst, ok_bind, hsecond, ok_bind, ok_bind]
    simp
    ring
  · have hlength : digits.length = 1 := by exact_mod_cast hone
    obtain ⟨stored, hletter, final, hexponent, hfinal⟩ :=
      h.exponent (e := point - 1) (p := 1) hone.symm (by omega) (by omega)
    refine ⟨_, final, ?_, hfinal, ?_⟩
    · rw [show (2 : ℤ) = 1 + 1 by rfl, hletter, ok_bind, hexponent, ok_bind]
      simp
      omega
    · rw [Ecma.toExponential, Ecma.mantissa, if_pos hlength, List.append_nil,
        List.take_of_length_le hlength.le]
  · obtain ⟨c, rest, rfl⟩ := List.exists_cons_of_ne_nil hne
    obtain ⟨moved, hmove, pointed, hpoint, hpointed⟩ :=
      Shows.insert (a := [c]) (b := rest) h (p := 1) (s := ((c :: rest).length : ℤ) - 1) rfl
        (by simp)
    obtain ⟨stored, hletter, final, hexponent, hfinal⟩ := @Shows.exponent _ (point - 1) _ hpointed
      ((c :: rest).length + 1) (by simp) (by omega) (by omega)
    refine ⟨_, final, ?_, hfinal, ?_⟩
    · rw [show (2 : ℤ) = 1 + 1 by rfl, ← add_assoc, hmove, ok_bind, hpoint, ok_bind, hletter,
        ok_bind, hexponent, ok_bind]
      simp
      ring
    · rw [Ecma.toExponential, Ecma.mantissa, if_neg (by exact_mod_cast hone)]
      rfl

/-- The layout of a number with some significant digits. -/
theorem dtoaPrecFormat_spec {prec : ℕ} (h : start.Shows 0 digits) (hne : digits ≠ [])
    (hprec : digits.length ≤ prec) (hlow : -323 ≤ point) (hhigh : point ≤ 309) :
    ∃ text final, start.dtoaPrecFormat prec digits.length point =
        .ok (final, (text.length : ℤ)) ∧ final.Shows 0 text ∧
      text = Ecma.toPrecision (digits ++ List.replicate (prec - digits.length) 48)
        (point - 1) := by
  have hpos : 0 < digits.length := List.length_pos_iff.mpr hne
  have hlength : ((digits ++ List.replicate (prec - digits.length) 48).length : ℤ) = prec := by
    simp
    omega
  unfold dtoaPrecFormat Ecma.toPrecision
  simp only
  rw [hlength]
  by_cases hexp : point - 1 < -6 ∨ prec ≤ point - 1
  · rw [if_pos hexp, if_pos hexp]
    exact dtoaExpFormat_spec h hne hprec (by omega) (by omega)
  · rw [if_neg hexp, if_neg hexp]
    by_cases hsmall : point ≤ 0
    · obtain ⟨k, hk⟩ := Int.eq_ofNat_of_zero_le (show 0 ≤ -point by omega)
      obtain ⟨moved, hmove, first, hfirst, second, hsecond, -, padded, hset, hpadded⟩ :=
        h.lead (p := 2 + -point) (k := k) (by omega) rfl
      rw [if_pos hsmall, if_neg (by omega), if_neg (by omega), hmove, ok_bind, hfirst, ok_bind,
        hsecond, ok_bind, hk, hset, ok_bind, show (-(point - 1 + 1)).toNat = k by omega]
      split_ifs with hmore
      · obtain ⟨final, hpad, hfinal⟩ := hpadded.memset (p := 2 + k + digits.length)
          (s := prec - digits.length) (by simp; ring) (by omega) 48
        rw [show ((prec : ℤ) - digits.length).toNat = prec - digits.length by omega] at hfinal
        refine ⟨_, final, ?_, hfinal, by simp⟩
        rw [hpad, ok_bind]
        simp
        omega
      · refine ⟨_, padded, ?_, hpadded, ?_⟩
        · rw [ok_bind]
          simp
          omega
        · rw [show prec - digits.length = 0 by omega, List.replicate_zero, List.append_nil]
    · obtain ⟨k, hk⟩ := Int.eq_ofNat_of_zero_le (show 0 ≤ point by omega)
      rw [if_neg hsmall, show (point - 1 + 1).toNat = k by omega]
      by_cases hwhole : digits.length ≤ point
      · obtain ⟨filled, hset, hfilled⟩ := h.memset (p := digits.length)
          (s := point - digits.length) rfl (by omega) 48
        rw [show (point - digits.length).toNat = k - digits.length by omega] at hfilled
        rw [if_pos hwhole, hset, ok_bind]
        by_cases hinside : point < prec
        · obtain ⟨pointed, hpoint, hpointed⟩ := hfilled.store (p := point) (by simp; omega) 46
          obtain ⟨final, hpad, hfinal⟩ := hpointed.memset (p := point + 1)
            (s := prec - digits.length) (by simp; omega) (by omega) 48
          -- the zeros behind the text are as many as there are in front of the point
          rw [show ((prec : ℤ) - digits.length).toNat = prec - k + (k - digits.length) by omega,
            List.replicate_add, ← List.append_assoc] at hfinal
          have hzeros : prec - digits.length = k - digits.length + (prec - k) := by omega
          rw [if_pos hinside, if_pos hinside, if_neg (by omega), if_pos (by omega), hpoint,
            ok_bind, hpad, ok_bind]
          refine ⟨_, final, ?_, hfinal.left, ?_⟩
          · simp
            omega
          · rw [hzeros, List.replicate_add, ← List.append_assoc, List.take_left' (by simp; omega),
              List.drop_left' (by simp; omega), List.append_assoc]
            rfl
        · rw [if_neg hinside, if_neg hinside, if_pos (by omega), ok_bind]
          refine ⟨_, filled, ?_, hfilled, by rw [show k = prec by omega]⟩
          simp
          omega
      · have htake : (digits.take k).length = k := by
          rw [List.length_take]
          omega
        obtain ⟨moved, hmove, pointed, hpoint, hpointed⟩ :=
          Shows.insert (a := digits.take k) (b := digits.drop k) (p := point)
            (s := digits.length - point) (by rwa [List.take_append_drop]) (by omega)
            (by rw [List.length_drop]; omega)
        obtain ⟨final, hpad, hfinal⟩ := hpointed.memset (p := digits.length + 1)
          (s := prec - digits.length) (by simp; omega) (by omega) 48
        rw [show ((prec : ℤ) - digits.length).toNat = prec - digits.length by omega] at hfinal
        rw [if_neg hwhole, if_pos (by omega), if_pos (by omega), if_neg (by omega),
          if_pos (by omega), min_eq_right (by omega), min_eq_left hprec, hmove, ok_bind, hpoint,
          ok_bind, show point + (digits.length - point) + 1 = digits.length + 1 by ring,
          show prec - point - (digits.length - point) = (prec : ℤ) - digits.length by ring, hpad,
          ok_bind]
        refine ⟨_, final, ?_, hfinal, ?_⟩
        · simp
          omega
        · rw [List.take_append_of_le_length (by omega), List.drop_append_of_le_length (by omega),
            List.append_assoc]
          rfl

end Buffer

/-! ## Reading the text -/

/-- `njs_strtod` reads all of a text, as a number. -/
def Denotes (text : List UInt8) (q : ℚ) : Prop :=
  ∃ literal, strtod text = .ok (some literal) ∧ literal.rest = [] ∧
    digitsValue literal.digits * 10 ^ literal.exponent = q

/-- The digits in front of an exponent, from the first one other than zero on. -/
def significantDigits (text : List UInt8) : List UInt8 :=
  ((text.takeWhile (· ≠ 101)).filter isDigit).dropWhile (· = 48)

/-- A literal that is not too long is read exactly. -/
theorem denotes_numeral {m : Numeral} (h : m.Scanned) (hlength : (digitsOf m).length ≤ 128)
    (hlow : -1000 ≤ exactExponent m.exponent) (hhigh : exactExponent m.exponent ≤ 1000) :
    Denotes m.text (value m) := by
  have hread : ExponentRead m := by
    intro e sign digits hsome
    rw [hsome, exactExponent] at hlow hhigh
    split_ifs at hlow hhigh
    all_goals omega
  have hvalue := (exponentValue_eq_iff h).mpr hread
  have hscan := (strtod_longest (isLongest_nil h) (exponentValue_lt h)).1
  rw [List.append_nil] at hscan
  rw [digitsOf, List.length_append] at hlength
  have hwhole : m.whole.take 128 = m.whole := List.take_of_length_le (by omega)
  have hfraction : (m.fraction.getD []).take (128 - m.whole.length) = m.fraction.getD [] :=
    List.take_of_length_le (by omega)
  have hkept : m.kept = digitsOf m := by rw [Numeral.kept, hwhole, hfraction, digitsOf]
  have hpower : m.power = exactExponent m.exponent - (m.fraction.getD []).length := by
    rw [Numeral.power, hwhole, hfraction, hvalue, Nat.sub_self]
    push_cast
    ring
  have hfits : SumsFit m := by
    unfold SumsFit keptFraction
    rw [hvalue]
    refine ⟨by omega, by omega, by omega⟩
  refine ⟨_, hscan hfits, rfl, ?_⟩
  rw [hkept, hpower]
  rfl

theorem denotes_whole (hne : digits ≠ []) (hdigits : ∀ c ∈ digits, isDigit c = true)
    (hlength : digits.length ≤ 128) : Denotes digits (digitsValue digits) := by
  have hscan := @denotes_numeral ⟨digits, none, none⟩
    ⟨hdigits, nofun, nofun, by simpa using hne⟩ (by simpa [digitsOf] using hlength)
    (by simp [exactExponent]) (by simp [exactExponent])
  simpa [Numeral.text, fractionText, exponentText, value, digitsOf, exactExponent] using hscan

theorem denotes_split (hne : a ++ b ≠ []) (hdigits : ∀ c ∈ a ++ b, isDigit c = true)
    (hlength : (a ++ b).length ≤ 128) :
    Denotes (a ++ 46 :: b) (digitsValue (a ++ b) * 10 ^ (-(b.length : ℤ))) := by
  have hfraction : ∀ digits ∈ some b, ∀ c ∈ digits, isDigit c = true := by
    rintro digits hsome c hc
    rw [← Option.some.inj hsome] at hc
    exact hdigits c (List.mem_append_right a hc)
  have hscan := @denotes_numeral ⟨a, some b, none⟩
    ⟨fun c hc => hdigits c (List.mem_append_left b hc), hfraction, nofun, hne⟩ hlength
    (by simp [exactExponent]) (by simp [exactExponent])
  simpa [Numeral.text, fractionText, exponentText, value, digitsOf, exactExponent] using hscan

theorem denotes_exponential (hne : digits ≠ []) (hdigits : ∀ c ∈ digits, isDigit c = true)
    (hlength : digits.length ≤ 128) (hlow : -1000 ≤ e) (hhigh : e ≤ 1000) :
    Denotes (Ecma.toExponential digits e) (digitsValue digits * 10 ^ (e + 1 - digits.length)) := by
  obtain ⟨c, rest, rfl⟩ := List.exists_cons_of_ne_nil hne
  generalize hsign : (if e < 0 then 45 else 43 : UInt8) = sign
  have hexact : exactExponent (some (101, some sign, decimal e.natAbs)) = e := by
    rw [exactExponent, digitsValue_decimal, ← hsign]
    rcases lt_or_ge e 0 with hneg | hge
    · rw [if_pos hneg, if_pos rfl]
      omega
    · rw [if_neg (not_lt.mpr hge), if_neg (by decide)]
      omega
  have hexponent : ∀ exponent ∈ some ((101 : UInt8), some sign, decimal e.natAbs),
      isExponent exponent := by
    intro exponent hsome
    rw [← Option.some.inj hsome]
    refine ⟨.inl rfl, fun s hs => ?_, decimal_ne_nil _, decimal_isDigit _⟩
    rw [← Option.some.inj hs, ← hsign]
    split_ifs
    · exact .inl rfl
    · exact .inr rfl
  have hwhole : ∀ d ∈ [c], isDigit d = true := fun d hd => by
    rw [List.mem_singleton.mp hd]
    exact hdigits c List.mem_cons_self
  rw [← hexact] at hlow hhigh
  unfold Ecma.toExponential Ecma.mantissa Ecma.exponentPart
  rw [hsign]
  cases rest with
  | nil =>
    have hscan := @denotes_numeral ⟨[c], none, some (101, some sign, decimal e.natAbs)⟩
      ⟨hwhole, by simp, hexponent, by simp⟩ hlength hlow hhigh
    rw [value, hexact] at hscan
    simpa [Numeral.text, fractionText, exponentText, digitsOf] using hscan
  | cons d rest =>
    have hfraction : ∀ digits ∈ some (d :: rest), ∀ c ∈ digits, isDigit c = true := by
      rintro digits hsome c hc
      rw [← Option.some.inj hsome] at hc
      exact hdigits c (List.mem_cons_of_mem _ hc)
    have hscan := @denotes_numeral ⟨[c], some (d :: rest), some (101, some sign, decimal e.natAbs)⟩
      ⟨hwhole, hfraction, hexponent, by simp⟩ hlength hlow hhigh
    rw [value, hexact] at hscan
    have hpower : e + 1 - (c :: d :: rest).length = e - (d :: rest).length := by
      rw [List.length_cons (a := c)]
      push_cast
      ring
    rw [hpower]
    simpa [Numeral.text, fractionText, exponentText, digitsOf] using hscan

/-! ## The same number -/

theorem digitsValue_lead (k : ℕ) (digits : List UInt8) :
    digitsValue (List.replicate k 48 ++ digits) = digitsValue digits := by
  rw [digitsValue_append, (isDigits_zeros k).value, Nat.zero_mul, Nat.zero_add]

/-- Zeros behind the digits do not change the number. -/
theorem pointValue_zeros (k : ℕ) :
    pointValue (digits ++ List.replicate k 48, point) = pointValue (digits, point) := by
  unfold pointValue
  simp only
  rw [digitsValue_append, (isDigits_zeros k).value, List.length_append, List.length_replicate,
    Nat.add_zero, Nat.cast_mul, Nat.cast_pow, Nat.cast_ofNat, mul_assoc, ← zpow_natCast,
    ← zpow_add₀ (by norm_num)]
  congr 2
  push_cast
  ring

theorem denotes_small {k : ℕ} (hdigits : ∀ c ∈ digits, isDigit c = true)
    (hlength : digits.length ≤ 100) (hk : k ≤ 20) (hpoint : -point = k) :
    Denotes (48 :: 46 :: (List.replicate k 48 ++ digits)) (pointValue (digits, point)) := by
  have hzeros := (isDigits_zeros (k + 1)).append ⟨hdigits, rfl⟩
  have hsplit : [48] ++ (List.replicate k 48 ++ digits) = List.replicate (k + 1) 48 ++ digits := rfl
  have hscan := @denotes_split [48] (List.replicate k 48 ++ digits) (by simp)
    (by rw [hsplit]; exact hzeros.digits) (by simp; omega)
  rw [hsplit, digitsValue_lead] at hscan
  have hpower : point - digits.length = -((List.replicate k 48 ++ digits).length : ℤ) := by
    rw [List.length_append, List.length_replicate]
    omega
  unfold pointValue
  simp only
  rw [hpower]
  exact hscan

theorem denotes_inside {k : ℕ} (hdigits : ∀ c ∈ digits, isDigit c = true) (hne : digits ≠ [])
    (hlength : digits.length ≤ 100) (hk : k ≤ digits.length) (hpoint : point = k) :
    Denotes (digits.take k ++ 46 :: digits.drop k) (pointValue (digits, point)) := by
  have hscan := @denotes_split (digits.take k) (digits.drop k) (by rwa [List.take_append_drop])
    (by rwa [List.take_append_drop]) (by rw [List.take_append_drop]; omega)
  have hpower : point - digits.length = -((digits.drop k).length : ℤ) := by
    rw [List.length_drop]
    omega
  rw [List.take_append_drop] at hscan
  unfold pointValue
  simp only
  rw [hpower]
  exact hscan

theorem denotes_toExponential (hdigits : ∀ c ∈ digits, isDigit c = true) (hne : digits ≠ [])
    (hlength : digits.length ≤ 100) (hlow : -323 ≤ point) (hhigh : point ≤ 309) :
    Denotes (Ecma.toExponential digits (point - 1)) (pointValue (digits, point)) := by
  have hscan := @denotes_exponential digits (point - 1) hne hdigits (by omega) (by omega)
    (by omega)
  rwa [Int.sub_add_cancel] at hscan

theorem denotes_numberToString (hdigits : ∀ c ∈ digits, isDigit c = true) (hne : digits ≠ [])
    (hlength : digits.length ≤ 17) (hlow : -323 ≤ point) (hhigh : point ≤ 309) :
    Denotes (Ecma.numberToString digits point) (pointValue (digits, point)) := by
  unfold Ecma.numberToString
  split_ifs with hwhole hinside hsmall
  · have hall := (⟨hdigits, rfl⟩ : IsDigits digits _).append
      (isDigits_zeros (point - digits.length).toNat)
    rw [pointValue_of_le hwhole.1]
    exact denotes_whole (by simp [hne]) hall.digits (by simp; omega)
  · exact denotes_inside hdigits hne (by omega) (by omega) (by omega)
  · exact denotes_small hdigits (by omega) (by omega) (by omega)
  · exact denotes_toExponential hdigits hne (by omega) hlow hhigh

theorem denotes_toPrecision (hdigits : ∀ c ∈ digits, isDigit c = true) (hne : digits ≠ [])
    (hlength : digits.length ≤ 100) (hlow : -323 ≤ point) (hhigh : point ≤ 309) :
    Denotes (Ecma.toPrecision digits (point - 1)) (pointValue (digits, point)) := by
  unfold Ecma.toPrecision
  split_ifs with hexp hwhole hinside
  · exact denotes_toExponential hdigits hne hlength hlow hhigh
  · have hpoint : (digits.length : ℤ) ≤ point := by omega
    have hscan := denotes_whole hne hdigits (by omega)
    rwa [pointValue_of_le hpoint, show (point - digits.length).toNat = 0 by omega,
      List.replicate_zero, List.append_nil]
  · exact denotes_inside hdigits hne hlength (by omega) (by omega)
  · exact denotes_small hdigits hlength (by omega) (by omega)

/-! ## Significant digits -/

/-- Zeros may stand in front of the significant digits. -/
theorem significantDigits_eq {t u : List UInt8} {k : ℕ} (ht : 101 ∉ t)
    (hu : u = [] ∨ u.head? = some 101) (hdigits : t.filter isDigit = List.replicate k 48 ++ digits)
    (hhead : digits.head? ≠ some 48) : significantDigits (t ++ u) = digits := by
  have htake : (t ++ u).takeWhile (· ≠ 101) = t := by
    rw [List.takeWhile_append_of_pos (by
      intro c hc
      simpa using ne_of_mem_of_not_mem hc ht)]
    rcases hu with rfl | hu
    · simp
    · cases u with
      | nil => simp
      | cons c u =>
        obtain rfl : c = 101 := by simpa using hu
        simp
  have hdrop : digits.dropWhile (· = 48) = digits := by
    cases digits with
    | nil => rfl
    | cons c digits =>
      apply List.dropWhile_cons_of_neg
      simpa using hhead
  rw [significantDigits, htake, hdigits,
    List.dropWhile_append_of_pos fun c hc => by simp [List.eq_of_mem_replicate hc], hdrop]

/-- A point among the digits is passed over. -/
theorem filter_inside (hdigits : ∀ c ∈ digits, isDigit c = true) (k : ℕ) :
    101 ∉ digits.take k ++ 46 :: digits.drop k ∧
      (digits.take k ++ 46 :: digits.drop k).filter isDigit = digits := by
  have hleft : ∀ c ∈ digits.take k, isDigit c = true := fun c hc =>
    hdigits c (List.mem_of_mem_take hc)
  have hright : ∀ c ∈ digits.drop k, isDigit c = true := fun c hc =>
    hdigits c (List.mem_of_mem_drop hc)
  constructor
  · intro hmem
    rcases List.mem_append.mp hmem with hmem | hmem
    · exact absurd (hleft _ hmem) (by decide)
    · rcases List.mem_cons.mp hmem with heq | hmem
      · exact absurd heq (by decide)
      · exact absurd (hright _ hmem) (by decide)
  · rw [List.filter_append, List.filter_cons_of_neg (by decide), List.filter_eq_self.mpr hleft,
      List.filter_eq_self.mpr hright, List.take_append_drop]

theorem significantDigits_toExponential (hdigits : ∀ c ∈ digits, isDigit c = true)
    (hhead : digits.head? ≠ some 48) (e : ℤ) :
    significantDigits (Ecma.toExponential digits e) = digits := by
  unfold Ecma.toExponential Ecma.mantissa
  split_ifs with hone
  · have hnot : 101 ∉ digits.take 1 ++ [] := fun hmem =>
      absurd (hdigits _ (List.mem_of_mem_take (by simpa using hmem))) (by decide)
    apply significantDigits_eq (k := 0) hnot (.inr rfl) _ hhead
    rw [List.append_nil, List.take_of_length_le hone.le, List.filter_eq_self.mpr hdigits]
    rfl
  · obtain ⟨hnot, hfilter⟩ := filter_inside hdigits 1
    exact significantDigits_eq (k := 0) hnot (.inr rfl) hfilter hhead

theorem significantDigits_toPrecision (hdigits : ∀ c ∈ digits, isDigit c = true)
    (hhead : digits.head? ≠ some 48) (e : ℤ) :
    significantDigits (Ecma.toPrecision digits e) = digits := by
  unfold Ecma.toPrecision
  split_ifs with hexp hwhole hinside
  · exact significantDigits_toExponential hdigits hhead e
  · have hnot : 101 ∉ digits := fun hmem => absurd (hdigits _ hmem) (by decide)
    have hsame := significantDigits_eq (k := 0) (u := []) hnot (.inl rfl)
      (List.filter_eq_self.mpr hdigits) hhead
    rwa [List.append_nil] at hsame
  · obtain ⟨hnot, hfilter⟩ := filter_inside hdigits (e + 1).toNat
    have hsame := significantDigits_eq (k := 0) (u := []) hnot (.inl rfl) hfilter hhead
    rwa [List.append_nil] at hsame
  · have hzeros := (isDigits_zeros ((-(e + 1)).toNat + 1)).append ⟨hdigits, rfl⟩
    obtain ⟨hnot, hfilter⟩ := filter_inside hzeros.digits 1
    have hsame := significantDigits_eq (u := []) hnot (.inl rfl) hfilter hhead
    rwa [List.append_nil] at hsame

/-! ## All layouts -/

/-- The buffer has a text of the length that is returned, and the text is read as the number. -/
def Leaves (run : Result (Buffer × ℤ)) (text : List UInt8) (q : ℚ) : Prop :=
  ∃ final : Buffer, run = .ok (final, (text.length : ℤ)) ∧ final.Shows 0 text ∧ Denotes text q

/-- The layouts are the notations of ECMAScript, and are read as the number. -/
theorem layouts_denote (start : Buffer) (hshows : start.Shows 0 digits)
    (hdigits : ∀ c ∈ digits, isDigit c = true) (hpos : 1 ≤ digits.length)
    (hmax : digits.length ≤ 17) (hhead : digits.head? ≠ some 48) (hlow : -323 ≤ point)
    (hhigh : point ≤ 309) :
    Leaves (start.dtoaFormat digits.length point) (Ecma.numberToString digits point)
        (pointValue (digits, point)) ∧
      ∀ prec, digits.length ≤ prec → prec ≤ 100 → ∃ padded : List UInt8, padded.length = prec ∧
        Leaves (start.dtoaPrecFormat prec digits.length point)
          (Ecma.toPrecision padded (point - 1)) (pointValue (digits, point)) ∧
        significantDigits (Ecma.toPrecision padded (point - 1)) = padded ∧
        Leaves (start.dtoaExpFormat (point - 1) prec digits.length)
          (Ecma.toExponential padded (point - 1)) (pointValue (digits, point)) ∧
        significantDigits (Ecma.toExponential padded (point - 1)) = padded := by
  have hne : digits ≠ [] := List.length_pos_iff.mp hpos
  refine ⟨?_, fun prec hprec hhundred => ?_⟩
  · obtain ⟨text, final, hrun, hfinal, rfl⟩ := Buffer.dtoaFormat_spec hshows hne hlow hhigh
    exact ⟨final, hrun, hfinal, denotes_numberToString hdigits hne hmax hlow hhigh⟩
  · obtain ⟨k, rfl⟩ := Nat.exists_eq_add_of_le hprec
    have hall := ((⟨hdigits, rfl⟩ : IsDigits digits _).append (isDigits_zeros k)).digits
    have hne' : digits ++ List.replicate k 48 ≠ [] := by simp [hne]
    have hlength : (digits ++ List.replicate k 48).length = digits.length + k := by simp
    have hhead' : (digits ++ List.replicate k 48).head? ≠ some 48 := by
      rwa [List.head?_append_of_ne_nil _ hne]
    have hprecision := denotes_toPrecision hall hne' (by omega) hlow hhigh
    have hexponential := denotes_toExponential hall hne' (by omega) hlow hhigh
    rw [pointValue_zeros] at hprecision hexponential
    obtain ⟨text, final, hrun, hfinal, htext⟩ :=
      Buffer.dtoaPrecFormat_spec hshows hne hprec hlow hhigh
    obtain ⟨text', final', hrun', hfinal', htext'⟩ :=
      Buffer.dtoaExpFormat_spec (e := point - 1) hshows hne hprec (by omega) (by omega)
    rw [Nat.add_sub_cancel_left] at htext htext'
    subst htext htext'
    exact ⟨_, hlength, ⟨final, hrun, hfinal, hprecision⟩,
      significantDigits_toPrecision hall hhead' _, ⟨final', hrun', hfinal', hexponential⟩,
      significantDigits_toExponential hall hhead' _⟩

/-- The digits of 1.25 in a buffer without other bytes. -/
theorem layouts_denote_quarter :
    Leaves (Buffer.dtoaFormat ([49, 50, 53][·]?) 3 1) (Ecma.numberToString [49, 50, 53] 1)
        (pointValue ([49, 50, 53], 1)) ∧
      ∀ prec, 3 ≤ prec → prec ≤ 100 → ∃ padded : List UInt8, padded.length = prec ∧
        Leaves (Buffer.dtoaPrecFormat ([49, 50, 53][·]?) prec 3 1)
          (Ecma.toPrecision padded 0) (pointValue ([49, 50, 53], 1)) ∧
        significantDigits (Ecma.toPrecision padded 0) = padded ∧
        Leaves (Buffer.dtoaExpFormat ([49, 50, 53][·]?) 0 prec 3)
          (Ecma.toExponential padded 0) (pointValue ([49, 50, 53], 1)) ∧
        significantDigits (Ecma.toExponential padded 0) = padded :=
  @layouts_denote [49, 50, 53] 1 ([49, 50, 53][·]?) (fun i _ => by rw [Nat.zero_add])
    (List.all_eq_true.mp rfl) (by decide) (by decide) (by decide) (by decide) (by decide)

theorem writeExponent_eq (e : ℤ) : 101 :: writeExponent e = Ecma.exponentPart e := by
  unfold writeExponent Ecma.exponentPart
  split_ifs with hneg
  · rw [show (-e).toNat = e.natAbs by omega]
  · rw [show e.toNat = e.natAbs by omega]

/-- What `njs_number_to_string` writes is the layout in the buffer. -/
theorem dtoaFormat_eq_numberToString (digits : List UInt8) (point : ℤ) :
    dtoaFormat digits point = Ecma.numberToString digits point := by
  unfold dtoaFormat Ecma.numberToString Ecma.toExponential Ecma.mantissa
  rw [writeExponent_eq]
  split_ifs with hwhole hinside hsmall hone
  · rfl
  · rfl
  · rfl
  · rw [List.append_nil, List.take_of_length_le hone.le]
  · rw [List.append_assoc]

end Njs.Decimal
