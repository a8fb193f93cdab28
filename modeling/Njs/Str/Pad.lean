import Njs.Str.Slice
import Njs.Lib.Repetition

/-!
# Padding

`padStart` and `padEnd`. The padding is counted in characters, and its bytes are made of whole
copies of the pad string and the first characters of one more.
-/

namespace Njs.Str

/-- The value `string_space`. -/
def spaceString : StringProp := ⟨[0x20], 1⟩

/-- The loop of `njs_string_prototype_pad` over the copies of the pad string. -/
def padCopies (start : List UInt8) : ℕ → List UInt8
  | 0 => []
  | n + 1 => start ++ padCopies start n

/-- The number of bytes of the first `trunc` characters of the pad string. -/
def padTrunc (pad : StringProp) (cells : List ℕ) (trunc : ℕ) : Result ℕ :=
  if pad.size ≠ pad.chars then do
    -- UTF-8 string.
    let stop ← stringOffset pad cells trunc
    .ok stop.1
  else .ok trunc

/-- The bytes that `njs_string_prototype_pad` adds for a number of characters. -/
def padBytes (pad : StringProp) (cells : List ℕ) (padding : ℕ) : Result (List UInt8) :=
  if pad.size > 1 then do
    let trunc ← padTrunc pad cells (padding % pad.chars)
    .ok (padCopies pad.start (padding / pad.chars) ++ pad.start.take trunc)
  else .ok (List.replicate padding (pad.start.headD 0))

/-- `njs_string_prototype_pad`. -/
def prototypePad (env : Env) (this : StringValue) (target : Option Number)
    (pad : Option StringProp) (cells : List ℕ) (padStart : Bool) : Result StringValue :=
  let string := this.prop
  let newLength := target.elim 0 numberToInteger
  if newLength ≤ string.chars then .ok this
  else if newLength ≥ maxLength then .error (.throw (.rangeError ""))
  else
    let pad := pad.getD spaceString
    if pad.size = 0 then .ok this
    else do
      let padding ← padBytes pad cells (newLength - string.chars).toNat
      let v ← stringAlloc env (string.size + padding.length) newLength.toNat
      v.fill (if padStart then padding ++ string.start else string.start ++ padding)

/-- `njs_string_prototype_pad_start`. -/
def prototypePadStart (env : Env) (this : StringValue) (target : Option Number)
    (pad : Option StringProp) (cells : List ℕ) : Result StringValue :=
  prototypePad env this target pad cells true

/-- `njs_string_prototype_pad_end`. -/
def prototypePadEnd (env : Env) (this : StringValue) (target : Option Number)
    (pad : Option StringProp) (cells : List ℕ) : Result StringValue :=
  prototypePad env this target pad cells false

end Njs.Str

/-!
## What padding returns

The bytes are those of the string and of the repeated pad string, for any two strings. The
length field is the target length, which is wrong where one of the two is a byte string.
-/

namespace Njs.Str

open Utf8 Lib

/-- The number of characters that are missing up to the length that a number stands for. An
infinite number stands for no length. -/
def padCount (target : Number) (length : ℕ) : ℕ :=
  match target with
  | .finite q => (Njs.truncate q).toNat - length
  | _ => 0

/-- A string before or after another. -/
def join {α : Type} (padStart : Bool) (padding string : List α) : List α :=
  if padStart then padding ++ string else string ++ padding

/-- A string with so many characters of the repeated pad string. With a byte string in it, the
result is a byte string. -/
def padded (s pad : Subject) (count : ℕ) (padStart : Bool) : Subject :=
  if count = 0 ∨ pad.chars = [] then s
  else match s, pad with
    | .text us, .text vs => .text (join padStart (repeated vs count) us)
    | s, pad => .bytes (join padStart (repeated pad.chars count).flatten s.prop.start)

/-- The range error for a target length. -/
def PadThrows (s pad : Subject) (target : Number) : Prop :=
  (s.chars.length : ℤ) < numberToInteger target ∧
    (maxLength ≤ numberToInteger target ∨
      maxLength < s.prop.size + (repeated pad.chars
        ((numberToInteger target).toNat - s.chars.length)).flatten.length)

/-- Unless a range error is thrown, the result is the padded string, whatever the state of the
offset map of the pad string. -/
def PadHolds (s pad : Subject) (target : Number) (padStart : Bool) : Prop :=
  ∀ env cells this, InMemory pad cells → this.prop = s.prop →
    (∃ message, prototypePad env this (some target) (some pad.prop) cells padStart =
      .error (.throw (.rangeError message))) ∨
    Returns env (prototypePad env this (some target) (some pad.prop) cells padStart)
      (fun v => v.prop = (padded s pad (padCount target s.chars.length) padStart).prop)

/-- A range error is thrown, or the pad string is empty, or the target length is converted to
what it stands for and, where there is something to be padded, both strings are texts. -/
def PadSafe (s pad : Subject) (target : Number) : Prop :=
  PadThrows s pad target ∨ pad.chars = [] ∨
    ((numberToInteger target).toNat - s.chars.length = padCount target s.chars.length ∧
      (padCount target s.chars.length = 0 ∨ ∃ us vs, s = .text us ∧ pad = .text vs))

/-! ### The bytes -/

theorem padCopies_eq (start : List UInt8) (n : ℕ) :
    padCopies start n = (List.replicate n start).flatten := by
  induction n with
  | zero => rfl
  | succ n ih => rw [padCopies, ih, List.replicate_succ, List.flatten_cons]

section Pad

variable {s pad : Subject} {cells : List ℕ}

theorem padTrunc_spec (hmem : InMemory pad cells) {t : ℕ} (ht : t < pad.chars.length) :
    padTrunc pad.prop cells t = .ok (pad.offset t) := by
  unfold padTrunc
  by_cases hs : pad.prop.size = pad.prop.chars
  · rw [if_neg (not_not.mpr hs), Subject.offset_eq_self hs (Nat.le_of_lt ht)]
  · obtain ⟨cells', hoffset⟩ := stringOffset_of_lt hs hmem (Nat.le_of_lt ht) (.inl ht)
    rw [if_pos hs, hoffset]
    rfl

/-- The bytes of the padding are those of the repeated pad string. -/
theorem padBytes_spec (hpad : pad.chars ≠ []) (hmem : InMemory pad cells) (k : ℕ) :
    padBytes pad.prop cells k = .ok (repeated pad.chars k).flatten := by
  have hpos := List.length_pos_of_ne_nil hpad
  have hlt := Nat.mod_lt k hpos
  have hk : k = k / pad.chars.length * pad.chars.length + k % pad.chars.length :=
    (Nat.div_add_mod' k _).symm
  have hsplit := repeated_mul_add (n := k / pad.chars.length) hpad hlt
  rw [← hk] at hsplit
  have hbytes : (repeated pad.chars k).flatten =
      padCopies pad.prop.start (k / pad.chars.length) ++
        pad.prop.start.take (pad.offset (k % pad.chars.length)) := by
    rw [hsplit, List.flatten_append, padCopies_eq, ← pad.chars_flatten]
    have htake := Segments.take_offset pad.chars (k % pad.chars.length)
    rw [Subject.offset, htake, List.flatten_flatten]
    simp
  unfold padBytes
  split_ifs with hsize
  · rw [pad.prop_chars, padTrunc_spec hmem hlt]
    simp only [bind, Except.bind]
    rw [hbytes]
  · have hle := pad.length_le_size
    have hone : pad.chars.length = 1 := by omega
    obtain ⟨b, hb⟩ := List.length_eq_one_iff.mp (show pad.prop.start.length = 1 by
      simp only [StringProp.size] at hsize hle
      omega)
    have hzero : pad.offset 0 = 0 := Segments.offset_zero _
    rw [hbytes, hone, Nat.div_one, Nat.mod_one, hzero, List.take_zero, List.append_nil,
      padCopies_eq, hb]
    simp

/-- There are at least as many bytes as characters. -/
theorem length_le_flatten {l : List (List UInt8)} (hl : ∀ c ∈ l, c ≠ []) :
    l.length ≤ l.flatten.length := by
  have hle := Segments.le_offset hl (Nat.le_refl l.length)
  rwa [Segments.offset_length] at hle

theorem repeated_ne_nil (pad : Subject) (k : ℕ) : ∀ c ∈ repeated pad.chars k, c ≠ [] :=
  fun c hc => pad.chars_ne_nil c (mem_of_mem_repeated hc)

theorem le_repeated_flatten (hpad : pad.chars ≠ []) (k : ℕ) :
    k ≤ (repeated pad.chars k).flatten.length := by
  have hle := length_le_flatten (repeated_ne_nil pad k)
  rwa [repeated_length hpad] at hle

/-- More characters have more bytes. -/
theorem repeated_flatten_lt (hpad : pad.chars ≠ []) {k m : ℕ} (hkm : k < m) :
    (repeated pad.chars k).flatten.length < (repeated pad.chars m).flatten.length := by
  obtain ⟨rest, heq, hrest⟩ := repeated_append hpad (Nat.le_of_lt hkm)
  have hle := length_le_flatten (l := rest) fun c hc =>
    repeated_ne_nil pad m c (heq ▸ List.mem_append_right _ hc)
  rw [heq, List.flatten_append, List.length_append]
  omega

theorem join_length {α : Type} (padStart : Bool) (padding string : List α) :
    (join padStart padding string).length = string.length + padding.length := by
  cases padStart
  · exact List.length_append
  · exact List.length_append.trans (Nat.add_comm _ _)

theorem encodeAll_join (padStart : Bool) (vs us : List CodePoint) :
    code.encodeAll (join padStart vs us) =
      join padStart (code.encodeAll vs) (code.encodeAll us) := by
  cases padStart
  · exact code.encodeAll_append us vs
  · exact code.encodeAll_append vs us

theorem repeated_text_flatten (vs : List CodePoint) (k : ℕ) :
    (repeated (Subject.text vs).chars k).flatten = code.encodeAll (repeated vs k) := by
  rw [← textChars_flatten, textChars, ← repeated_map]
  rfl

/-- The bytes of the padded string. -/
theorem padded_start (s pad : Subject) (k : ℕ) (padStart : Bool) :
    (padded s pad k padStart).prop.start =
      join padStart (repeated pad.chars k).flatten s.prop.start := by
  unfold padded
  split_ifs with hnone
  · have hempty : repeated pad.chars k = [] := by
      rcases hnone with rfl | hpad
      · rfl
      · rw [hpad, repeated_nil]
    rw [hempty]
    cases padStart
    · exact (List.append_nil _).symm
    · rfl
  · cases s with
    | bytes bs => rfl
    | text us =>
      cases pad with
      | bytes cs => rfl
      | text vs => exact (encodeAll_join _ _ _).trans (by rw [repeated_text_flatten]; rfl)

/-- The length field of a padded text. -/
theorem padded_text_length (us vs : List CodePoint) {k : ℕ} (hk : k ≠ 0) (hvs : vs ≠ [])
    (padStart : Bool) :
    (padded (.text us) (.text vs) k padStart).prop.length = us.length + k := by
  have hchars : (Subject.text vs).chars ≠ [] := by simpa [Subject.chars, textChars] using hvs
  rw [padded, if_neg (by simp [hk, hchars])]
  change (join padStart (repeated vs k) us).length = _
  rw [join_length, repeated_length hvs]

/-- The length field of any other padded string. -/
theorem padded_other_length {k : ℕ} (hk : k ≠ 0) (hpad : pad.chars ≠ [])
    (hkind : ¬ ∃ us vs, s = .text us ∧ pad = .text vs) {padStart : Bool} :
    (padded s pad k padStart).prop.length = 0 := by
  unfold padded
  rw [if_neg (by simp [hk, hpad])]
  cases s with
  | bytes bs => rfl
  | text us =>
    cases pad with
    | bytes cs => rfl
    | text vs => exact absurd ⟨us, vs, rfl, rfl⟩ hkind

end Pad

/-! ### The cases of the source -/

section Cases

variable {s pad : Subject} {cells : List ℕ} {env : Env} {this : StringValue} {target : Number}
  {padStart : Bool}

theorem prototypePad_same (hthis : this.prop = s.prop)
    (hle : numberToInteger target ≤ s.chars.length) :
    prototypePad env this (some target) (some pad.prop) cells padStart = .ok this := by
  unfold prototypePad
  simp only [hthis, s.prop_chars, Option.elim]
  rw [if_pos hle]

theorem prototypePad_range (hthis : this.prop = s.prop)
    (hlt : s.chars.length < numberToInteger target) (hmax : maxLength ≤ numberToInteger target) :
    prototypePad env this (some target) (some pad.prop) cells padStart =
      .error (.throw (.rangeError "")) := by
  unfold prototypePad
  simp only [hthis, s.prop_chars, Option.elim]
  rw [if_neg (by omega), if_pos hmax]

theorem prototypePad_nil (hpad : pad.chars = [])
    (hmax : numberToInteger target < maxLength) :
    prototypePad env this (some target) (some pad.prop) cells padStart = .ok this := by
  have hsize : pad.prop.size = 0 := by
    rw [StringProp.size, pad.start_eq_nil_iff.mpr hpad, List.length_nil]
  unfold prototypePad
  simp only [Option.getD_some, hsize, Option.elim]
  split_ifs
  · rfl
  · omega
  · rfl

/-- Where characters are added, they are allocated with the target length. -/
theorem prototypePad_alloc (hthis : this.prop = s.prop) (hpad : pad.chars ≠ [])
    (hmem : InMemory pad cells) (hlt : s.chars.length < numberToInteger target)
    (hmax : numberToInteger target < maxLength) :
    let padding := (repeated pad.chars
      ((numberToInteger target).toNat - s.chars.length)).flatten
    prototypePad env this (some target) (some pad.prop) cells padStart =
      (stringAlloc env (s.prop.size + padding.length) (numberToInteger target).toNat >>=
        fun v => v.fill (join padStart padding s.prop.start)) := by
  have hpos := size_pos hpad
  have hcount : (numberToInteger target - s.chars.length).toNat =
      (numberToInteger target).toNat - s.chars.length := by omega
  unfold prototypePad
  simp only [hthis, s.prop_chars, Option.getD_some, Option.elim]
  rw [if_neg (by omega), if_neg (by omega), if_neg (by omega), hcount, padBytes_spec hpad hmem]
  rfl

theorem prototypePad_spec (hthis : this.prop = s.prop) (hpad : pad.chars ≠ [])
    (hmem : InMemory pad cells) (hlt : s.chars.length < numberToInteger target)
    (hmax : numberToInteger target < maxLength)
    (hsize : s.prop.size + (repeated pad.chars
      ((numberToInteger target).toNat - s.chars.length)).flatten.length ≤ maxLength) :
    Returns env (prototypePad env this (some target) (some pad.prop) cells padStart)
      (fun v => v.prop = ⟨join padStart (repeated pad.chars
        ((numberToInteger target).toNat - s.chars.length)).flatten s.prop.start,
        (numberToInteger target).toNat⟩) := by
  rw [prototypePad_alloc hthis hpad hmem hlt hmax]
  set padding := (repeated pad.chars ((numberToInteger target).toNat - s.chars.length)).flatten
    with hpadding
  have hlen := join_length padStart padding s.prop.start
  have hle : (numberToInteger target).toNat ≤ (join padStart padding s.prop.start).length := by
    have hchars := s.length_le_size
    have hadd := le_repeated_flatten hpad ((numberToInteger target).toNat - s.chars.length)
    rw [← hpadding] at hadd
    rw [hlen]
    simp only [StringProp.size] at hchars
    omega
  have hspec := stringNew_spec env (by rw [hlen]; exact hsize) hle
  rw [stringNew, hlen] at hspec
  exact hspec

theorem prototypePad_large (hthis : this.prop = s.prop) (hpad : pad.chars ≠ [])
    (hmem : InMemory pad cells) (hlt : s.chars.length < numberToInteger target)
    (hmax : numberToInteger target < maxLength)
    (hsize : maxLength < s.prop.size + (repeated pad.chars
      ((numberToInteger target).toNat - s.chars.length)).flatten.length) :
    prototypePad env this (some target) (some pad.prop) cells padStart =
      .error (.throw (.rangeError "invalid string length")) := by
  rw [prototypePad_alloc hthis hpad hmem hlt hmax, stringAlloc, dif_pos hsize]
  rfl

end Cases

section Iff

variable {s pad : Subject} {target : Number} {padStart : Bool}

theorem padded_size (s pad : Subject) (k : ℕ) (padStart : Bool) :
    (padded s pad k padStart).prop.size =
      s.prop.size + (repeated pad.chars k).flatten.length := by
  rw [StringProp.size, padded_start, join_length]
  rfl

theorem padded_nil (hpad : pad.chars = []) (k : ℕ) : padded s pad k padStart = s :=
  if_pos (.inr hpad)

theorem padded_zero : padded s pad 0 padStart = s := if_pos (.inl rfl)

/-- A target length that is not above the length of the string. -/
theorem padHolds_same (hsize : s.prop.size ≤ maxLength)
    (hle : numberToInteger target ≤ s.chars.length) :
    PadHolds s pad target padStart ↔ PadSafe s pad target := by
  have hzero : (numberToInteger target).toNat - s.chars.length = 0 := by omega
  unfold PadHolds PadSafe PadThrows
  constructor
  · intro hholds
    let env : Env := ⟨fun _ => true, fun _ => 0⟩
    obtain ⟨this, hthis⟩ := exists_value s hsize
    have hok := hholds env _ this (inMemory_replicate pad) hthis
    rw [prototypePad_same hthis hle] at hok
    rcases hok with ⟨message, herror⟩ | hreturns
    · exact absurd herror (by simp)
    obtain ⟨v, hv, hprop⟩ := hreturns.exists_ok fun _ => rfl
    obtain rfl := Except.ok.inj hv
    by_cases hpad : pad.chars = []
    · exact .inr (.inl hpad)
    have hcount : padCount target s.chars.length = 0 := by
      by_contra hne
      have hgrows := repeated_flatten_lt hpad (Nat.pos_of_ne_zero hne)
      have hbytes := congrArg StringProp.size (hthis.symm.trans hprop)
      rw [padded_size] at hbytes
      omega
    exact .inr (.inr ⟨hzero.trans hcount.symm, .inl hcount⟩)
  · intro hsafe env cells this hmem hthis
    refine .inr (.ok (prototypePad_same hthis hle) (hthis.trans ?_))
    rcases hsafe with ⟨hlt, -⟩ | hpad | ⟨hcount, -⟩
    · omega
    · rw [padded_nil hpad]
    · rw [← hcount, hzero, padded_zero]

/-- A target length for which characters are added. -/
theorem padHolds_more (hsize : s.prop.size ≤ maxLength) (hpad : pad.chars ≠ [])
    (hlt : s.chars.length < numberToInteger target) (hmax : numberToInteger target < maxLength)
    (hfits : s.prop.size + (repeated pad.chars
      ((numberToInteger target).toNat - s.chars.length)).flatten.length ≤ maxLength) :
    PadHolds s pad target padStart ↔ PadSafe s pad target := by
  have hthrows : ¬ PadThrows s pad target := by
    rintro ⟨-, h | h⟩ <;> omega
  unfold PadHolds PadSafe
  simp only [hthrows, hpad, false_or]
  constructor
  · intro hholds
    let env : Env := ⟨fun _ => true, fun _ => 0⟩
    obtain ⟨this, hthis⟩ := exists_value s hsize
    have hmem := inMemory_replicate pad
    have hspec := @prototypePad_spec _ _ _ env _ _ padStart hthis hpad hmem hlt hmax hfits
    obtain ⟨v, hv, hprop⟩ := hspec.exists_ok fun _ => rfl
    have hsame : v.prop = (padded s pad (padCount target s.chars.length) padStart).prop := by
      rcases hholds env _ this hmem hthis with ⟨message, herror⟩ | hreturns
      · rw [hv] at herror
        exact absurd herror (by simp)
      · obtain ⟨v', hv', hprop'⟩ := hreturns.exists_ok fun _ => rfl
        obtain rfl := Except.ok.inj (hv.symm.trans hv')
        exact hprop'
    rw [hprop] at hsame
    have hbytes := congrArg StringProp.size hsame
    rw [padded_size, StringProp.size, join_length] at hbytes
    have hcount : (numberToInteger target).toNat - s.chars.length =
        padCount target s.chars.length := by
      simp only [StringProp.size] at hbytes
      rcases Nat.lt_trichotomy ((numberToInteger target).toNat - s.chars.length)
        (padCount target s.chars.length) with h | h | h
      · have hgrows := repeated_flatten_lt hpad h
        omega
      · exact h
      · have hgrows := repeated_flatten_lt hpad h
        omega
    refine ⟨hcount, .inr ?_⟩
    by_contra hkind
    have hlength := congrArg StringProp.length hsame
    rw [← hcount, padded_other_length (by omega) hpad hkind] at hlength
    have hzero : (numberToInteger target).toNat = 0 := hlength
    omega
  · rintro ⟨hcount, hkind⟩ env cells this hmem hthis
    have hspec := @prototypePad_spec _ _ _ env _ _ padStart hthis hpad hmem hlt hmax hfits
    refine .inr (hspec.mono fun v hv => hv.trans ?_)
    obtain ⟨us, vs, rfl, rfl⟩ := hkind.resolve_left (by omega)
    have hvs : vs ≠ [] := by
      rintro rfl
      exact hpad rfl
    have hne : padCount target (Subject.text us).chars.length ≠ 0 := by omega
    have hlength := padded_text_length us vs hne hvs padStart
    have hstart := padded_start (.text us) (.text vs)
      (padCount target (Subject.text us).chars.length) padStart
    rw [hcount, ← hstart]
    rw [length_chars] at hlength hcount hlt
    have htarget : (numberToInteger target).toNat =
        us.length + padCount target (Subject.text us).chars.length := by
      rw [length_chars]
      omega
    rw [htarget, length_chars, ← hlength]

end Iff

/-- Both padding functions do what they should exactly under the condition above. -/
theorem padHolds_iff (s pad : Subject) (target : Number) (padStart : Bool)
    (hsize : s.prop.size ≤ maxLength) :
    PadHolds s pad target padStart ↔ PadSafe s pad target := by
  rcases lt_or_ge (s.chars.length : ℤ) (numberToInteger target) with hlt | hle
  · rcases lt_or_ge (numberToInteger target) (maxLength : ℤ) with hmax | hmax
    · by_cases hpad : pad.chars = []
      · refine iff_of_true (fun env cells this _ hthis => ?_) (.inr (.inl hpad))
        refine .inr (.ok (prototypePad_nil hpad hmax) ?_)
        rw [hthis, padded_nil hpad]
      · rcases Nat.lt_or_ge maxLength (s.prop.size + (repeated pad.chars
          ((numberToInteger target).toNat - s.chars.length)).flatten.length) with hlarge | hfits
        · exact iff_of_true (fun env cells this hmem hthis =>
            .inl ⟨_, prototypePad_large hthis hpad hmem hlt hmax hlarge⟩)
            (.inl ⟨hlt, .inr hlarge⟩)
        · exact padHolds_more hsize hpad hlt hmax hfits
    · exact iff_of_true (fun env cells this _ hthis => .inl ⟨_, prototypePad_range hthis hlt hmax⟩)
        (.inl ⟨hlt, .inl hmax⟩)
  · exact padHolds_same hsize hle

/-- A byte string of one byte. -/
def oneByte : Subject := .bytes [0x80]

/-- Padding with nothing to be padded. -/
theorem oneLetter_padHolds : PadHolds (.text oneLetter) oneByte (.finite 1) true :=
  (padHolds_iff (.text oneLetter) oneByte (.finite 1) true (by decide)).mpr
    (.inr (.inr ⟨by decide, .inl (by decide)⟩))

/-- A byte string padded with a letter is given a length. -/
theorem oneByte_not_padHolds : ¬ PadHolds oneByte (.text oneLetter) (.finite 2) false := by
  intro hholds
  rcases (padHolds_iff oneByte (.text oneLetter) (.finite 2) false (by decide)).mp hholds with
    ⟨-, h | h⟩ | h | ⟨-, h | ⟨us, vs, h, -⟩⟩
  · exact absurd h (by decide)
  · exact absurd h (by decide)
  · exact absurd h (by decide)
  · exact absurd h (by decide)
  · exact absurd h (by simp [oneByte])

end Njs.Str
