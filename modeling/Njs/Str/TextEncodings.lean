import Njs.Str.ByteStrings

/-!
# The two methods on byte strings

`String.bytesFrom(b.toString(e), e)` gives back `b`, and the decoders read the
longest valid prefix of any text, with two exceptions: ten control characters count
as hexadecimal digits, and one of the methods compares only six of the nine bytes of
`"base64url"`.
-/

namespace Njs.Str

open Lib

/-- The text encodings of byte strings. -/
inductive Encoding
  | hex
  | base64
  | base64url
  deriving DecidableEq

namespace Encoding

/-- The name by which a script asks for the encoding. -/
def name : Encoding → List UInt8
  | hex => hexName
  | base64 => base64Name
  | base64url => base64urlName

/-- The value of a character in the alphabet of the encoding. -/
def digit? : Encoding → UInt8 → Option ℕ
  | hex => hexValue?
  | base64 => (encodeBasis64.idxOf? ·)
  | base64url => (encodeBasis64url.idxOf? ·)

/-- The number of bits in a digit. -/
def width : Encoding → ℕ
  | hex => 4
  | base64 => 6
  | base64url => 6

/-- The bytes written by the longest prefix of a text that is valid in the alphabet. -/
def read (e : Encoding) (text : List UInt8) : List UInt8 := octets e.width (digits e.digit? text)

/-- The encoder of the source. -/
def encoder : Encoding → Env → List UInt8 → Result StringValue
  | hex => Str.hex
  | base64 => Str.base64
  | base64url => Str.base64url

/-- The decoder of the source. -/
def decoder : Encoding → Env → List UInt8 → Result StringValue
  | hex => decodeHex
  | base64 => decodeBase64
  | base64url => decodeBase64url

end Encoding

/-- A byte string value. -/
structure ByteString where
  value : StringValue
  isByteString : IsByteString value

/-! ## The decoders -/

theorem decodeBase64_spec (env : Env) {src : List UInt8} (hsrc : src.length ≤ maxLength) :
    Returns env (decodeBase64 env src)
      fun v => IsByteString v ∧ v.bytes = Encoding.base64.read src := by
  have htable : sextet? decodeBasis64 = (encodeBasis64.idxOf? ·) := funext sextet?_base64
  have hlt : ∀ c, ∀ d ∈ sextet? decodeBasis64 c, d < 64 := forall_byte (by decide +kernel)
  have hspec := decodeBase64Core_spec env hlt hsrc
  rwa [htable] at hspec

theorem decodeBase64url_spec (env : Env) {src : List UInt8} (hsrc : src.length ≤ maxLength) :
    Returns env (decodeBase64url env src)
      fun v => IsByteString v ∧ v.bytes = Encoding.base64url.read src := by
  have htable : sextet? decodeBasis64url = (encodeBasis64url.idxOf? ·) := funext sextet?_base64url
  have hlt : ∀ c, ∀ d ∈ sextet? decodeBasis64url c, d < 64 := forall_byte (by decide +kernel)
  have hspec := decodeBase64Core_spec env hlt hsrc
  rwa [htable] at hspec

/-- The characters that `njs_char_to_hex` takes for digits without need. -/
def isStrayHexDigit (c : UInt8) : Bool := 0x10 ≤ c ∧ c ≤ 0x19

/-- A hexadecimal digit. -/
def isHexDigit (c : UInt8) : Bool := (hexValue? c).isSome

/-- The number of bytes that the leading hexadecimal digits of a text write. -/
def hexPairs (text : List UInt8) : ℕ := (text.takeWhile isHexDigit).length / 2

/-- The number of bytes that they write together with the stray digits. -/
def strayHexPairs (text : List UInt8) : ℕ :=
  (text.takeWhile fun c => isHexDigit c || isStrayHexDigit c).length / 2

private theorem digits_length (digit? : UInt8 → Option ℕ) (text : List UInt8) :
    (digits digit? text).length = (text.takeWhile fun c => (digit? c).isSome).length := by
  induction text with
  | nil => rfl
  | cons c text ih =>
    rw [digits, List.takeWhile_cons]
    cases h : digit? c with
    | none => rfl
    | some d => simp [ih]

private theorem charToHex_isSome (c : UInt8) :
    (charToHex c).isSome = (isHexDigit c || isStrayHexDigit c) := by
  rw [charToHex_eq, isHexDigit, isStrayHexDigit]
  by_cases hc : 0x10 ≤ c ∧ c ≤ 0x19 <;> simp [hc]

/-- The digits of the alphabet are the first ones that the source reads. -/
private theorem digits_hexValue_prefix (text : List UInt8) :
    digits hexValue? text <+: digits charToHex text := by
  induction text with
  | nil => exact List.prefix_rfl
  | cons c text ih =>
    have hc : hexValue? c = none ∨ charToHex c = hexValue? c := by
      revert c
      exact forall_byte (by decide +kernel)
    rcases hc with hc | hc
    · rw [digits, hc]
      exact List.nil_prefix
    · rw [digits, digits, hc]
      cases hexValue? c with
      | none => exact List.prefix_rfl
      | some d => exact List.cons_prefix_cons.mpr ⟨rfl, ih⟩

private theorem hexRead_length (ds : List ℕ) : (octets 4 ds).length = ds.length / 2 := by
  rw [octets_length]
  omega

/-- The hex decoder reads what it should exactly when no stray digit completes a pair. -/
theorem octets_charToHex_eq_iff (text : List UInt8) :
    octets 4 (digits charToHex text) = Encoding.hex.read text ↔
      strayHexPairs text = hexPairs text := by
  have hstray : (octets 4 (digits charToHex text)).length = strayHexPairs text := by
    rw [hexRead_length, digits_length, strayHexPairs, funext charToHex_isSome]
  have hplain : (Encoding.hex.read text).length = hexPairs text := hexRead_length _ ▸ by
    rw [digits_length]
    rfl
  constructor
  · intro h
    rw [← hstray, h, hplain]
  · intro h
    obtain ⟨rest, hrest⟩ := digits_hexValue_prefix text
    have hpre : Encoding.hex.read text <+: octets 4 (digits charToHex text) := by
      rw [← hrest, octets, List.flatMap_append]
      exact (groups_prefix_append (by decide) _ _).map _
    exact (hpre.eq_of_length (by rw [hplain, hstray, h])).symm

/-! ## The two methods -/

/-- Comparing the length and then that many bytes compares the names. -/
private theorem not_compared {enc name : List UInt8} (h : enc ≠ name) :
    ¬(enc.length = name.length ∧ enc.take name.length = name) := by
  rintro ⟨hlen, htake⟩
  rw [← hlen, List.take_length] at htake
  exact h htake

section Methods

variable (env : Env) {b text enc : StringValue}

theorem prototypeToString_of_name (hb : b.length = 0) {e : Encoding} (h : enc.bytes = e.name) :
    prototypeToString env (.string b) (some (.string enc)) =
      e.encoder env b.bytes := by
  simp only [prototypeToString, prototypeValueOf, bind, Except.bind, hb, h]
  cases e <;> rfl

theorem bytesFromString_of_name {e : Encoding} (h : enc.bytes = e.name) :
    bytesFromString env text (.string enc) = e.decoder env text.bytes := by
  simp only [bytesFromString, h]
  cases e <;> rfl

/-- `String.prototype.toString` knows the names of the three encodings and no others. -/
theorem prototypeToString_of_not_name (hb : b.length = 0) (h : ∀ e : Encoding, enc.bytes ≠ e.name) :
    prototypeToString env (.string b) (some (.string enc)) = unknownEncoding enc.bytes := by
  simp only [prototypeToString, prototypeValueOf, bind, Except.bind, hb]
  have hhex : ¬(enc.bytes.length = 3 ∧ enc.bytes.take 3 = hexName) := not_compared (h .hex)
  have hbase64 : ¬(enc.bytes.length = 6 ∧ enc.bytes.take 6 = base64Name) :=
    not_compared (h .base64)
  have hurl : ¬(enc.bytes.length = 9 ∧ enc.bytes.take 9 = base64urlName) :=
    not_compared (h .base64url)
  rw [if_neg (by simp), if_neg hhex, if_neg hbase64, if_neg hurl]

end Methods

/-- A nine-byte name that starts like `"base64url"`. -/
def isNearBase64url (name : List UInt8) : Prop :=
  name.length = 9 ∧ name.take 6 = base64Name

/-- `String.bytesFrom` takes any such name for `"base64url"`. -/
theorem bytesFromString_of_not_name (env : Env) {text enc : StringValue}
    (h : ∀ e : Encoding, enc.bytes ≠ e.name) :
    (isNearBase64url enc.bytes →
      bytesFromString env text (.string enc) = decodeBase64url env text.bytes) ∧
    (¬isNearBase64url enc.bytes →
      bytesFromString env text (.string enc) = unknownEncoding enc.bytes) := by
  have hurl : base64urlName.take 6 = base64Name := rfl
  simp only [bytesFromString, hurl]
  have hhex : ¬(enc.bytes.length = 3 ∧ enc.bytes.take 3 = hexName) := not_compared (h .hex)
  have hbase64 : ¬(enc.bytes.length = 6 ∧ enc.bytes.take 6 = base64Name) :=
    not_compared (h .base64)
  rw [if_neg hhex, if_neg hbase64]
  exact ⟨fun hnear => if_pos hnear, fun hnear => if_neg hnear⟩

/-! ## The property -/

/-- Encoding a byte string and decoding the text gives the byte string back. -/
def RoundTrips (b : ByteString) : Prop :=
  ∀ (e : Encoding) (enc : StringValue), enc.bytes = e.name → ∀ env env' : Env,
    Returns env (prototypeToString env (.string b.value) (some (.string enc))) fun text =>
      Returns env' (bytesFromString env' text (.string enc)) fun v =>
        IsByteString v ∧ v.bytes = b.value.bytes ∧ stringEq v b.value = true

/-- The decoders return well-formed byte strings that hold what the longest valid
prefix of the text writes. -/
def Decodes (text : StringValue) : Prop :=
  ∀ (e : Encoding) (env : Env), Returns env (e.decoder env text.bytes) fun v =>
    IsByteString v ∧ v.bytes = e.read text.bytes

/-- Either both methods know the name of the encoding or neither does. -/
def SameName (name : StringValue) : Prop :=
  ∀ (b : ByteString) (text : StringValue) (env env' : Env),
    bytesFromString env text (.string name) = unknownEncoding name.bytes ↔
      prototypeToString env' (.string b.value) (some (.string name)) = unknownEncoding name.bytes

/-- The text encodings work for a byte string, a text to decode and the name of an
encoding. -/
structure TextEncodingsHold (b : ByteString) (text name : StringValue) : Prop where
  roundTrips : RoundTrips b
  decodes : Decodes text
  sameName : SameName name

/-- The environment that grants every request. -/
def generous : Env := ⟨fun _ => true, fun _ => 0⟩

/-- An ASCII string of at most fourteen characters. -/
def asciiString (s : List Char) : StringValue :=
  .short {
    size := Fin.ofNat 15 s.length
    length := Fin.ofNat 16 s.length
    start := (s.map byte ++ List.replicate 14 0).take 14
    start_length := by simp [shortMax] }

private theorem ne_unknownEncoding {env : Env} {x : Result StringValue}
    {P : StringValue → Prop} (h : Returns env x P) (enc : List UInt8) :
        x ≠ unknownEncoding enc := by
  rcases h with ⟨a, rfl, -⟩ | ⟨rfl, -⟩ <;> simp [unknownEncoding]

private theorem alloc_fill_ne_unknownEncoding (env : Env) (size length : ℕ)
    (out enc : List UInt8) :
    (stringAlloc env size length >>= fun v => v.fill out) ≠ unknownEncoding enc := by
  have hfill : ∀ v : StringValue, v.fill out ≠ unknownEncoding enc := by
    intro v
    cases v with
    | short s => simp only [StringValue.fill, unknownEncoding]; split_ifs <;> simp
    | long s => simp only [StringValue.fill, unknownEncoding]; split_ifs <;> simp
  unfold stringAlloc
  split_ifs
  · simp [unknownEncoding, bind, Except.bind]
  · simpa [bind, Except.bind] using hfill _
  · simpa [bind, Except.bind] using hfill _
  · simp [unknownEncoding, bind, Except.bind]

/-- The bytes that a decoder of the source reads. -/
def Encoding.sourceRead (e : Encoding) (text : List UInt8) : List UInt8 :=
  if e = .hex then octets 4 (digits charToHex text) else e.read text

theorem decoder_spec (env : Env) (e : Encoding) {src : List UInt8} (hsrc : src.length ≤ maxLength) :
    Returns env (e.decoder env src) fun v => IsByteString v ∧ v.bytes = e.sourceRead src := by
  cases e with
  | hex => exact decodeHex_spec env hsrc
  | base64 => exact decodeBase64_spec env hsrc
  | base64url => exact decodeBase64url_spec env hsrc

theorem decodes_iff (text : StringValue) :
    Decodes text ↔ strayHexPairs text.bytes = hexPairs text.bytes := by
  have hsrc : text.bytes.length ≤ maxLength := text.bytes_length ▸ text.size_le_max
  rw [← octets_charToHex_eq_iff]
  constructor
  · intro h
    obtain ⟨v, hv, -, hread⟩ := (h .hex generous).exists_ok fun _ => rfl
    obtain ⟨w, hw, -, hdigits⟩ := (decoder_spec generous .hex hsrc).exists_ok fun _ => rfl
    obtain rfl : v = w := Except.ok.inj (hv.symm.trans hw)
    exact hdigits.symm.trans hread
  · intro h e env
    refine (decoder_spec env e hsrc).mono fun v hv => ⟨hv.1, hv.2.trans ?_⟩
    cases e with
    | hex => exact h
    | base64 => rfl
    | base64url => rfl

section Trips

variable {env env' : Env} {e : Encoding} {b enc : StringValue} {out : List UInt8}

/-- A text that writes the bytes of a byte string is decoded to an equal byte string. -/
private theorem returns_of_bytes (hb : IsByteString b) (henc : enc.bytes = e.name)
    {text : StringValue} (hread : e.sourceRead text.bytes = b.bytes) :
    Returns env (bytesFromString env text (.string enc)) fun v =>
      IsByteString v ∧ v.bytes = b.bytes ∧ stringEq v b = true := by
  have hsrc : text.bytes.length ≤ maxLength := text.bytes_length ▸ text.size_le_max
  rw [bytesFromString_of_name env henc]
  refine (decoder_spec env e hsrc).mono fun v hv => ?_
  have hbytes : v.bytes = b.bytes := hv.2.trans hread
  exact ⟨hv.1, hbytes, hv.1.stringEq hb hbytes⟩

/-- The same for a text that is allocated with its exact length and filled. -/
private theorem returns_of_fill (hb : IsByteString b) (henc : enc.bytes = e.name) {n : ℕ}
    (hn : out.length = n) (hmax : n ≤ maxLength) (hread : e.sourceRead out = b.bytes) :
    Returns env (stringAlloc env n n >>= fun v => v.fill out) fun text =>
      Returns env' (bytesFromString env' text (.string enc)) fun v =>
        IsByteString v ∧ v.bytes = b.bytes ∧ stringEq v b = true := by
  subst hn
  exact (stringAlloc_fill_spec env hmax).mono fun text htext =>
    returns_of_bytes hb henc (htext.2 ▸ hread)

end Trips

theorem roundTrips_iff (b : ByteString) : RoundTrips b ↔ 2 * b.value.size ≤ maxLength := by
  obtain ⟨b, hb⟩ := b
  have hlen : b.bytes.length = b.size := b.bytes_length
  constructor
  · intro h
    by_contra hmax
    simp only at hmax
    have hname : (asciiString ['h', 'e', 'x']).bytes = Encoding.hex.name := by decide
    obtain ⟨t, ht, -⟩ := (h .hex _ hname generous generous).exists_ok fun _ => rfl
    have hbig : b.bytes.length * 2 > maxLength := by rw [hlen]; omega
    have hthrow : hex generous b.bytes =
        .error (.throw (.rangeError "invalid string length")) := by
      simp only [hex, stringAlloc, dif_pos hbig, bind, Except.bind]
    rw [prototypeToString_of_name generous hb.length_eq hname] at ht
    cases hthrow.symm.trans ht
  · intro hmax e enc henc env env'
    simp only at hmax ⊢
    rw [prototypeToString_of_name env hb.length_eq henc]
    cases e with
    | hex =>
      exact returns_of_fill hb henc (hexLoop_length _) (by rw [hlen]; omega)
        (octets_digits_hexLoop _)
    | base64 =>
      have hread : Encoding.base64.sourceRead (encodeBase64Core encodeBasis64 true b.bytes) =
          b.bytes :=
        octets_digits_encodeBase64Core encodeBasis64_value (by decide) true _
      simp only [Encoding.encoder, base64]
      split_ifs with h0
      · have hnil : b.bytes = [] := List.length_eq_zero_iff.mp h0
        exact .ok rfl (returns_of_bytes hb henc (by rw [hnil]; decide))
      · refine returns_of_fill hb henc (encodeBase64Core_length _ _) ?_ hread
        simp only [base64EncodedLength, maxLength] at hmax ⊢
        omega
    | base64url =>
      have hread : Encoding.base64url.sourceRead
          (encodeBase64Core encodeBasis64url false b.bytes) = b.bytes :=
        octets_digits_encodeBase64Core encodeBasis64url_value (by decide) false _
      simp only [Encoding.encoder, base64url]
      split_ifs with h0
      · have hnil : b.bytes = [] := List.length_eq_zero_iff.mp h0
        exact .ok rfl (returns_of_bytes hb henc (by rw [hnil]; decide))
      · refine returns_of_fill hb henc (encodeBase64Core_length_of_not_padding _ _) ?_ hread
        simp only [base64EncodedLength, maxLength] at hmax ⊢
        omega

/-- `String.prototype.toString` does not report the name of an encoding as unknown. -/
private theorem prototypeToString_ne_unknownEncoding (env : Env) {b enc : StringValue}
    (hb : b.length = 0) {e : Encoding} (henc : enc.bytes = e.name) :
    prototypeToString env (.string b) (some (.string enc)) ≠ unknownEncoding enc.bytes := by
  rw [prototypeToString_of_name env hb henc]
  cases e with
  | hex => exact alloc_fill_ne_unknownEncoding env _ _ _ _
  | base64 =>
    simp only [Encoding.encoder, base64]
    split_ifs
    · simp [unknownEncoding]
    · exact alloc_fill_ne_unknownEncoding env _ _ _ _
  | base64url =>
    simp only [Encoding.encoder, base64url]
    split_ifs
    · simp [unknownEncoding]
    · exact alloc_fill_ne_unknownEncoding env _ _ _ _

theorem sameName_iff (name : StringValue) :
    SameName name ↔ (isNearBase64url name.bytes → name.bytes = base64urlName) := by
  constructor
  · intro h hnear
    by_contra hurl
    have hname : ∀ e : Encoding, name.bytes ≠ e.name := by
      rintro e he
      cases e with
      | hex => exact absurd hnear.1 (by rw [he]; decide)
      | base64 => exact absurd hnear.1 (by rw [he]; decide)
      | base64url => exact hurl he
    have hiff := h ⟨emptyString, emptyString_isByteString⟩ emptyString generous generous
    rw [(bytesFromString_of_not_name generous hname).1 hnear] at hiff
    refine ne_unknownEncoding (decodeBase64url_spec generous ?_) _
      (hiff.mpr (prototypeToString_of_not_name generous rfl hname))
    decide
  · intro h b text env env'
    have hsrc : text.bytes.length ≤ maxLength := text.bytes_length ▸ text.size_le_max
    by_cases hname : ∃ e : Encoding, name.bytes = e.name
    · obtain ⟨e, he⟩ := hname
      rw [bytesFromString_of_name env he]
      exact iff_of_false (ne_unknownEncoding (decoder_spec env e hsrc) _)
        (prototypeToString_ne_unknownEncoding env' b.isByteString.length_eq he)
    · push Not at hname
      have hnear : ¬isNearBase64url name.bytes := fun hnear => hname .base64url (h hnear)
      exact iff_of_true ((bytesFromString_of_not_name env hname).2 hnear)
        (prototypeToString_of_not_name env' b.isByteString.length_eq hname)

/-- The encodings do what they should exactly when the hexadecimal text of the byte
string is not too long, no stray digit completes a pair of the text to decode, and the
name is not a nine-byte name that only starts like `"base64url"`. -/
theorem textEncodingsHold_iff (b : ByteString) (text name : StringValue) :
    TextEncodingsHold b text name ↔
      2 * b.value.size ≤ maxLength ∧ strayHexPairs text.bytes = hexPairs text.bytes ∧
        (isNearBase64url name.bytes → name.bytes = base64urlName) := by
  rw [← roundTrips_iff, ← decodes_iff, ← sameName_iff]
  exact ⟨fun h => ⟨h.roundTrips, h.decodes, h.sameName⟩, fun h => ⟨h.1, h.2.1, h.2.2⟩⟩

/-- `String.bytesFrom("QQ", "base64abc")` is the byte string `"A"`, while
`"base64abc"` is unknown to `String.prototype.toString`. -/
theorem not_textEncodingsHold :
    ¬∀ (b : ByteString) (text name : StringValue), TextEncodingsHold b text name := by
  intro h
  have hiff := (h ⟨emptyString, emptyString_isByteString⟩ (asciiString ['Q', 'Q'])
    (asciiString ['b', 'a', 's', 'e', '6', '4', 'a', 'b', 'c'])).sameName
      ⟨emptyString, emptyString_isByteString⟩ (asciiString ['Q', 'Q']) generous generous
  exact absurd hiff (by decide)

end Njs.Str
