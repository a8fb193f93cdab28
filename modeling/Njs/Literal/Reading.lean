import Njs.Literal.Automata
import Njs.Str.Index

/-!
# Tokens and iterations

The text that the lexer finds consists of characters and of backslashes before characters. At
each of its tokens, both functions read what the token says or the first one reports an error.
-/

namespace Njs.Literal

open Json (escapeMark utf8)
open Integers (hexParse positional)

variable {p q src : List UInt8} {s : Step} {n u : ℕ} {tok : Token} {c e : UInt8}

/-! ## Characters -/

theorem isScalar_lt (h : isScalar u = true) : u < 0x110000 := by
  simp only [isScalar, Bool.or_eq_true, Bool.and_eq_true, decide_eq_true_eq] at h
  omega

theorem utf8_codePoint (u : Utf8.CodePoint) : utf8 u.val = u.encode := by
  rw [utf8, u.encode_eq, Option.getD_some]

theorem character_utf8 (h : isScalar u = true) (q : List UInt8) :
    character (utf8 u ++ q) = some (u, q) := by
  have hdecode := Utf8.decode_encode_append (Utf8.CodePoint.encode_eq ⟨u, isScalar_lt h⟩) q
  rw [← utf8_codePoint] at hdecode
  rw [character, hdecode]
  exact if_pos h

theorem character_scalar (h : character p = some (u, q)) : isScalar u = true := by
  unfold character at h
  split at h
  · split_ifs at h with hscalar
    obtain ⟨rfl, -⟩ := Prod.mk.inj (Option.some.inj h)
    exact hscalar
  · cases h

theorem character_decode (h : character p = some (u, q)) : Utf8.decode p = some (u, q) := by
  unfold character at h
  split at h
  · next hdecode =>
    split_ifs at h with hscalar
    rw [hdecode, h]
  · cases h

theorem character_ascii (hc : c.toNat < 0x80) (p : List UInt8) :
    character (c :: p) = some (c.toNat, p) := by
  have hscalar : isScalar c.toNat = true := by
    rw [isScalar, Bool.or_eq_true, decide_eq_true_eq]
    exact Or.inl (by omega)
  rw [character, Utf8.decode, if_pos hc]
  exact if_pos hscalar

/-- Both functions read a character as it is. -/
theorem plainChar_character (h : character (c :: src) = some (u, q)) :
    plainChar c src = .ok (.char u q) := by
  rw [plainChar]
  split_ifs with hc
  · have hne : u ≠ Utf8.invalid := by
      have hlt := isScalar_lt (character_scalar h)
      unfold Utf8.invalid
      omega
    have hsafe := Utf8.safeDecode_of_decode (character_decode h) hne
    have hnot : ¬c.toNat < 0x80 := not_lt.mpr (UInt8.le_iff_toNat_le.mp hc)
    rw [Utf8.safeDecode, if_neg hnot] at hsafe
    simp only [hsafe]
  · rw [character_ascii (UInt8.lt_iff_toNat_lt.mp (UInt8.not_le.mp hc))] at h
    obtain ⟨rfl, rfl⟩ := Prod.mk.inj (Option.some.inj h)
    rfl

/-! ## The text of a literal -/

/-- A text of characters, in which a backslash is followed by another character. -/
inductive Content : List UInt8 → Prop
  | nil : Content []
  | char {p q : List UInt8} {u : ℕ} (h : character p = some (u, q)) (hne : u ≠ 92)
    (hrest : Content q) : Content p
  | escape {p q : List UInt8} {u : ℕ} (h : character p = some (u, q)) (hrest : Content q) :
    Content (escapeMark :: p)

theorem Content.tail (h : Content (c :: p)) (hc : c.toNat < 0x80) (hne : c ≠ escapeMark) :
    Content p := by
  cases h with
  | char h _ hrest =>
    rw [character_ascii hc] at h
    obtain ⟨-, rfl⟩ := Prod.mk.inj (Option.some.inj h)
    exact hrest
  | escape => exact absurd rfl hne

theorem Content.escaped (h : Content (escapeMark :: p)) :
    ∃ u q, character p = some (u, q) ∧ Content q := by
  cases h with
  | char h hne _ =>
    rw [character_ascii (by decide)] at h
    obtain ⟨rfl, -⟩ := Prod.mk.inj (Option.some.inj h)
    exact absurd rfl hne
  | escape h hrest => exact ⟨_, _, h, hrest⟩

theorem Content.first (h : Content (c :: p)) (hne : c ≠ escapeMark) :
    ∃ u q, character (c :: p) = some (u, q) ∧ Content q := by
  cases h with
  | char h _ hrest => exact ⟨_, _, h, hrest⟩
  | escape => exact absurd rfl hne

/-- The text behind an escape of one byte. -/
theorem Content.escaped_ascii (h : Content (escapeMark :: e :: p)) (he : e.toNat < 0x80) :
    Content p := by
  obtain ⟨u, q, hchar, hrest⟩ := h.escaped
  rw [character_ascii he] at hchar
  obtain ⟨-, rfl⟩ := Prod.mk.inj (Option.some.inj hchar)
  exact hrest

/-- A backslash is followed by a byte everywhere. -/
def closed : List UInt8 → Bool
  | [] => true
  | c :: p =>
    if c = escapeMark then
      match p with
      | [] => false
      | _ :: p => closed p
    else closed p

theorem closed_cons (h : c ≠ escapeMark) : closed (c :: p) = closed p := by
  cases p <;> simp [closed, h]

theorem closed_escape (e : UInt8) (p : List UInt8) : closed (escapeMark :: e :: p) = closed p :=
  rfl

/-- A byte that is read alone is no backslash. -/
theorem ne_escapeMark (h : p = [] → c ≠ 92) (h' : ∀ d q, p = d :: q → c ≠ 92) :
    c ≠ escapeMark := by
  cases p with
  | nil => exact h rfl
  | cons d q => exact h' d q rfl

theorem closed_of_lexerString {quote : UInt8} {text : List UInt8}
    (h : lexerString quote p = some text) : closed text = true := by
  induction p using lexerString.induct quote generalizing text with
  | case1 => cases h
  | case2 => cases h
  | case3 p ih =>
    obtain ⟨rest, hrest, rfl⟩ := Option.map_eq_some_iff.mp h
    exact (closed_escape 13 _).trans ((closed_cons (by decide)).trans (ih hrest))
  | case4 c p hne ih =>
    rw [lexerString] at h
    · obtain ⟨rest, hrest, rfl⟩ := Option.map_eq_some_iff.mp h
      exact (closed_escape c rest).trans (ih hrest)
    · exact hne
  | case5 c p h1 h2 h3 hline =>
    rw [lexerString, if_pos hline] at h
    · cases h
    · exact h1
    · exact h2
    · exact h3
  | case6 p h1 h2 h3 hline =>
    rw [lexerString, if_neg hline, if_pos rfl] at h
    · exact Option.some.inj h ▸ rfl
    · exact h1
    · exact h2
    · exact h3
  | case7 c p h1 h2 h3 hline hquote ih =>
    rw [lexerString, if_neg hline, if_neg hquote] at h
    · obtain ⟨rest, hrest, rfl⟩ := Option.map_eq_some_iff.mp h
      have hne : c ≠ escapeMark :=
        ne_escapeMark (fun hp hc => h1 hc hp) fun d q hp hc => h3 d q hc hp
      exact (closed_cons hne).trans (ih hrest)
    · exact h1
    · exact h2
    · exact h3

theorem closed_of_templateString {text : List UInt8} (h : templateString p = some text) :
    closed text = true := by
  induction p using templateString.induct generalizing text with
  | case1 => cases h
  | case2 => cases h
  | case3 c p ih =>
    obtain ⟨rest, hrest, rfl⟩ := Option.map_eq_some_iff.mp h
    exact (closed_escape c rest).trans (ih hrest)
  | case4 p => exact Option.some.inj h ▸ rfl
  | case5 p h1 h2 h3 =>
    rw [templateString, if_pos rfl] at h
    · exact Option.some.inj h ▸ rfl
    · exact h1
    · exact h2
    · exact h3
  | case6 c p h1 h2 h3 hquote ih =>
    rw [templateString, if_neg hquote] at h
    · obtain ⟨rest, hrest, rfl⟩ := Option.map_eq_some_iff.mp h
      have hne : c ≠ escapeMark :=
        ne_escapeMark (fun hp hc => h1 hc hp) fun d q hp hc => h2 d q hc hp
      exact (closed_cons hne).trans (ih hrest)
    · exact h1
    · exact h2
    · exact h3

theorem closed_of_accepted {text : List UInt8} (h : Accepted text) : closed text = true := by
  rcases h with ⟨quote, p, h⟩ | ⟨p, h⟩
  · exact closed_of_lexerString h
  · exact closed_of_templateString h

theorem closed_continuation {cs : List UInt8} (h : ∀ c ∈ cs, Utf8.IsContinuation c)
    (q : List UInt8) : closed (cs ++ q) = closed q := by
  induction cs with
  | nil => rfl
  | cons c cs ih =>
    have hne : c ≠ escapeMark := by
      rintro rfl
      exact absurd (h escapeMark List.mem_cons_self).1 (by decide)
    exact (closed_cons hne).trans (ih fun d hd => h d (List.mem_cons_of_mem c hd))

/-- The first byte of a character, and the others. -/
theorem utf8_eq_cons (h : isScalar u = true) : ∃ b cs, utf8 u = b :: cs ∧
    (∀ c ∈ cs, Utf8.IsContinuation c) ∧ (b < 0x80 → cs = []) := by
  obtain ⟨b, cs, hcode, -, hcs, hone⟩ := Str.encode_eq_cons ⟨u, isScalar_lt h⟩
  exact ⟨b, cs, (utf8_codePoint ⟨u, isScalar_lt h⟩).trans hcode, hcs, hone⟩

/-- A character that is not a backslash has none among its bytes. -/
theorem closed_utf8 (h : isScalar u = true) (hne : u ≠ 92) (q : List UInt8) :
    closed (utf8 u ++ q) = closed q := by
  obtain ⟨b, cs, hutf8, hcs, hone⟩ := utf8_eq_cons h
  have hb : b ≠ escapeMark := by
    rintro rfl
    have hchar := character_utf8 h q
    rw [hutf8, hone (by decide), List.singleton_append, character_ascii (by decide)] at hchar
    exact hne (Prod.mk.inj (Option.some.inj hchar)).1.symm
  rw [hutf8, List.cons_append, closed_cons hb, closed_continuation hcs]

theorem closed_escaped (h : isScalar u = true) (q : List UInt8) :
    closed (escapeMark :: (utf8 u ++ q)) = closed q := by
  obtain ⟨b, cs, hutf8, hcs, -⟩ := utf8_eq_cons h
  rw [hutf8, List.cons_append, closed_escape, closed_continuation hcs]

/-- The lexer finds texts of characters only. -/
theorem content_of_accepted {text : List UInt8} (hutf8 : IsUtf8 text) (h : Accepted text) :
    Content text := by
  obtain ⟨us, rfl, hus⟩ := hutf8
  have hclosed := closed_of_accepted h
  clear h
  induction hlength : us.length using Nat.strong_induction_on generalizing us with
  | _ n ih =>
    rcases us with - | ⟨u, us⟩
    · exact .nil
    · obtain ⟨hu, hrest⟩ := List.forall_mem_cons.mp hus
      rw [List.flatMap_cons] at hclosed ⊢
      rw [List.length_cons] at hlength
      by_cases hescape : u = 92
      · subst hescape
        rcases us with - | ⟨v, us⟩
        · exact absurd hclosed (by decide)
        · obtain ⟨hv, hrest⟩ := List.forall_mem_cons.mp hrest
          rw [List.flatMap_cons] at hclosed ⊢
          rw [List.length_cons] at hlength
          have hbyte : utf8 92 = [escapeMark] := by decide
          rw [hbyte, List.singleton_append, closed_escaped hv] at hclosed
          rw [hbyte, List.singleton_append]
          exact .escape (character_utf8 hv _) (ih us.length (by omega) us hrest hclosed rfl)
      · rw [closed_utf8 hu hescape] at hclosed
        exact .char (character_utf8 hu _) hescape (ih us.length (by omega) us hrest hclosed rfl)

/-! ## Digits -/

/-- A hexadecimal digit is one for the parser. -/
theorem charToHex_of_hexDigit {d : ℕ} (h : hexDigit c = some d) : Str.charToHex c = some d := by
  rw [Integers.charToHex_eq]
  split_ifs with hstray
  · rw [hexDigit, Integers.stray_not_digit hstray] at h
    cases h
  · exact h

theorem charToHex_isSome (h : (hexDigit c).isSome = true) : (Str.charToHex c).isSome = true := by
  obtain ⟨d, hd⟩ := Option.isSome_iff_exists.mp h
  rw [charToHex_of_hexDigit hd]
  rfl

/-- What the parser takes for a digit is in ASCII, and no backslash. -/
theorem charToHex_ascii (h : (Str.charToHex c).isSome = true) :
    c.toNat < 0x80 ∧ c ≠ escapeMark := by
  rw [Integers.charToHex_eq] at h
  split_ifs at h with hstray
  · have hle := UInt8.le_iff_toNat_le.mp hstray.2
    simp only [UInt8.reduceToNat] at hle
    refine ⟨by omega, ?_⟩
    rintro rfl
    exact absurd hstray (by decide)
  · refine ⟨?_, ?_⟩
    · by_contra hlarge
      have hletter : Integers.letterDigit c = 255 := by
        simp only [Integers.letterDigit, UInt8.le_iff_toNat_le, UInt8.reduceToNat]
        split_ifs <;> omega
      rw [Integers.radixDigit, hletter] at h
      cases h
    · rintro rfl
      exact absurd h (by decide)

theorem Content.digits {digits : List UInt8} (h : Content (digits ++ q))
    (hdigits : ∀ c ∈ digits, (Str.charToHex c).isSome = true) : Content q := by
  induction digits with
  | nil => exact h
  | cons c digits ih =>
    obtain ⟨hc, hrest⟩ := List.forall_mem_cons.mp hdigits
    obtain ⟨hascii, hne⟩ := charToHex_ascii hc
    exact ih (h.tail hascii hne) hrest

/-- Digits have the same value for both. -/
theorem positional_eq {digits : List UInt8} (h : ∀ c ∈ digits, (hexDigit c).isSome = true) :
    positional hexDigit 16 0 digits = positional Str.charToHex 16 0 digits := by
  refine Integers.positional_congr (fun c hc => ?_) 0
  obtain ⟨d, hd⟩ := Option.isSome_iff_exists.mp (h c hc)
  rw [hd, charToHex_of_hexDigit hd]

theorem fixedDigits_eq_some {digit : UInt8 → Option ℕ} {digits : List UInt8} :
    fixedDigits digit n src = some (digits, q) ↔
      src = digits ++ q ∧ digits.length = n ∧ ∀ c ∈ digits, (digit c).isSome = true := by
  unfold fixedDigits
  constructor
  · intro h
    split_ifs at h with hdigits
    obtain ⟨rfl, rfl⟩ := Prod.mk.inj (Option.some.inj h)
    exact ⟨(List.take_append_drop n src).symm, by rw [List.length_take]; omega,
      List.all_eq_true.mp hdigits.2⟩
  · rintro ⟨rfl, rfl, hdigits⟩
    rw [List.take_left, List.drop_left, if_pos ⟨by simp, List.all_eq_true.mpr hdigits⟩]

/-- The parser accepts an escape with a fixed number of digits if it takes all of them for
digits. -/
theorem calcFixed_eq (hn : n ≤ 6) : calcFixed n src =
    match fixedDigits Str.charToHex n src with
    | some (digits, q) => .ok (.hex (positional Str.charToHex 16 0 digits) q)
    | none => .error .syntaxError := by
  unfold calcFixed fixedDigits
  by_cases hlength : n ≤ src.length
  · rw [if_neg (by omega)]
    have hbound : (src.take n).length ≤ 6 := (List.length_take_le n src).trans hn
    have hvalue := (@hexParse_value (src.take n) (by omega)).1
    by_cases hall : ∀ c ∈ src.take n, (Str.charToHex c).isSome = true
    · have hdrop : (hexParse (src.take n)).2 = [] := by
        rw [hexParse_eq]
        exact List.dropWhile_eq_nil_iff.mpr hall
      have htake : (src.take n).takeWhile (fun c => (Str.charToHex c).isSome) = src.take n :=
        List.takeWhile_eq_self_iff.mpr hall
      rw [htake] at hvalue
      rw [if_neg (not_not.mpr hdrop), if_pos ⟨hlength, List.all_eq_true.mpr hall⟩, hvalue]
    · have hdrop : (hexParse (src.take n)).2 ≠ [] := by
        rw [hexParse_eq]
        exact fun h => hall (List.dropWhile_eq_nil_iff.mp h)
      rw [if_pos hdrop, if_neg fun h => hall (List.all_eq_true.mp h.2)]
  · rw [if_pos (by omega), if_neg fun h => hlength h.1]

theorem bracedDigits_eq_some {digit : UInt8 → Option ℕ} {digits : List UInt8}
    (hbrace : (digit 125).isSome = false) : bracedDigits digit src = some (digits, q) ↔
      src = digits ++ 125 :: q ∧ digits ≠ [] ∧ ∀ c ∈ digits, (digit c).isSome = true := by
  unfold bracedDigits
  constructor
  · intro h
    simp only at h
    split_ifs at h with hdigits
    obtain ⟨rfl, rfl⟩ := Prod.mk.inj (Option.some.inj h)
    obtain ⟨hne, hhead⟩ := hdigits
    refine ⟨?_, hne, fun c hc => List.mem_takeWhile_imp (p := fun c => (digit c).isSome) hc⟩
    rw [List.cons_head?_tail (Option.mem_def.mpr hhead), List.takeWhile_append_dropWhile]
  · rintro ⟨rfl, hne, hdigits⟩
    have htake : (digits ++ 125 :: q).takeWhile (fun c => (digit c).isSome) = digits := by
      rw [List.takeWhile_append_of_pos hdigits, List.takeWhile_cons_of_neg (by simp [hbrace]),
        List.append_nil]
    have hdrop : (digits ++ 125 :: q).dropWhile (fun c => (digit c).isSome) = 125 :: q := by
      rw [List.dropWhile_append_of_pos hdigits, List.dropWhile_cons_of_neg (by simp [hbrace])]
    simp only [htake, hdrop]
    exact if_pos ⟨hne, rfl⟩

/-- The parser accepts an escape with digits between braces if there are no more than six. -/
theorem calcBraced_eq : calcBraced src =
    match bracedDigits Str.charToHex src with
    | some (digits, q) =>
      if 6 < digits.length then .error .syntaxError
      else .ok (.hex (positional Str.charToHex 16 0 digits) q)
    | none => .error .syntaxError := by
  have hsplit := List.takeWhile_append_dropWhile (p := fun c => (Str.charToHex c).isSome) (l := src)
  have hlength := congrArg List.length hsplit
  rw [List.length_append] at hlength
  have hparse := hexParse_eq src
  have hrest : (hexParse src).2 = src.dropWhile fun c => (Str.charToHex c).isSome := by rw [hparse]
  have hempty : (hexParse src).2 = src ↔
      src.takeWhile (fun c => (Str.charToHex c).isSome) = [] := by
    rw [hrest]
    constructor
    · intro h
      rw [h] at hlength
      exact List.length_eq_zero_iff.mp (by omega)
    · intro h
      rwa [h, List.nil_append] at hsplit
  unfold calcBraced bracedDigits
  simp only [hrest] at hempty ⊢
  by_cases hne : src.takeWhile (fun c => (Str.charToHex c).isSome) = []
  · simp only [hempty.mpr hne, true_or, if_true, hne, ne_eq, not_true_eq_false, false_and, if_false]
  · have hrest' := mt hempty.mp hne
    by_cases hbrace : (src.dropWhile fun c => (Str.charToHex c).isSome).head? = some 125
    · by_cases hlong : 6 < (src.takeWhile fun c => (Str.charToHex c).isSome).length
      · have hmany : 6 < src.length -
            (src.dropWhile fun c => (Str.charToHex c).isSome).length := by omega
        simp only [hne, hbrace, hlong, hmany, ne_eq, not_false_eq_true, true_and, if_true,
          or_true]
      · have hfew : ¬6 < src.length -
            (src.dropWhile fun c => (Str.charToHex c).isSome).length := by omega
        have hvalue := (@hexParse_value src (by rw [hrest]; omega)).1
        simp only [hne, hrest', hbrace, hlong, hfew, hvalue, ne_eq, not_false_eq_true, true_and,
          not_true_eq_false, if_true, if_false, or_self]
    · simp only [hbrace, ne_eq, not_false_eq_true, if_true, and_false, if_false, ite_self]

/-! ## Tokens -/

/-- What both functions read at a token. -/
def Token.step : Token → List UInt8 → Step
  | char u, q | separator u, q | illegalChar u, q => .char u q
  | hex u, q | illegalHex u, q | unicode u, q | long u, q | illegalUnicode u, q => .hex u q
  | continuation, q => .skip q
  | carriageReturn _, q => .char 13 q

/-- The bounds of the values of tokens. -/
def Token.Ranged : Token → Prop
  | char u | separator u | illegalChar u => isScalar u = true
  | hex u | illegalHex u => u < 256
  | unicode u | long u | illegalUnicode u => u < 0x110000
  | continuation | carriageReturn _ => True

/-- The token is an escape with `\u`. -/
def Token.isUnit : Token → Bool
  | unicode _ | long _ | illegalUnicode _ => true
  | _ => false

/-- A token, and what the first function and the other one read there. -/
structure Token.Read (tok : Token) (q : List UInt8) (x y : Except Failure Step) : Prop where
  content : Content q
  ranged : tok.Ranged
  long : tok.isLong = true → x = .error .syntaxError
  counted : tok.isLong = false → ∃ s, x = .ok s
  created : tok.isLong = false → y = .ok (tok.step q)

/-- The first function rejects a text, or reads what is no code point. -/
def Rejects (x : Except Failure Step) : Prop :=
  x = .error .syntaxError ∨ ∃ cp q, x = .ok (.hex cp q) ∧ 0x110000 ≤ cp

theorem positional_lt_of_length {digits : List UInt8} (h : digits.length = n) :
    positional Str.charToHex 16 0 digits < 16 ^ n := by
  have hlt := @positional_lt 0 digits
  rwa [Nat.zero_add, Nat.one_mul, h] at hlt

/-- An escape with a fixed number of digits. -/
theorem fixedToken_cases (legal illegal : ℕ → Token) (hn : n ≤ 6) (src : List UInt8) :
    (fixedToken legal illegal n src = none ∧ calcFixed n src = .error .syntaxError) ∨
      ∃ digits q tok, src = digits ++ q ∧ digits.length = n ∧
        (∀ c ∈ digits, (Str.charToHex c).isSome = true) ∧
        fixedToken legal illegal n src = some (tok, q) ∧
        (tok = legal (positional Str.charToHex 16 0 digits) ∨
          tok = illegal (positional Str.charToHex 16 0 digits)) ∧
        calcFixed n src = .ok (.hex (positional Str.charToHex 16 0 digits) q) := by
  rw [calcFixed_eq hn, fixedToken]
  cases hloose : fixedDigits Str.charToHex n src with
  | none =>
    have hnone : fixedDigits hexDigit n src = none := by
      rw [Option.eq_none_iff_forall_ne_some]
      rintro ⟨digits, q⟩ hsome
      obtain ⟨hsrc, hlength, hdigits⟩ := fixedDigits_eq_some.mp hsome
      have hsome' := fixedDigits_eq_some.mpr ⟨hsrc, hlength, fun c hc =>
        charToHex_isSome (hdigits c hc)⟩
      rw [hloose] at hsome'
      cases hsome'
    rw [hnone]
    exact Or.inl ⟨rfl, rfl⟩
  | some result =>
    obtain ⟨digits, q⟩ := result
    obtain ⟨hsrc, hlength, hdigits⟩ := fixedDigits_eq_some.mp hloose
    cases hproper : fixedDigits hexDigit n src with
    | none => exact Or.inr ⟨digits, q, _, hsrc, hlength, hdigits, rfl, Or.inr rfl, rfl⟩
    | some result =>
      obtain ⟨digits', q'⟩ := result
      obtain ⟨hsrc', hlength', hdigits'⟩ := fixedDigits_eq_some.mp hproper
      obtain ⟨rfl, rfl⟩ := List.append_inj (hsrc.symm.trans hsrc') (hlength.trans hlength'.symm)
      exact Or.inr ⟨digits, q, _, hsrc, hlength, hdigits, rfl,
        Or.inl (by rw [positional_eq hdigits']), rfl⟩

/-- An escape with digits between braces. -/
theorem bracedToken_cases (src : List UInt8) :
    (bracedToken src = none ∧ Rejects (calcBraced src)) ∨
      ∃ digits q tok u, src = digits ++ 125 :: q ∧
        (∀ c ∈ digits, (Str.charToHex c).isSome = true) ∧ u < 0x110000 ∧
        bracedToken src = some (tok, q) ∧
        (tok = .long u ∧ calcBraced src = .error .syntaxError ∨
          (tok = .unicode u ∨ tok = .illegalUnicode u) ∧ calcBraced src = .ok (.hex u q)) := by
  rw [calcBraced_eq, bracedToken]
  cases hloose : bracedDigits Str.charToHex src with
  | none =>
    have hnone : bracedDigits hexDigit src = none := by
      rw [Option.eq_none_iff_forall_ne_some]
      rintro ⟨digits, q⟩ hsome
      obtain ⟨hsrc, hne, hdigits⟩ := (bracedDigits_eq_some (by decide)).mp hsome
      have hsome' := (@bracedDigits_eq_some q src Str.charToHex digits (by decide)).mpr
        ⟨hsrc, hne, fun c hc => charToHex_isSome (hdigits c hc)⟩
      rw [hloose] at hsome'
      cases hsome'
    rw [hnone]
    exact Or.inl ⟨rfl, Or.inl rfl⟩
  | some result =>
    obtain ⟨digits, q⟩ := result
    obtain ⟨hsrc, hne, hdigits⟩ := (bracedDigits_eq_some (by decide)).mp hloose
    have hrejects : 0x110000 ≤ positional Str.charToHex 16 0 digits ∨ 6 < digits.length →
        Rejects (if 6 < digits.length then .error .syntaxError
          else .ok (.hex (positional Str.charToHex 16 0 digits) q)) := by
      intro h
      split_ifs with hlong
      · exact Or.inl rfl
      · exact Or.inr ⟨_, _, rfl, h.resolve_right hlong⟩
    cases hproper : bracedDigits hexDigit src with
    | none =>
      by_cases hbad : 0x110000 ≤ positional Str.charToHex 16 0 digits ∨ 6 < digits.length
      · exact Or.inl ⟨if_pos hbad, hrejects hbad⟩
      · obtain ⟨hlt, hshort⟩ := not_or.mp hbad
        exact Or.inr ⟨digits, q, _, _, hsrc, hdigits, not_le.mp hlt, if_neg hbad,
          Or.inr ⟨Or.inr rfl, if_neg hshort⟩⟩
    | some result =>
      obtain ⟨digits', q'⟩ := result
      obtain ⟨hsrc', hne', hdigits'⟩ := (bracedDigits_eq_some (by decide)).mp hproper
      have hsome := (@bracedDigits_eq_some q' src Str.charToHex digits' (by decide)).mpr
        ⟨hsrc', hne', fun c hc => charToHex_isSome (hdigits' c hc)⟩
      obtain ⟨rfl, rfl⟩ := Prod.mk.inj (Option.some.inj (hloose.symm.trans hsome))
      simp only [positional_eq hdigits']
      by_cases hlarge : 0x110000 ≤ positional Str.charToHex 16 0 digits
      · exact Or.inl ⟨if_pos hlarge, hrejects (Or.inl hlarge)⟩
      · refine Or.inr ⟨digits, q, _, _, hsrc, hdigits, not_le.mp hlarge, if_neg hlarge, ?_⟩
        by_cases hlong : 6 < digits.length
        · exact Or.inl ⟨if_neg (not_le.mpr hlong), if_pos hlong⟩
        · exact Or.inr ⟨Or.inl (if_pos (not_lt.mp hlong)), if_neg hlong⟩

/-- What is read at an escape with a fixed number of digits. -/
theorem fixed_read {legal illegal : ℕ → Token} (hn : n ≤ 6) (hcontent : Content src)
    (hlegal : ∀ u < 16 ^ n, (legal u).Ranged ∧ (legal u).isLong = false ∧
      (legal u).step = Step.hex u)
    (hillegal : ∀ u < 16 ^ n, (illegal u).Ranged ∧ (illegal u).isLong = false ∧
      (illegal u).step = Step.hex u) (h : fixedToken legal illegal n src = some (tok, q)) :
    tok.Read q (calcFixed n src) (createFixed n src) ∧ (∃ u, tok = legal u ∨ tok = illegal u) := by
  rcases fixedToken_cases legal illegal hn src with
    ⟨hnone, -⟩ | ⟨digits, q', tok', rfl, hlength, hdigits, hsome, htok, hcalc⟩
  · rw [hnone] at h
    cases h
  · obtain ⟨rfl, rfl⟩ := Prod.mk.inj (Option.some.inj (hsome.symm.trans h))
    have hlt := positional_lt_of_length hlength
    have hboth : tok'.Ranged ∧ tok'.isLong = false ∧
        tok'.step = Step.hex (positional Str.charToHex 16 0 digits) := by
      rcases htok with rfl | rfl
      · exact hlegal _ hlt
      · exact hillegal _ hlt
    obtain ⟨hranged, hlong, hstep⟩ := hboth
    refine ⟨⟨hcontent.digits hdigits, hranged, fun h => ?_, fun _ => ⟨_, hcalc⟩, fun _ => ?_⟩,
      _, htok⟩
    · rw [hlong] at h
      cases h
    · rw [hstep]
      exact fixed_alike hcalc

/-- What is read at an escape with digits between braces. -/
theorem braced_read (hcontent : Content src) (h : bracedToken src = some (tok, q)) :
    tok.Read q (calcBraced src) (createBraced src) ∧ tok.isUnit = true := by
  rcases bracedToken_cases src with
    ⟨hnone, -⟩ | ⟨digits, q', tok', u, rfl, hdigits, hu, hsome, htok⟩
  · rw [hnone] at h
    cases h
  · obtain ⟨rfl, rfl⟩ := Prod.mk.inj (Option.some.inj (hsome.symm.trans h))
    have hrest : Content q' := (hcontent.digits hdigits).tail (by decide) (by decide)
    rcases htok with ⟨rfl, hcalc⟩ | ⟨htok, hcalc⟩
    · exact ⟨⟨hrest, hu, fun _ => hcalc, by rintro ⟨⟩, by rintro ⟨⟩⟩, rfl⟩
    · have hcreate := braced_alike hcalc
      rcases htok with rfl | rfl
      · exact ⟨⟨hrest, hu, by rintro ⟨⟩, fun _ => ⟨_, hcalc⟩, fun _ => hcreate⟩, rfl⟩
      · exact ⟨⟨hrest, hu, by rintro ⟨⟩, fun _ => ⟨_, hcalc⟩, fun _ => hcreate⟩, rfl⟩

theorem simpleEscape_of_not_lt (h : ¬e.toNat < 0x80) : simpleEscape e = e := by
  unfold simpleEscape
  split_ifs <;> first | rfl | (subst e; exact absurd (by decide) h)

theorem simpleEscape_toNat_lt (h : e.toNat < 0x80) : (simpleEscape e).toNat < 0x80 := by
  by_contra hge
  have hle : simpleEscape e ≥ 0x80 := UInt8.le_iff_toNat_le.mpr (not_lt.mp hge)
  exact absurd (UInt8.le_iff_toNat_le.mp (simpleEscape_lt.mp hle)) (not_le.mpr h)

theorem isScalar_ascii (h : u < 0x80) : isScalar u = true := by
  rw [isScalar, Bool.or_eq_true, decide_eq_true_eq]
  exact Or.inl (by omega)

/-- What is read at a character behind a backslash. -/
theorem escaped_read (hcontent : Content (escapeMark :: e :: src))
    (h : escapedToken e src = some (tok, q)) :
    tok.Read q (plainChar e src) (plainChar (simpleEscape e) src) ∧ tok.isUnit = false := by
  obtain ⟨u, rest, hchar, hrest⟩ := hcontent.escaped
  have hscalar := character_scalar hchar
  have hplain := plainChar_character hchar
  simp only [escapedToken, hchar] at h
  by_cases hascii : e.toNat < 0x80
  · rw [character_ascii hascii] at hchar
    obtain ⟨rfl, rfl⟩ := Prod.mk.inj (Option.some.inj hchar)
    have hlt := simpleEscape_toNat_lt hascii
    have hsimple := plainChar_character (character_ascii hlt src)
    rw [if_neg (by omega)] at h
    by_cases hzero : e = 48
    · subst hzero
      by_cases hdigit : beginsDigit src = true
      · rw [if_neg fun h => h.2 hdigit, if_pos rfl] at h
        obtain ⟨rfl, rfl⟩ := Prod.mk.inj (Option.some.inj h)
        exact ⟨⟨hrest, rfl, by rintro ⟨⟩, fun _ => ⟨_, hplain⟩, fun _ => hsimple⟩, rfl⟩
      · rw [if_pos ⟨rfl, hdigit⟩] at h
        obtain ⟨rfl, rfl⟩ := Prod.mk.inj (Option.some.inj h)
        exact ⟨⟨hrest, rfl, by rintro ⟨⟩, fun _ => ⟨_, hplain⟩, fun _ => hsimple⟩, rfl⟩
    · rw [if_neg fun h => hzero h.1, if_neg hzero] at h
      split_ifs at h with hdigit hlow
      · obtain ⟨rfl, rfl⟩ := Prod.mk.inj (Option.some.inj h)
        have hsame : simpleEscape e = e := by
          have hle := UInt8.le_iff_toNat_le.mp hdigit.2
          unfold simpleEscape
          split_ifs <;> first | rfl | (subst e; exact absurd hle (by decide))
        rw [hsame]
        exact ⟨⟨hrest, hscalar, by rintro ⟨⟩, fun _ => ⟨_, hplain⟩, fun _ => hplain⟩, rfl⟩
      · obtain ⟨rfl, rfl⟩ := Prod.mk.inj (Option.some.inj h)
        exact ⟨⟨hrest, isScalar_ascii hlt, by rintro ⟨⟩, fun _ => ⟨_, hplain⟩, fun _ => hsimple⟩,
          rfl⟩
      · exact absurd (UInt8.lt_iff_toNat_lt.mpr hascii) hlow
  · rw [simpleEscape_of_not_lt hascii]
    have hnot : ∀ c : UInt8, c.toNat < 0x80 → e ≠ c := by
      rintro c hc rfl
      exact hascii hc
    have hdigit : ¬(48 ≤ e ∧ e ≤ 57) := fun h => hascii
      ((UInt8.le_iff_toNat_le.mp h.2).trans_lt (by decide))
    have hlow : ¬e < 128 := fun h => hascii (UInt8.lt_iff_toNat_lt.mp h)
    have hzero : ¬(e = 48 ∧ ¬beginsDigit src = true) := fun h => hnot 48 (by decide) h.1
    simp only [if_neg hzero, if_neg (hnot 48 (by decide)), if_neg hdigit, if_neg hlow] at h
    split_ifs at h
    · obtain ⟨rfl, rfl⟩ := Prod.mk.inj (Option.some.inj h)
      exact ⟨⟨hrest, hscalar, by rintro ⟨⟩, fun _ => ⟨_, hplain⟩, fun _ => hplain⟩, rfl⟩
    · obtain ⟨rfl, rfl⟩ := Prod.mk.inj (Option.some.inj h)
      exact ⟨⟨hrest, hscalar, by rintro ⟨⟩, fun _ => ⟨_, hplain⟩, fun _ => hplain⟩, rfl⟩

theorem escapedToken_ne_none (hcontent : Content (escapeMark :: e :: src)) :
    escapedToken e src ≠ none := by
  obtain ⟨u, rest, hchar, -⟩ := hcontent.escaped
  simp only [escapedToken, hchar]
  split_ifs <;> exact Option.some_ne_none _

/-- The text behind a line continuation. -/
theorem Content.skipLineFeed (h : Content p) : Content (skipLineFeed p) := by
  unfold Literal.skipLineFeed
  split_ifs with hfeed
  · cases p with
    | nil => cases hfeed
    | cons c rest =>
      obtain rfl := Option.some.inj hfeed
      exact h.tail (by decide) (by decide)
  · exact h

/-- What is read behind a backslash. -/
theorem escape_read (hcontent : Content (escapeMark :: e :: src))
    (h : escapeToken e src = some (tok, q)) :
    tok.Read q (calcEscape e src) (createEscape e src) ∧ (e = 117 ↔ tok.isUnit = true) := by
  unfold escapeToken at h
  unfold calcEscape createEscape
  split_ifs at h ⊢ with hu hbrace hx hcr hlf
  · subst hu
    obtain ⟨hread, u, htok⟩ := fixed_read (by omega) (hcontent.escaped_ascii (by decide))
      (fun u hu => ⟨hu.trans (by decide), rfl, rfl⟩)
      (fun u hu => ⟨hu.trans (by decide), rfl, rfl⟩) h
    refine ⟨hread, iff_of_true rfl ?_⟩
    rcases htok with rfl | rfl <;> rfl
  · subst hu
    have hsrc := hcontent.escaped_ascii (by decide)
    obtain ⟨c, rest, rfl⟩ : ∃ c rest, src = c :: rest := by
      cases src with
      | nil => simp at hbrace
      | cons c rest => exact ⟨c, rest, rfl⟩
    obtain rfl : c = 123 := by simpa using hbrace
    obtain ⟨hread, hunit⟩ := braced_read (hsrc.tail (by decide) (by decide)) h
    exact ⟨hread, iff_of_true rfl hunit⟩
  · subst hx
    obtain ⟨hread, u, htok⟩ := fixed_read (by omega) (hcontent.escaped_ascii (by decide))
      (fun u hu => ⟨hu, rfl, rfl⟩) (fun u hu => ⟨hu, rfl, rfl⟩) h
    refine ⟨hread, iff_of_false hu ?_⟩
    rcases htok with rfl | rfl <;> exact Bool.false_ne_true
  · subst hcr
    have hsrc := hcontent.escaped_ascii (by decide)
    obtain ⟨rfl, rfl⟩ := Prod.mk.inj (Option.some.inj h)
    exact ⟨⟨hsrc.skipLineFeed, trivial, by rintro ⟨⟩, fun _ => ⟨_, rfl⟩, fun _ => rfl⟩,
      iff_of_false (by decide) Bool.false_ne_true⟩
  · subst hlf
    obtain ⟨rfl, rfl⟩ := Prod.mk.inj (Option.some.inj h)
    exact ⟨⟨hcontent.escaped_ascii (by decide), trivial, by rintro ⟨⟩, fun _ => ⟨_, rfl⟩,
      fun _ => rfl⟩, iff_of_false (by decide) Bool.false_ne_true⟩
  · obtain ⟨hread, hunit⟩ := escaped_read hcontent h
    exact ⟨hread, iff_of_false hu (by simp [hunit])⟩

/-- A text of a literal that begins with no token is rejected. -/
theorem escape_rejects (hcontent : Content (escapeMark :: e :: src))
    (h : escapeToken e src = none) : Rejects (calcEscape e src) := by
  unfold escapeToken at h
  unfold calcEscape
  split_ifs at h ⊢
  · rcases fixedToken_cases .unicode .illegalUnicode (n := 4) (by omega) src with
      ⟨-, hcalc⟩ | ⟨digits, q, tok, -, -, -, hsome, -⟩
    · exact Or.inl hcalc
    · rw [h] at hsome
      cases hsome
  · rcases bracedToken_cases src.tail with ⟨-, hcalc⟩ | ⟨digits, q, tok, u, -, -, -, hsome, -⟩
    · exact hcalc
    · rw [h] at hsome
      cases hsome
  · rcases fixedToken_cases .hex .illegalHex (n := 2) (by omega) src with
      ⟨-, hcalc⟩ | ⟨digits, q, tok, -, -, -, hsome, -⟩
    · exact Or.inl hcalc
    · rw [h] at hsome
      cases hsome
  · exact absurd h (escapedToken_ne_none hcontent)

/-- A text of a literal begins with a backslash and a character, or with another character. -/
theorem Content.cases (h : Content p) (hne : p ≠ []) :
    (∃ e src, p = escapeMark :: e :: src) ∨ ∃ c src, p = c :: src ∧ c ≠ escapeMark := by
  obtain ⟨c, src, rfl⟩ := List.exists_cons_of_ne_nil hne
  by_cases hescape : c = escapeMark
  · subst hescape
    obtain ⟨u, q, hchar, -⟩ := h.escaped
    cases src with
    | nil => cases hchar
    | cons e src => exact Or.inl ⟨e, src, rfl⟩
  · exact Or.inr ⟨c, src, rfl, hescape⟩

theorem token_plain (h : c ≠ escapeMark) : token (c :: src) =
    if c = 13 then some (.carriageReturn (src.head? = some 10), src)
    else (character (c :: src)).map fun result => (.char result.1, result.2) := by
  cases src <;> simp [token, h]

theorem beginsUnicode_escape (e : UInt8) (src : List UInt8) :
    beginsUnicode (escapeMark :: e :: src) = true ↔ e = 117 := by
  simp [beginsUnicode]

theorem beginsUnicode_plain (h : c ≠ escapeMark) (src : List UInt8) :
    beginsUnicode (c :: src) = false := by
  simp [beginsUnicode, h]

/-- What both functions read at a token. -/
theorem token_read (hcontent : Content p) (h : token p = some (tok, q)) :
    tok.Read q (calcStep p) (createStep p) ∧ (beginsUnicode p = true ↔ tok.isUnit = true) := by
  have hne : p ≠ [] := by
    rintro rfl
    cases h
  rcases hcontent.cases hne with ⟨e, src, rfl⟩ | ⟨c, src, rfl, hescape⟩
  · obtain ⟨hread, hunit⟩ := escape_read hcontent h
    exact ⟨hread, (beginsUnicode_escape e src).trans hunit⟩
  · rw [calcStep_plain hescape, createStep_plain hescape, beginsUnicode_plain hescape]
    rw [token_plain hescape] at h
    obtain ⟨u, rest, hchar, hrest⟩ := hcontent.first hescape
    have hplain := plainChar_character hchar
    split_ifs at h with hcr
    · subst hcr
      rw [character_ascii (by decide)] at hchar
      obtain ⟨rfl, rfl⟩ := Prod.mk.inj (Option.some.inj hchar)
      obtain ⟨rfl, rfl⟩ := Prod.mk.inj (Option.some.inj h)
      exact ⟨⟨hrest, trivial, by rintro ⟨⟩, fun _ => ⟨_, hplain⟩, fun _ => hplain⟩,
        iff_of_false Bool.false_ne_true Bool.false_ne_true⟩
    · rw [hchar] at h
      obtain ⟨rfl, rfl⟩ := Prod.mk.inj (Option.some.inj h)
      exact ⟨⟨hrest, character_scalar hchar, by rintro ⟨⟩, fun _ => ⟨_, hplain⟩, fun _ => hplain⟩,
        iff_of_false Bool.false_ne_true Bool.false_ne_true⟩

theorem token_rejects (hcontent : Content p) (hne : p ≠ []) (h : token p = none) :
    Rejects (calcStep p) := by
  rcases hcontent.cases hne with ⟨e, src, rfl⟩ | ⟨c, src, rfl, hescape⟩
  · exact escape_rejects hcontent h
  · rw [token_plain hescape] at h
    obtain ⟨u, rest, hchar, -⟩ := hcontent.first hescape
    rw [hchar] at h
    split_ifs at h
    cases h

end Njs.Literal
