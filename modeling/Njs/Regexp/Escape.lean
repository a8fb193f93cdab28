import Mathlib.Data.List.Count
import Njs.Result

/-!
# Sources of regular expressions

The library of regular expressions rejects a closing bracket outside a class, and it is given a
text that ends with a zero byte. `njs_regexp_escape` counts what it has to replace in a first pass
over the source, and writes the text in a second one.
-/

namespace Njs.Regexp

/-- `[` -/
def openBracket : UInt8 := 91

/-- `]` -/
def closeBracket : UInt8 := 93

/-- `\` -/
def backslash : UInt8 := 92

/-- `"\\u0000"` -/
def zeroEscape : List UInt8 := [92, 117, 48, 48, 48, 48]

variable (size : ℕ)

/-- The first pass of `njs_regexp_escape`: how many brackets and zeros there are to replace. -/
def countPass (inClass : Bool) : List UInt8 → ℕ × ℕ
  | [] => (0, 0)
  | c :: rest =>
    if c = openBracket then countPass true rest
    else if c = closeBracket then
      let (brackets, zeros) := countPass false rest
      (if inClass then brackets else brackets + 1, zeros)
    else if c = backslash then
      match rest with
      | [] => (0, 0)
      | e :: rest =>
        let (brackets, zeros) := countPass inClass rest
        (brackets, if e = 0 then zeros + 1 else zeros)
    else
      let (brackets, zeros) := countPass inClass rest
      (brackets, if c = 0 then zeros + 1 else zeros)

/-- Bytes are written after others, in a block of some size. -/
def put (dst bytes : List UInt8) : Result (List UInt8) :=
  if dst.length + bytes.length ≤ size then .ok (dst ++ bytes) else .error .fault

/-- The second pass of `njs_regexp_escape`. -/
def writePass (inClass : Bool) : List UInt8 → List UInt8 → Result (List UInt8)
  | [], dst => .ok dst
  | c :: rest, dst =>
    if c = openBracket then do
      let dst ← put size dst [c]
      writePass true rest dst
    else if c = closeBracket then do
      let dst ← if inClass then .ok dst else put size dst [backslash]
      let dst ← put size dst [c]
      writePass false rest dst
    else if c = backslash then do
      let dst ← put size dst [c]
      match rest with
      | [] => .ok dst
      | e :: rest => do
        let dst ← if e ≠ 0 then put size dst [e] else put size dst zeroEscape
        writePass inClass rest dst
    else do
      let dst ← if c = 0 then put size dst zeroEscape else put size dst [c]
      writePass inClass rest dst

/-- `njs_regexp_escape`. -/
def escape (env : Env) (text : List UInt8) : Result (List UInt8) :=
  let (brackets, zeros) := countPass false text
  if brackets = 0 ∧ zeros = 0 then .ok text
  else
    let size := text.length + brackets + zeros * zeroEscape.length
    if env.mpAlloc size then writePass size false text [] else .error (.throw .memoryError)

/-- The source in `njs_regexp_pattern_create`, before it is compiled. -/
def patternSource (text flags : List UInt8) : List UInt8 := [47] ++ text ++ [0] ++ flags ++ [0]

/-- The text that `njs_regexp_pattern_compile` compiles: up to a zero byte. -/
def compileText (source : List UInt8) : List UInt8 := (source.drop 1).takeWhile (· ≠ 0)

/-! ## Tokens -/

/-- The tokens of a source. -/
inductive Token
  | plain (c : UInt8)
  | escaped (e : UInt8)
  /-- A backslash at the end. -/
  | loneBackslash
  deriving DecidableEq

/-- Whether a class is open after a byte that is not escaped. -/
def classAfter (inClass : Bool) (c : UInt8) : Bool :=
  if c = openBracket then true else if c = closeBracket then false else inClass

/-- The tokens of a source, each with whether it is in a class. -/
def tokens (inClass : Bool) : List UInt8 → List (Bool × Token)
  | [] => []
  | c :: rest =>
    if c = backslash then
      match rest with
      | [] => [(inClass, .loneBackslash)]
      | e :: rest => (inClass, .escaped e) :: tokens inClass rest
    else (inClass, .plain c) :: tokens (classAfter inClass c) rest

/-- The text of a token. -/
def Token.spell : Token → List UInt8
  | plain c => [c]
  | escaped e => [backslash, e]
  | loneBackslash => [backslash]

/-- The text of some tokens. -/
def spellAll (ts : List (Bool × Token)) : List UInt8 := ts.flatMap (·.2.spell)

/-- A closing bracket outside a class. -/
def stray (t : Bool × Token) : Bool := decide (t = (false, .plain closeBracket))

/-- A zero byte, escaped or not. -/
def isZero (t : Bool × Token) : Bool := decide (t.2 = .plain 0 ∨ t.2 = .escaped 0)

/-- Bytes that are not escaped. -/
def plainAll (inClass : Bool) (cs : List UInt8) : List (Bool × Token) :=
  cs.map fun c => (inClass, .plain c)

/-- The tokens of `\u0000`. -/
def zeroTokens (inClass : Bool) : List (Bool × Token) :=
  (inClass, .escaped 117) :: plainAll inClass [48, 48, 48, 48]

/-- What a token is replaced by. An escaped zero byte leaves a backslash that is escaped. -/
def rewrite (t : Bool × Token) : List (Bool × Token) :=
  if stray t then [(false, .escaped closeBracket)]
  else if t.2 = .plain 0 then zeroTokens t.1
  else if t.2 = .escaped 0 then (t.1, .escaped backslash) :: plainAll t.1 [117, 48, 48, 48, 48]
  else [t]

/-- Each zero byte, escaped or not, is replaced by `\u0000`. -/
def rewriteZeros (t : Bool × Token) : List (Bool × Token) :=
  if stray t then [(false, .escaped closeBracket)]
  else if isZero t then zeroTokens t.1
  else [t]

variable {inClass : Bool} {text : List UInt8} {t : Bool × Token} {ts : List (Bool × Token)}

/-! ## The passes -/

@[simp] theorem stray_plain (inClass : Bool) (c : UInt8) :
    stray (inClass, .plain c) = (!inClass && decide (c = closeBracket)) := by
  cases inClass <;> simp [stray]

@[simp] theorem stray_escaped (inClass : Bool) (e : UInt8) :
    stray (inClass, .escaped e) = false := by
  simp [stray]

@[simp] theorem isZero_plain (inClass : Bool) (c : UInt8) :
    isZero (inClass, .plain c) = decide (c = 0) := by
  simp [isZero]

@[simp] theorem isZero_escaped (inClass : Bool) (e : UInt8) :
    isZero (inClass, .escaped e) = decide (e = 0) := by
  simp [isZero]

/-- What a byte that is not a backslash is. -/
theorem plain_cases (c : UInt8) (h : c ≠ backslash) :
    c = openBracket ∨ c = closeBracket ∨ c = 0 ∨
      (c ≠ openBracket ∧ c ≠ closeBracket ∧ c ≠ backslash ∧ c ≠ 0) := by
  by_cases hopen : c = openBracket
  · exact Or.inl hopen
  · by_cases hclose : c = closeBracket
    · exact Or.inr (Or.inl hclose)
    · by_cases hzero : c = 0
      · exact Or.inr (Or.inr (Or.inl hzero))
      · exact Or.inr (Or.inr (Or.inr ⟨hopen, hclose, h, hzero⟩))

theorem countPass_plain (inClass : Bool) {c : UInt8} (h : c ≠ backslash) (rest : List UInt8) :
    countPass inClass (c :: rest) =
      ((countPass (classAfter inClass c) rest).1 + if stray (inClass, .plain c) then 1 else 0,
        (countPass (classAfter inClass c) rest).2 + if c = 0 then 1 else 0) := by
  rw [countPass.eq_def]
  rcases plain_cases c h with rfl | rfl | rfl | ⟨hopen, hclose, -, hzero⟩
  · simp [classAfter, openBracket, closeBracket]
  · cases inClass <;> simp [classAfter, openBracket, closeBracket]
  · simp [classAfter, openBracket, closeBracket, backslash]
  · simp [classAfter, hopen, hclose, h, hzero]

theorem countPass_escaped (inClass : Bool) (e : UInt8) (rest : List UInt8) :
    countPass inClass (backslash :: e :: rest) =
      ((countPass inClass rest).1, (countPass inClass rest).2 + if e = 0 then 1 else 0) := by
  rw [countPass.eq_def]
  by_cases h : e = 0
  · simp [backslash, openBracket, closeBracket, h]
  · simp [backslash, openBracket, closeBracket, h]

/-- The first pass counts the tokens that are replaced. -/
theorem countPass_eq (inClass : Bool) (text : List UInt8) :
    countPass inClass text =
      ((tokens inClass text).countP stray, (tokens inClass text).countP isZero) := by
  fun_induction tokens inClass text with
  | case1 => rfl
  | case2 inClass => simp [countPass, backslash, openBracket, closeBracket, stray, isZero]
  | case3 inClass e rest ih => simp [countPass_escaped, ih, List.countP_cons]
  | case4 inClass c rest h ih => simp [countPass_plain inClass h, ih, List.countP_cons]

theorem put_of_le {dst bytes : List UInt8} (h : dst.length + bytes.length ≤ size) :
    put size dst bytes = .ok (dst ++ bytes) := if_pos h

@[simp] theorem spellAll_append (ts us : List (Bool × Token)) :
    spellAll (ts ++ us) = spellAll ts ++ spellAll us := List.flatMap_append

theorem writePass_plain (inClass : Bool) {c : UInt8} (h : c ≠ backslash) (rest : List UInt8)
    {dst : List UInt8}
    (hle : dst.length + (spellAll (rewrite (inClass, .plain c))).length ≤ size) :
    writePass size inClass (c :: rest) dst =
      writePass size (classAfter inClass c) rest
        (dst ++ spellAll (rewrite (inClass, .plain c))) := by
  rw [writePass.eq_def]
  rcases plain_cases c h with rfl | rfl | rfl | ⟨hopen, hclose, -, hzero⟩
  · have hspell : spellAll (rewrite (inClass, .plain openBracket)) = [openBracket] := by
      cases inClass <;> rfl
    rw [hspell] at hle ⊢
    simp only [if_true, put_of_le size hle, ok_bind]
    rfl
  · have hopen : closeBracket ≠ openBracket := by decide
    cases inClass with
    | true =>
      have hspell : spellAll (rewrite (true, .plain closeBracket)) = [closeBracket] := rfl
      rw [hspell] at hle ⊢
      simp only [if_neg hopen, if_true, put_of_le size hle, ok_bind]
      rfl
    | false =>
      have hspell : spellAll (rewrite (false, .plain closeBracket)) =
          [backslash] ++ [closeBracket] := rfl
      rw [hspell, List.length_append] at hle
      rw [hspell, ← List.append_assoc]
      have hfirst := put_of_le size (show dst.length + [backslash].length ≤ size by omega)
      have hsecond := put_of_le size
        (show (dst ++ [backslash]).length + [closeBracket].length ≤ size by
          rw [List.length_append]; omega)
      simp only [if_neg hopen, if_true, Bool.false_eq_true, if_false, hfirst, hsecond, ok_bind]
      rfl
  · have hopen : (0 : UInt8) ≠ openBracket := by decide
    have hclose : (0 : UInt8) ≠ closeBracket := by decide
    have hspell : spellAll (rewrite (inClass, .plain 0)) = zeroEscape := by
      cases inClass <;> rfl
    rw [hspell] at hle ⊢
    simp only [classAfter, if_neg hopen, if_neg hclose, if_neg h, if_true,
      put_of_le size hle, ok_bind]
  · have hspell : spellAll (rewrite (inClass, .plain c)) = [c] := by
      simp [rewrite, spellAll, Token.spell, hclose, hzero]
    rw [hspell] at hle ⊢
    simp only [classAfter, if_neg hopen, if_neg hclose, if_neg h, if_neg hzero,
      put_of_le size hle, ok_bind]

theorem writePass_escaped (inClass : Bool) (e : UInt8) (rest : List UInt8) {dst : List UInt8}
    (hle : dst.length + (spellAll (rewrite (inClass, .escaped e))).length ≤ size) :
    writePass size inClass (backslash :: e :: rest) dst =
      writePass size inClass rest (dst ++ spellAll (rewrite (inClass, .escaped e))) := by
  have hopen : backslash ≠ openBracket := by decide
  have hclose : backslash ≠ closeBracket := by decide
  have hspell : spellAll (rewrite (inClass, .escaped e)) =
      [backslash] ++ if e ≠ 0 then [e] else zeroEscape := by
    by_cases he : e = 0
    · rw [he]
      cases inClass <;> rfl
    · simp [rewrite, spellAll, Token.spell, he]
  rw [hspell, List.length_append] at hle
  have hfirst := put_of_le size (show dst.length + [backslash].length ≤ size by omega)
  rw [writePass.eq_def, hspell, ← List.append_assoc]
  simp only [if_neg hopen, if_neg hclose, if_true, hfirst, ok_bind]
  by_cases he : e ≠ 0
  · rw [if_pos he] at hle ⊢
    have hsecond := put_of_le size (show (dst ++ [backslash]).length + [e].length ≤ size by
      rw [List.length_append]; omega)
    rw [if_pos he, hsecond, ok_bind]
  · rw [if_neg he] at hle ⊢
    have hsecond := put_of_le size
      (show (dst ++ [backslash]).length + zeroEscape.length ≤ size by
        rw [List.length_append]; omega)
    rw [if_neg he, hsecond, ok_bind]

/-- The text that the second pass writes. -/
def written (inClass : Bool) (text : List UInt8) : List UInt8 :=
  spellAll ((tokens inClass text).flatMap rewrite)

theorem writePass_eq (inClass : Bool) {text dst : List UInt8}
    (h : dst.length + (written inClass text).length ≤ size) :
    writePass size inClass text dst = .ok (dst ++ written inClass text) := by
  unfold written at h ⊢
  fun_induction tokens inClass text generalizing dst with
  | case1 => simp [writePass, spellAll]
  | case2 inClass =>
    have hopen : backslash ≠ openBracket := by decide
    have hclose : backslash ≠ closeBracket := by decide
    have hspell : spellAll ([(inClass, Token.loneBackslash)].flatMap rewrite) = [backslash] := by
      cases inClass <;> rfl
    rw [hspell] at h ⊢
    rw [writePass, if_neg hopen, if_neg hclose, if_pos rfl, put_of_le size h]
    rfl
  | case3 inClass e rest ih =>
    rw [List.flatMap_cons, spellAll_append] at h ⊢
    rw [List.length_append] at h
    rw [writePass_escaped size inClass e rest (by omega), ih, List.append_assoc]
    rw [List.length_append]
    omega
  | case4 inClass c rest hne ih =>
    rw [List.flatMap_cons, spellAll_append] at h ⊢
    rw [List.length_append] at h
    rw [writePass_plain size inClass hne rest (by omega), ih, List.append_assoc]
    rw [List.length_append]
    omega

/-! ## What is written -/

/-- What a token is replaced by. -/
theorem rewrite_cases (t : Bool × Token) :
    (t = (false, .plain closeBracket) ∧ rewrite t = [(false, .escaped closeBracket)]) ∨
    (∃ inClass, t = (inClass, .plain 0) ∧ rewrite t = zeroTokens inClass) ∨
    (∃ inClass, t = (inClass, .escaped 0) ∧
      rewrite t = (inClass, .escaped backslash) :: plainAll inClass [117, 48, 48, 48, 48]) ∨
    (stray t = false ∧ isZero t = false ∧ rewrite t = [t]) := by
  unfold rewrite
  by_cases hstray : stray t = true
  · left
    rw [if_pos hstray]
    exact ⟨of_decide_eq_true hstray, rfl⟩
  · rw [if_neg hstray]
    right
    by_cases hzero : t.2 = .plain 0
    · left
      rw [if_pos hzero]
      exact ⟨t.1, Prod.ext rfl hzero, rfl⟩
    · rw [if_neg hzero]
      right
      by_cases hescaped : t.2 = .escaped 0
      · left
        rw [if_pos hescaped]
        exact ⟨t.1, Prod.ext rfl hescaped, rfl⟩
      · right
        rw [if_neg hescaped]
        refine ⟨eq_false_of_ne_true hstray, ?_, rfl⟩
        exact decide_eq_false (not_or.mpr ⟨hzero, hescaped⟩)

/-- The bytes of a token that is replaced are counted. -/
theorem rewrite_length (t : Bool × Token) : (spellAll (rewrite t)).length ≤
    t.2.spell.length + (if stray t then 1 else 0) + if isZero t then 6 else 0 := by
  rcases rewrite_cases t with ⟨rfl, -⟩ | ⟨inClass, rfl, -⟩ | ⟨inClass, rfl, -⟩ | ⟨-, -, h⟩
  · decide
  · cases inClass <;> decide
  · cases inClass <;> decide
  · rw [h, spellAll, List.flatMap_singleton]
    omega

/-- The text of the tokens is the source. -/
theorem spellAll_tokens (inClass : Bool) (text : List UInt8) :
    spellAll (tokens inClass text) = text := by
  fun_induction tokens inClass text with
  | case1 => rfl
  | case2 inClass => rfl
  | case3 inClass e rest ih =>
    rw [spellAll, List.flatMap_cons, ← spellAll, ih]
    rfl
  | case4 inClass c rest h ih =>
    rw [spellAll, List.flatMap_cons, ← spellAll, ih]
    rfl

theorem spellAll_rewrite_length (ts : List (Bool × Token)) :
    (spellAll (ts.flatMap rewrite)).length ≤
      (spellAll ts).length + ts.countP stray + ts.countP isZero * 6 := by
  induction ts with
  | nil => exact Nat.zero_le _
  | cons t ts ih =>
    have hone := rewrite_length t
    have hcons : spellAll (t :: ts) = t.2.spell ++ spellAll ts := List.flatMap_cons
    rw [List.flatMap_cons, spellAll_append, hcons, List.length_append, List.length_append,
      List.countP_cons, List.countP_cons]
    split_ifs at hone ⊢ <;> omega

/-- The block is large enough for what is written. -/
theorem written_length (inClass : Bool) (text : List UInt8) : (written inClass text).length ≤
    text.length + (countPass inClass text).1 + (countPass inClass text).2 * 6 := by
  have hlength := spellAll_rewrite_length (tokens inClass text)
  rw [spellAll_tokens] at hlength
  rw [countPass_eq]
  exact hlength

/-! ## The tokens of what is written -/

theorem tokens_plain {c : UInt8} (h : c ≠ backslash) (inClass : Bool) (rest : List UInt8) :
    tokens inClass (c :: rest) = (inClass, .plain c) :: tokens (classAfter inClass c) rest := by
  rw [tokens.eq_def]
  exact if_neg h

theorem tokens_escaped (inClass : Bool) (e : UInt8) (rest : List UInt8) :
    tokens inClass (backslash :: e :: rest) = (inClass, .escaped e) :: tokens inClass rest := by
  rw [tokens, if_pos rfl]

/-- Bytes that mean nothing are tokens of their own. -/
theorem tokens_plainAll {cs : List UInt8}
    (h : ∀ c ∈ cs, c ≠ backslash ∧ c ≠ openBracket ∧ c ≠ closeBracket) (inClass : Bool)
    (rest : List UInt8) :
    tokens inClass (cs ++ rest) = plainAll inClass cs ++ tokens inClass rest := by
  induction cs with
  | nil => rfl
  | cons c cs ih =>
    obtain ⟨hback, hopen, hclose⟩ := h c List.mem_cons_self
    have hafter : classAfter inClass c = inClass := by
      rw [classAfter, if_neg hopen, if_neg hclose]
    rw [List.cons_append, tokens_plain hback, hafter,
      ih fun d hd => h d (List.mem_cons_of_mem c hd)]
    rfl

/-- What a byte that is not a backslash is replaced by is scanned as its tokens. -/
theorem tokens_rewrite_plain {c : UInt8} (h : c ≠ backslash) (inClass : Bool)
    (rest : List UInt8) :
    tokens inClass (spellAll (rewrite (inClass, .plain c)) ++ rest) =
      rewrite (inClass, .plain c) ++ tokens (classAfter inClass c) rest := by
  rcases rewrite_cases (inClass, .plain c) with ⟨heq, hrw⟩ | ⟨inClass', heq, hrw⟩ | ⟨_, heq, -⟩ |
    ⟨-, -, hrw⟩
  · obtain ⟨rfl, hc⟩ := Prod.mk.inj heq
    obtain rfl := Token.plain.inj hc
    rw [hrw]
    exact tokens_escaped false closeBracket rest
  · obtain ⟨rfl, hc⟩ := Prod.mk.inj heq
    obtain rfl := Token.plain.inj hc
    have hdigits : ∀ c ∈ ([48, 48, 48, 48] : List UInt8),
        c ≠ backslash ∧ c ≠ openBracket ∧ c ≠ closeBracket := by
      simp [backslash, openBracket, closeBracket]
    rw [hrw]
    exact (tokens_escaped inClass 117 _).trans
      (congrArg _ (tokens_plainAll hdigits inClass rest))
  · obtain ⟨-, ⟨⟩⟩ := Prod.mk.inj heq
  · rw [hrw]
    exact tokens_plain h inClass rest

theorem tokens_rewrite_escaped (e : UInt8) (inClass : Bool) (rest : List UInt8) :
    tokens inClass (spellAll (rewrite (inClass, .escaped e)) ++ rest) =
      rewrite (inClass, .escaped e) ++ tokens inClass rest := by
  rcases rewrite_cases (inClass, .escaped e) with ⟨heq, -⟩ | ⟨_, heq, -⟩ | ⟨inClass', heq, hrw⟩ |
    ⟨-, -, hrw⟩
  · obtain ⟨-, ⟨⟩⟩ := Prod.mk.inj heq
  · obtain ⟨-, ⟨⟩⟩ := Prod.mk.inj heq
  · obtain ⟨rfl, he⟩ := Prod.mk.inj heq
    obtain rfl := Token.escaped.inj he
    have hdigits : ∀ c ∈ ([117, 48, 48, 48, 48] : List UInt8),
        c ≠ backslash ∧ c ≠ openBracket ∧ c ≠ closeBracket := by
      simp [backslash, openBracket, closeBracket]
    rw [hrw]
    exact (tokens_escaped inClass backslash _).trans
      (congrArg _ (tokens_plainAll hdigits inClass rest))
  · rw [hrw]
    exact tokens_escaped inClass e rest

/-- What is written is scanned as the tokens that the source is rewritten to. -/
theorem tokens_written (inClass : Bool) (text : List UInt8) :
    tokens inClass (written inClass text) = (tokens inClass text).flatMap rewrite := by
  unfold written
  fun_induction tokens inClass text with
  | case1 => rfl
  | case2 inClass => cases inClass <;> rfl
  | case3 inClass e rest ih =>
    rw [List.flatMap_cons, spellAll_append, tokens_rewrite_escaped, ih]
  | case4 inClass c rest h ih =>
    rw [List.flatMap_cons, spellAll_append, tokens_rewrite_plain h, ih]

/-- No token that is replaced is left. -/
theorem rewrite_done {t' : Bool × Token} (h : t' ∈ rewrite t) :
    stray t' = false ∧ isZero t' = false := by
  rcases rewrite_cases t with ⟨-, hrw⟩ | ⟨inClass, -, hrw⟩ | ⟨inClass, -, hrw⟩ |
    ⟨hstray, hzero, hrw⟩
  · rw [hrw] at h
    obtain rfl := List.mem_singleton.mp h
    decide
  · rw [hrw] at h
    revert h
    cases inClass <;> simp [zeroTokens, plainAll] <;> rintro (rfl | rfl) <;> decide
  · rw [hrw] at h
    revert h
    cases inClass <;> simp [plainAll] <;> rintro (rfl | rfl | rfl) <;> decide
  · rw [hrw] at h
    obtain rfl := List.mem_singleton.mp h
    exact ⟨hstray, hzero⟩

/-- Tokens that are not to be replaced stay. -/
theorem rewrite_same (hstray : stray t = false) (hzero : isZero t = false) : rewrite t = [t] := by
  rcases rewrite_cases t with ⟨rfl, -⟩ | ⟨inClass, rfl, -⟩ | ⟨inClass, rfl, -⟩ | ⟨-, -, hrw⟩
  · cases hstray
  · cases hzero
  · cases hzero
  · exact hrw

/-- Nothing is left to replace. -/
theorem countPass_written (text : List UInt8) : countPass false (written false text) = (0, 0) := by
  have hdone : ∀ t ∈ (tokens false text).flatMap rewrite, stray t = false ∧ isZero t = false := by
    intro t ht
    obtain ⟨t', -, ht'⟩ := List.mem_flatMap.mp ht
    exact rewrite_done ht'
  rw [countPass_eq, tokens_written]
  congr 1
  · apply List.countP_eq_zero.mpr
    intro t ht
    rw [(hdone t ht).1]
    exact Bool.false_ne_true
  · apply List.countP_eq_zero.mpr
    intro t ht
    rw [(hdone t ht).2]
    exact Bool.false_ne_true

/-- If there is nothing to replace, the source is what would be written. -/
theorem written_same (h : countPass false text = (0, 0)) : written false text = text := by
  rw [countPass_eq] at h
  obtain ⟨hstray, hzero⟩ := Prod.mk.inj h
  have hsame : ∀ t ∈ tokens false text, rewrite t = [t] := by
    intro t ht
    apply rewrite_same
    · exact eq_false_of_ne_true (List.countP_eq_zero.mp hstray t ht)
    · exact eq_false_of_ne_true (List.countP_eq_zero.mp hzero t ht)
  unfold written
  rw [List.flatMap_def, List.map_congr_left hsame, ← List.flatMap_def, List.flatMap_singleton',
    spellAll_tokens]

theorem zero_notMem_spell (h : isZero t = false) : 0 ∉ t.2.spell := by
  obtain ⟨inClass, token⟩ := t
  cases token with
  | plain c =>
    rw [isZero_plain] at h
    simpa [Token.spell, eq_comm] using h
  | escaped e =>
    rw [isZero_escaped] at h
    simpa [Token.spell, backslash, eq_comm] using h
  | loneBackslash => simp [Token.spell, backslash]

/-- No zero byte is written. -/
theorem zero_notMem_written (text : List UInt8) : 0 ∉ written false text := by
  intro h
  obtain ⟨t, ht, hmem⟩ := List.mem_flatMap.mp h
  obtain ⟨t', -, ht'⟩ := List.mem_flatMap.mp ht
  exact zero_notMem_spell (rewrite_done ht').2 hmem

/-! ## The rewritten source -/

/-- The source is rewritten, inside the block that is allocated. -/
theorem escape_eq (env : Env) (text : List UInt8) :
    Returns env (escape env text) (· = written false text) := by
  unfold escape
  have hlength := written_length false text
  cases hcount : countPass false text with
  | mk brackets zeros =>
    rw [hcount] at hlength
    simp only
    split_ifs with hnone hgrant
    · obtain ⟨rfl, rfl⟩ := hnone
      exact Returns.ok rfl (written_same hcount).symm
    · have hfits : ([] : List UInt8).length + (written false text).length ≤
          text.length + brackets + zeros * zeroEscape.length := by
        rw [List.length_nil, Nat.zero_add]
        exact hlength
      exact Returns.ok (writePass_eq _ false hfits) rfl
    · exact Or.inr ⟨rfl, _, eq_false_of_ne_true hgrant⟩

theorem compileText_eq {text : List UInt8} (h : 0 ∉ text) (flags : List UInt8) :
    compileText (patternSource text flags) = text := by
  have hnonzero : ∀ c ∈ text, decide (c ≠ 0) = true := by
    intro c hc
    exact decide_eq_true fun hzero => h (hzero ▸ hc)
  have hsource : (patternSource text flags).drop 1 = text ++ 0 :: (flags ++ [0]) := by
    simp [patternSource]
  unfold compileText
  rw [hsource, List.takeWhile_append_of_pos hnonzero, List.takeWhile_cons_of_neg (by decide),
    List.append_nil]

/-- The rewritten source has no zero byte, and it is compiled to its end. Its tokens are those of
the source, with the zero bytes and the brackets outside classes replaced, and it is not rewritten
any more. -/
theorem escape_rewrites (env : Env) (text flags : List UInt8) :
    Returns env (escape env text) fun source =>
      0 ∉ source ∧ compileText (patternSource source flags) = source ∧
      tokens false source = (tokens false text).flatMap rewrite ∧
      escape env source = .ok source := by
  apply (escape_eq env text).mono
  rintro source rfl
  have hcount := countPass_written text
  have hzero := zero_notMem_written text
  refine ⟨hzero, compileText_eq hzero flags, tokens_written false text, ?_⟩
  unfold escape
  rw [hcount]
  exact if_pos ⟨rfl, rfl⟩

/-- The backslash of an escaped zero byte stays, and the one that is put after it is escaped. -/
theorem not_escape_rewriteZeros :
    ¬∀ (env : Env) (text : List UInt8), Returns env (escape env text) fun source =>
      tokens false source = (tokens false text).flatMap rewriteZeros := by
  intro h
  obtain ⟨source, hsource, htokens⟩ := (h ⟨fun _ => true, fun _ => 0⟩ [92, 0]).exists_ok
    fun _ => rfl
  obtain rfl := Except.ok.inj hsource
  revert htokens
  decide

end Njs.Regexp
