import Mathlib.Data.List.Basic

/-!
# Self-delimiting codes

A code whose decoder reads one codeword off the front of a sequence. The two
laws of `PrefixCode` say that decoding undoes encoding whatever follows, and that
a decoded symbol was really encoded there. Everything about whole messages,
unique decodability included, follows from these two laws alone.
-/

namespace Njs.Lib

/-- A code on symbols `α` over letters `β` whose codewords are read off the front
of a sequence. Invalid symbols are excluded by the choice of `α`. -/
structure PrefixCode (α β : Type) where
  /-- The codeword of a symbol. -/
  encode : α → List β
  /-- Read one codeword, returning its symbol and the letters after it. -/
  decode : List β → Option (α × List β)
  /-- Codewords are not empty, so a message of codewords is finite. -/
  encode_ne_nil : ∀ a, encode a ≠ []
  /-- A codeword is recognised whatever comes after it. -/
  decode_encode : ∀ a rest, decode (encode a ++ rest) = some (a, rest)
  /-- A recognised symbol is spelled by exactly the letters consumed. -/
  decode_sound : ∀ {p a rest}, decode p = some (a, rest) → p = encode a ++ rest

namespace PrefixCode

variable {α β : Type} (code : PrefixCode α β)

/-- The concatenated codewords of a message. -/
def encodeAll (message : List α) : List β := message.flatMap code.encode

@[simp] theorem encodeAll_nil : code.encodeAll [] = [] := rfl

@[simp] theorem encodeAll_cons (a : α) (message : List α) :
    code.encodeAll (a :: message) = code.encode a ++ code.encodeAll message := rfl

theorem encodeAll_append (left right : List α) :
    code.encodeAll (left ++ right) = code.encodeAll left ++ code.encodeAll right :=
  List.flatMap_append

/-- One step of decoding consumes at least one letter. -/
theorem decode_length_lt {p rest : List β} {a : α} (h : code.decode p = some (a, rest)) :
    rest.length < p.length := by
  have hlen := List.length_pos_of_ne_nil (code.encode_ne_nil a)
  rw [code.decode_sound h, List.length_append]
  omega

/-- Unique decodability: two messages with the same letters are the same message. -/
theorem encodeAll_injective : Function.Injective code.encodeAll := by
  intro left
  induction left with
  | nil =>
    intro right h
    cases right with
    | nil => rfl
    | cons b right =>
      have hnil : code.encode b = [] := (List.append_eq_nil_iff.mp h.symm).1
      exact absurd hnil (code.encode_ne_nil b)
  | cons a left ih =>
    intro right h
    cases right with
    | nil =>
      have hnil : code.encode a = [] := (List.append_eq_nil_iff.mp h).1
      exact absurd hnil (code.encode_ne_nil a)
    | cons b right =>
      have hdecode := code.decode_encode a (code.encodeAll left)
      rw [← encodeAll_cons, h, encodeAll_cons, code.decode_encode] at hdecode
      obtain ⟨rfl, hrest⟩ := Prod.mk.inj (Option.some.inj hdecode)
      rw [ih hrest.symm]

/-- A message begins with another one if its letters do. -/
theorem encodeAll_prefix_iff {left right : List α} :
    code.encodeAll left <+: code.encodeAll right ↔ left <+: right := by
  induction left generalizing right with
  | nil => simp
  | cons a left ih =>
    cases right with
    | nil => simp [code.encode_ne_nil a]
    | cons b right =>
      rw [List.cons_prefix_cons]
      constructor
      · rintro ⟨rest, hrest⟩
        have hdecode := code.decode_encode a (code.encodeAll left ++ rest)
        rw [← List.append_assoc, ← encodeAll_cons, hrest, encodeAll_cons,
          code.decode_encode] at hdecode
        obtain ⟨rfl, htail⟩ := Prod.mk.inj (Option.some.inj hdecode)
        exact ⟨rfl, ih.mp ⟨rest, htail.symm⟩⟩
      · rintro ⟨rfl, hpre⟩
        exact (List.prefix_append_right_inj _).mpr (ih.mpr hpre)

/-- A sequence is a message exactly when it is empty or begins with a codeword
that a message follows. -/
theorem mem_range_encodeAll_iff {p : List β} (hp : p ≠ []) {message : List α} :
    code.encodeAll message = p ↔
      ∃ a rest tail, code.decode p = some (a, rest) ∧ message = a :: tail ∧
        code.encodeAll tail = rest := by
  constructor
  · rintro rfl
    cases message with
    | nil => exact absurd rfl hp
    | cons a tail => exact ⟨a, _, tail, code.decode_encode a _, rfl, rfl⟩
  · rintro ⟨a, rest, tail, hdecode, rfl, rfl⟩
    exact (code.decode_sound hdecode).symm

end PrefixCode

end Njs.Lib
