import Njs.Str.Ends
import Njs.Str.Slice
import Njs.Str.TemplateLaws

/-!
# The first occurrence replaced

What comes before the first occurrence, the template with its substitutions expanded, and what
comes after it. After an empty occurrence the source goes on behind the first character, and of
`2 ^ 16` records and parts it forgets all.
-/

namespace Njs.Str

open Utf8 Lib
open Regexp (Kind kindOf)

/-- An occurrence with what comes before and after it. -/
def surrounding (s t : Subject) (p : ℕ) : Around where
  matched := t.prop.start
  before := s.prop.start.take p
  after := s.prop.start.drop (p + t.prop.size)

/-- A string with one occurrence of another replaced by a template. -/
def replaced (s t r : Subject) (p : ℕ) : List UInt8 :=
  let a := surrounding s t p
  a.before ++ expand a r.prop.start ++ a.after

/-- The result is a well-formed string with these bytes, unless it is too long or a request is
refused. -/
def Yields (env : Env) (x : Result (Option StringValue)) (out : List UInt8) (isText : Prop) :
    Prop :=
  (maxLength < out.length ∧ x = .error (.throw (.rangeError "invalid string length"))) ∨
    (∃ v result, x = .ok (some v) ∧ v.prop = Subject.prop result ∧ result.prop.start = out ∧
      (isText → ∃ us, result = .text us)) ∨
    ((x = .ok none ∨ x = .error (.throw .memoryError)) ∧ ∃ n, env.mpAlloc n = false)

/-- What the source takes for an occurrence, and for what comes before and after it. -/
def taken (s t : Subject) (p : ℕ) : Around :=
  let rest := matchEnd s.prop.start 0 (p + t.prop.size)
  { matched := (s.prop.start.drop p).take (rest.2 - p)
    before := s.prop.start.take p
    after := (s.prop.start.drop rest.1).take (s.prop.size - rest.2) }

theorem partLength_text (us : List CodePoint) : partLength (code.encodeAll us) = us.length := by
  have hlen : Utf8.length (code.encodeAll us) = some (us.length : ℤ) :=
    length_eq_iff.mpr ⟨us, rfl, rfl⟩
  rw [partLength, hlen]
  rfl

theorem exists_text_of_partLength {part : List UInt8} (h : 0 ≤ partLength part) :
    ∃ us, part = code.encodeAll us := by
  obtain ⟨n, hn⟩ := Int.eq_ofNat_of_zero_le h
  obtain ⟨m, hm, -⟩ := length_isSome part
  rw [partLength, hm, Option.getD_some] at hn
  obtain ⟨us, -, hus⟩ := length_eq_iff.mp (hm.trans (congrArg some hn))
  exact ⟨us, hus.symm⟩

/-- The parts joined are a well-formed string, and a text exactly if they all are. -/
theorem exists_join (parts : List (List UInt8)) :
    ∃ result : Subject, result.prop = ⟨parts.flatten,
        if parts.all fun part => 0 ≤ partLength part then
          (parts.map fun part => (partLength part).toNat).sum else 0⟩ ∧
      ((∀ part ∈ parts, ∃ us, part = code.encodeAll us) → ∃ us, result = .text us) := by
  by_cases htexts : ∀ part ∈ parts, ∃ us, part = code.encodeAll us
  · have hall : (parts.all fun part => 0 ≤ partLength part) = true := by
      refine List.all_eq_true.mpr fun part hpart => ?_
      obtain ⟨us, rfl⟩ := htexts part hpart
      simp [partLength_text]
    obtain ⟨us, hbytes, hlength⟩ : ∃ us : List CodePoint, code.encodeAll us = parts.flatten ∧
        us.length = (parts.map fun part => (partLength part).toNat).sum := by
      clear hall
      induction parts with
      | nil => exact ⟨[], rfl, rfl⟩
      | cons part parts ih =>
        obtain ⟨us, hus⟩ := htexts part List.mem_cons_self
        obtain ⟨vs, hvs, hlen⟩ := ih fun part hpart => htexts part (List.mem_cons_of_mem _ hpart)
        refine ⟨us ++ vs, ?_, ?_⟩
        · rw [code.encodeAll_append, hvs, hus, List.flatten_cons]
        · rw [List.length_append, hlen, List.map_cons, List.sum_cons, hus, partLength_text]
          rfl
    refine ⟨.text us, ?_, fun _ => ⟨us, rfl⟩⟩
    rw [if_pos hall, ← hlength, ← hbytes]
    rfl
  · refine ⟨.bytes parts.flatten, ?_, fun h => absurd h htexts⟩
    rw [if_neg]
    · rfl
    · intro hall
      refine htexts fun part hpart => exists_text_of_partLength ?_
      simpa using List.all_eq_true.mp hall part hpart

section Search

variable {bytes search : List UInt8} {stop : ℤ} {next : ℕ → ℕ}

end Search

section Place

variable {s t : Subject}

end Place

/-! ### The substitutions -/

section Substitutions

variable {template subject : List UInt8} {p : ℕ}

end Substitutions

section Parts

variable {s t r : Subject} {p : ℕ}

end Parts

/-! ### Texts -/

section Texts

variable {us vs : List CodePoint} {i : ℕ}

theorem Boundary.take {p : ℕ} (h : Boundary us p) :
    ∃ vs, (code.encodeAll us).take p = code.encodeAll vs := by
  have hzero : Boundary us 0 := ⟨0, Nat.zero_le _, rfl⟩
  obtain ⟨vs, hvs⟩ := hzero.take_drop h (Nat.zero_le p)
  exact ⟨vs, by rwa [List.drop_zero, Nat.sub_zero] at hvs⟩

theorem Boundary.drop {p : ℕ} (h : Boundary us p) :
    ∃ vs, (code.encodeAll us).drop p = code.encodeAll vs := by
  obtain ⟨i, -, rfl⟩ := h
  exact ⟨us.drop i, drop_offset_text us i⟩

end Texts

/-! ### The whole function -/

section Whole

variable {s t : Subject}

end Whole

section Yields

variable {env : Env} {x : Result (Option StringValue)} {out out' : List UInt8} {isText : Prop}

theorem Yields.length_le {v : StringValue} {result : Subject} (hprop : v.prop = result.prop)
    (hout : result.prop.start = out) : out.length ≤ maxLength := by
  rw [← hout, ← hprop]
  exact v.bytes_length.trans_le v.size_le_max

/-- Where every request is granted, two strings that are yielded are the same or too long. -/
theorem Yields.unique (henv : ∀ n, env.mpAlloc n = true) (h : Yields env x out isText)
    (h' : Yields env x out' isText) :
    out = out' ∨ (maxLength < out.length ∧ maxLength < out'.length) := by
  rcases h with ⟨hlarge, hx⟩ | ⟨v, result, hx, hprop, hout, -⟩ | ⟨-, n, hn⟩
  · rcases h' with ⟨hlarge', -⟩ | ⟨v, result, hx', -⟩ | ⟨-, n, hn⟩
    · exact .inr ⟨hlarge, hlarge'⟩
    · exact absurd (hx.symm.trans hx') (by simp)
    · simp [henv n] at hn
  · rcases h' with ⟨-, hx'⟩ | ⟨v', result', hx', hprop', hout', -⟩ | ⟨-, n, hn⟩
    · exact absurd (hx.symm.trans hx') (by simp)
    · obtain rfl := Option.some.inj (Except.ok.inj (hx.symm.trans hx'))
      exact .inl (by rw [← hout, ← hout', ← hprop, hprop'])
    · simp [henv n] at hn
  · simp [henv n] at hn

end Yields

end Njs.Str
