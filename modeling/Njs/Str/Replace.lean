import Njs.Regexp.Engine
import Njs.Str.Slice

/-!
# Replacing in strings

`replace` of the first occurrence of a string by a template. The template is scanned once for its
substitutions, which then give the parts that are joined with those of the subject around the
occurrence. A function that fails to grow an array returns `NJS_ERROR` without an exception.
-/

namespace Njs.Str

open Regexp (Kind kindOf)

/-! ### Arrays of items -/

/-- `sizeof(njs_string_subst_t)`. -/
def sizeofSubst : ℕ := 16

/-- `njs_arr_t`, with its live items. -/
structure Arr (α : Type) where
  items : List α
  available : ℕ

section Arr

variable {α : Type} (env : Env)

/-- The number of items for which `njs_arr_add_multiple` allocates a larger block. -/
def arrGrown (available items : ℕ) : ℕ :=
  max (if available < 16 then available * 2 else available + available / 2) items

/-- `njs_arr_add_multiple` with what is written to the new items. The numbers of the items and of
the available ones are fields of 16 bits. -/
def arrAddMultiple (itemSize : ℕ) (arr : Arr α) (new : List α) : Option (Arr α) :=
  let items := new.length + arr.items.length
  let live := (arr.items ++ new).take (items % 2 ^ 16)
  if items ≥ arr.available then
    if env.mpAlloc (arrGrown arr.available items * itemSize) then
      some ⟨live, arrGrown arr.available items % 2 ^ 16⟩
    else none
  else some ⟨live, arr.available⟩

end Arr

/-! ### The template -/

/-- `njs_string_subst_t`. -/
inductive Subst
  /-- Bytes of the template. -/
  | copy (start size : ℕ)
  | preceding
  | following
  /-- The capture that begins at the index `n` of `captures`. -/
  | capture (n : ℕ)
  deriving DecidableEq

/-- What one iteration of the scanner finds. -/
inductive Token
  /-- So many bytes are text, and `s` is used if it is there. -/
  | copy (size : ℕ)
  /-- Two dollar signs: the second one begins a new record. -/
  | dollar
  | subst (record : Subst)
  deriving DecidableEq

/-- The reference to a capture, with the number of bytes that were read. -/
def captureToken (ncaptures type : ℕ) (rest : List UInt8) : Token × ℕ :=
  let digit := rest.head?.filter fun c => 0x30 ≤ c ∧ c ≤ 0x39
  let type := digit.elim type fun c => type * 10 + (c.toNat - 0x30)
  let size := if digit.isSome then 3 else 2
  if type ≥ ncaptures then (.copy size, size) else (.subst (.capture (type * 2)), size)

/-- One iteration of the loop of `njs_string_replace_parse` at a byte of the template, with the
number of bytes that were read. -/
def replaceToken (ncaptures : ℕ) (c : UInt8) : List UInt8 → Token × ℕ
  | [] => (.copy 1, 1)
  | d :: rest =>
    if c ≠ 0x24 then (.copy 1, 1)
    else if d = 0x24 then (.dollar, 2)
    else if 0x31 ≤ d ∧ d ≤ 0x39 then captureToken ncaptures (d.toNat - 0x30) rest
    else if d = 0x60 then (.subst .preceding, 2)
    else if d = 0x26 then (.subst (.capture 0), 2)
    else if d = 0x27 then (.subst .following, 2)
    else (.copy 2, 2)

/-- The record `s`, which is the last one, is made longer. -/
def extendLast (size : ℕ) : List Subst → List Subst
  | [] => []
  | [.copy start n] => [.copy start (n + size)]
  | record :: substs => record :: extendLast size substs

/-- The label `copy`, where `opened` is `s != NULL`. -/
def copySubst (env : Env) (arr : Arr Subst) (opened : Bool) (start size : ℕ) :
    Option (Arr Subst) :=
  if opened then some { arr with items := extendLast size arr.items }
  else arrAddMultiple env sizeofSubst arr [.copy start size]

/-- The loop of `njs_string_replace_parse`. A byte at least is read each time, so the size is fuel
enough. -/
def parseLoop (env : Env) (template : List UInt8) (ncaptures : ℕ) :
    ℕ → ℕ → Bool → Arr Subst → Option (Arr Subst)
  | 0, _, _, arr => some arr
  | fuel + 1, p, opened, arr =>
    match template.drop p with
    | [] => some arr
    | c :: rest =>
      let token := replaceToken ncaptures c rest
      match token.1 with
      | .copy size => (copySubst env arr opened p size).bind
          (parseLoop env template ncaptures fuel (p + token.2) true)
      | .dollar => (copySubst env arr false (p + 1) 1).bind
          (parseLoop env template ncaptures fuel (p + token.2) true)
      | .subst record => (arrAddMultiple env sizeofSubst arr [record]).bind
          (parseLoop env template ncaptures fuel (p + token.2) false)

/-- The bytes from a place of the subject to the one that `njs_utf8_next` returns. -/
def charAt (subject : List UInt8) (place : ℕ) : List UInt8 :=
  (subject.drop place).take ((subject.drop place).length - (utf8Next (subject.drop place)).length)

/-- The place after an occurrence and the end of the match: a character is taken for an empty
match at the beginning. -/
def matchEnd (subject : List UInt8) (start stop : ℕ) : ℕ × ℕ :=
  if stop = 0 then
    if start < subject.length then
      (start + (charAt subject start).length, (charAt subject start).length)
    else (start + 1, 0)
  else (start + stop, stop)

/-- `njs_utf8_length` of a part. -/
def partLength (part : List UInt8) : ℤ := (Utf8.length part).getD (-1)

end Njs.Str
