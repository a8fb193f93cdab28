import Njs.Str.Index
import Njs.Str.Subject

/-!
# The engine of regular expressions

What `njs_regexp_match` finds in a text, and the strings that are made of its captures. The
engine itself is a parameter: what `pcre_exec` finds in a subject from a start offset on.
-/

namespace Njs.Regexp

open Str Utf8

/-- A capture vector: the whole match and the groups, without those that took no part. -/
structure Captures where
  start : ℕ
  stop : ℕ
  groups : List (Option (ℕ × ℕ))
  deriving DecidableEq

/-- The result of the engine. -/
inductive Found
  | noMatch
  /-- A code less than `NJS_REGEX_NOMATCH`. -/
  | failed
  | matched (captures : Captures)
  deriving DecidableEq

/-- A compiled regular expression. -/
structure Regex where
  /-- `pcre_exec` of a subject and a start offset. -/
  search : List UInt8 → ℕ → Found

/-- `njs_regexp_match`: the subject is always searched from its start. -/
def Regex.match (regex : Regex) (subject : List UInt8) : Found := regex.search subject 0

/-- `njs_regexp_pattern_t`. -/
structure Pattern where
  global : Bool
  /-- `regex[NJS_REGEXP_BYTE]`, if it is valid. -/
  byteRegex : Option Regex
  /-- `regex[NJS_REGEXP_UTF8]`, if it is valid. -/
  utf8Regex : Option Regex
  /-- The names of groups with the captures that they stand for. -/
  groups : List (List UInt8 × ℕ)

/-- `njs_utf8_t`. -/
inductive Kind
  | byte
  | ascii
  | utf8
  deriving DecidableEq

/-- The kind of a subject. -/
def kindOf (string : StringProp) : Kind :=
  if string.length ≠ 0 then
    if string.length ≠ string.size then .utf8 else .ascii
  else .byte

/-- The regular expression that is used for a subject. -/
def Pattern.regex (pattern : Pattern) (string : StringProp) : Option Regex :=
  if string.length ≠ 0 then pattern.utf8Regex else pattern.byteRegex

/-- `njs_string_calc_length`. -/
def calcLength (kind : Kind) (start : List UInt8) : ℕ :=
  match kind with
  | .byte => 0
  | .ascii => start.length
  | .utf8 => ((Utf8.length start).getD 0).toNat

/-- The string of a capture. -/
def captureString (kind : Kind) (text : List UInt8) (capture : ℕ × ℕ) : StringProp :=
  let start := (text.drop capture.1).take (capture.2 - capture.1)
  ⟨start, calcLength kind start⟩

end Njs.Regexp

/-!
## Regular expression objects

`njs_regexp_prototype_exec` and the reading of `lastIndex`.
-/

namespace Njs.Regexp

open Str

/-- `njs_regexp_t`. -/
structure RegExp where
  pattern : Pattern
  /-- The last subject; `njs_regexp_alloc` does not set the field. -/
  string : Option StringProp
  lastIndex : ℕ

/-- `njs_regexp_alloc`. -/
def regexpAlloc (pattern : Pattern) : RegExp := ⟨pattern, none, 0⟩

/-- The array that `exec` makes. -/
structure ExecResult where
  elements : List (Option StringProp)
  index : ℕ
  input : StringProp
  /-- The properties of `groups`, in the order of the names. -/
  groups : Option (List (List UInt8 × Option StringProp))
  deriving DecidableEq

/-- The properties of `groups`. -/
def namedGroups (pattern : Pattern) (elements : List (Option StringProp)) :
    Option (List (List UInt8 × Option StringProp)) :=
  if pattern.groups = [] then none
  else some (pattern.groups.map fun group => (group.1, elements[group.2]?.join))

/-- What a call gives. -/
inductive Output
  | result (r : ExecResult)
  | null
  | error
  /-- The value of `lastIndex`. -/
  | number (index : ℕ)
  /-- Memory is read that was not set. -/
  | fault
  /-- The array of all matches, which `exec` does not make. -/
  | matches
  deriving DecidableEq

/-- `njs_regexp_exec_result`. -/
def execResult (r : RegExp) (input : StringProp) (kind : Kind) (text : List UInt8)
    (captures : Captures) : ExecResult × RegExp :=
  let elements := (some (captures.start, captures.stop) :: captures.groups).map
    (Option.map (captureString kind text))
  ({ elements := elements
     index := r.lastIndex + captures.start
     input := input
     groups := namedGroups r.pattern elements },
    if r.pattern.global then { r with lastIndex := r.lastIndex + captures.stop } else r)

/-- `njs_regexp_prototype_exec` of a string. The second component is the offset in the
string at which the engine is started, if it is. -/
def exec (r : RegExp) (string : StringProp) : Output × Option ℕ × RegExp :=
  let r := { r with string := some string }
  if string.size ≥ r.lastIndex then
    match r.pattern.regex string with
    | some regex =>
      let text := string.start.drop r.lastIndex
      match regex.match text with
      | .matched captures =>
        let (result, r') := execResult r string (kindOf string) text captures
        (.result result, some r.lastIndex, r')
      | .failed => (.error, some r.lastIndex, r)
      | .noMatch => (.null, some r.lastIndex, { r with lastIndex := 0 })
    | none => (.null, none, { r with lastIndex := 0 })
  else (.null, none, { r with lastIndex := 0 })

/-- `njs_string_prototype_match` of a string, with a regular expression. If that is global,
`njs_string_match_multiple` sets `last_index` and does not use the object any more. -/
def stringMatch (r : RegExp) (string : StringProp) : Output × Option ℕ × RegExp :=
  if r.pattern.global then (.matches, none, { r with lastIndex := 0 }) else exec r string

/-- `njs_regexp_prototype_last_index`. -/
def prototypeLastIndex (r : RegExp) : Output :=
  match r.string with
  | none => .fault
  | some string => .number (stringIndex string r.lastIndex)

end Njs.Regexp

/-!
## What `exec` and `lastIndex` mean

The subjects are sequences of characters, and `lastIndex` is the number of a character. A
global expression searches the whole subject from there on, and all positions that a program
sees are numbers of characters.
-/

namespace Njs.Regexp

open Str Utf8 Lib

/-- A pair of offsets in a subject. -/
def Range (s : Subject) (capture : ℕ × ℕ) : Prop :=
  capture.1 ≤ capture.2 ∧ Segments.Cut s.chars capture.1 ∧ Segments.Cut s.chars capture.2

/-- A match lies after the start offset, at characters of the subject, and so do the groups. -/
structure Captures.Within (c : Captures) (s : Subject) (start : ℕ) : Prop where
  start_le : start ≤ c.start
  whole : Range s (c.start, c.stop)
  groups : ∀ g ∈ c.groups, ∀ capture ∈ g, Range s capture

/-- If it is started at a character, the engine finds matches within the subject. -/
def Lawful (pattern : Pattern) : Prop :=
  ∀ (s : Subject) regex, pattern.regex s.prop = some regex → ∀ k, Segments.Cut s.chars k →
    ∀ c, regex.search s.prop.start k = .matched c → c.Within s k

/-- A use of a regular expression object. -/
inductive Step
  | exec (s : Subject)
  | stringMatch (s : Subject)
  | lastIndex

/-- The effect of a use, with the offset at which the engine is started. -/
def step (r : RegExp) : Step → Output × Option ℕ × RegExp
  | .exec s => exec r s.prop
  | .stringMatch s => stringMatch r s.prop
  | .lastIndex => (prototypeLastIndex r, none, r)

/-- What `exec` should give, and the `lastIndex` that it should leave. -/
def idealExec (pattern : Pattern) (last : ℕ) (s : Subject) : Output × ℕ :=
  if last ≤ s.chars.length then
    match pattern.regex s.prop with
    | none => (.null, 0)
    | some regex =>
      match regex.search s.prop.start (s.offset last) with
      | .noMatch => (.null, 0)
      | .failed => (.error, last)
      | .matched c =>
        let elements := (some (c.start, c.stop) :: c.groups).map (Option.map s.slice)
        (.result
          { elements := elements
            index := s.position c.start
            input := s.prop
            groups := namedGroups pattern elements },
          if pattern.global then s.position c.stop else last)
  else (.null, 0)

/-- What a use should give, and the `lastIndex` that it should leave. -/
def idealStep (pattern : Pattern) (last : ℕ) : Step → Output × ℕ
  | .exec s => idealExec pattern last s
  | .stringMatch s => if pattern.global then (.matches, 0) else idealExec pattern last s
  | .lastIndex => (.number last, last)

/-- The subject of a step. -/
def Step.subject? : Step → Option Subject
  | .exec s => some s
  | .stringMatch s => some s
  | .lastIndex => none

/-- The engine is started at a character of the subject, and at the first one if the
expression is not global. -/
def StartsAt (pattern : Pattern) (use : Step) (k : ℕ) : Prop :=
  ∃ s, use.subject? = some s ∧ Segments.Cut s.chars k ∧ (pattern.global = false → k = 0)

/-- All uses give what they should. -/
def Agrees : RegExp → ℕ → List Step → Prop
  | _, _, [] => True
  | r, last, use :: uses =>
    (step r use).1 = (idealStep r.pattern last use).1 ∧
      (∀ k ∈ (step r use).2.1, StartsAt r.pattern use k) ∧
      Agrees (step r use).2.2 (idealStep r.pattern last use).2 uses

/-! ### The condition -/

/-- The positions of a result, counted from an offset. -/
def Found.shift (k : ℕ) : Found → Found
  | .noMatch => .noMatch
  | .failed => .failed
  | .matched c => .matched
    { start := k + c.start
      stop := k + c.stop
      groups := c.groups.map (Option.map fun capture => (k + capture.1, k + capture.2)) }

/-- In the new subject, the byte `last_index` is where the character of the same number as
before begins, or both are outside. -/
def Settled (r : RegExp) (last : ℕ) (s : Subject) : Prop :=
  if last ≤ s.chars.length then s.offset last = r.lastIndex else s.prop.size < r.lastIndex

/-- What is found in the rest of the subject is what is found in the whole of it from there
on: no anchor and no look-behind makes a difference. -/
def SuffixAgrees (r : RegExp) (s : Subject) : Prop :=
  ∀ regex, r.pattern.regex s.prop = some regex →
    (regex.match (s.prop.start.drop r.lastIndex)).shift r.lastIndex =
      regex.search s.prop.start r.lastIndex

/-- As many bytes as characters are before the match. -/
def PlainBefore (r : RegExp) (s : Subject) : Prop :=
  ∀ regex, r.pattern.regex s.prop = some regex →
    ∀ c, regex.search s.prop.start r.lastIndex = .matched c → s.position c.start = c.start

/-- The condition on a call of `exec`. -/
structure CleanExec (r : RegExp) (last : ℕ) (s : Subject) : Prop where
  settled : Settled r last s
  suffix : last ≤ s.chars.length → SuffixAgrees r s
  plain : last ≤ s.chars.length → PlainBefore r s

/-- The condition on a reading of `lastIndex`: there was a subject, and if that is a byte
string, no byte before `last_index` is taken for the continuation of a character. -/
def CleanRead (r : RegExp) : Prop :=
  ∃ s, r.string = some s ∧ (s.length = 0 → Separate s.start r.lastIndex)

/-- The condition on a use, where `last` is the number of the character that `last_index`
stands for. -/
def CleanStep (r : RegExp) (last : ℕ) : Step → Prop
  | .exec s => CleanExec r last s
  | .stringMatch s => r.pattern.global = false → CleanExec r last s
  | .lastIndex => CleanRead r

/-- The condition on all uses. -/
def Clean : RegExp → ℕ → List Step → Prop
  | _, _, [] => True
  | r, last, use :: uses =>
    CleanStep r last use ∧ Clean (step r use).2.2 (idealStep r.pattern last use).2 uses

end Njs.Regexp
