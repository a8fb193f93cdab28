import Njs.Lib.Matching
import Njs.Str.Split

/-!
# All matches of a regular expression

`njs_string_match_multiple` searches the rest of the string again and again. It goes one
character further only if a match ends where its search has started.
-/

namespace Njs.Regexp

open Str Utf8 Lib

/-- The value that `match` returns. -/
inductive Matched
  | null
  | array (values : List StringValue)
  /-- `njs_regexp_match() failed` -/
  | error
  deriving DecidableEq

/-- The place of the next character, or of the next byte of a byte string. -/
def nextPlace (string : StringProp) (kind : Kind) (p : ℕ) : ℕ :=
  if kind ≠ .byte then string.size - (utf8Next (string.start.drop p)).length else p + 1

/-- After a match: the new place and the rest that is searched, and the string that is added. -/
def matchPlaces (string : StringProp) (kind : Kind) (p size : ℕ) (c : Captures) :
    ℕ × ℕ × StringProp :=
  let start := p + c.start
  if c.stop = 0 then
    if start < string.size then
      let p := nextPlace string kind start
      (p, string.size - p, ⟨[], 0⟩)
    else (p + 1, size, ⟨[], 0⟩)
  else
    (p + c.stop, size - c.stop, captureString kind (string.start.drop p) (c.start, c.stop))

/-- The loop of `njs_string_match_multiple`, over the rest of the string from a place on. There
is no result if the engine fails. Every round is over a character at least, so the size is fuel
enough. -/
def matchLoop (env : Env) (regex : Regex) (kind : Kind) (string : StringProp) :
    ℕ → ℕ → ℕ → StringArray → Result (Option StringArray)
  | 0, _, _, _ => .error .fault
  | fuel + 1, p, size, array =>
    if p + size > string.size then .error .fault
    else
      match regex.match ((string.start.drop p).take size) with
      | .noMatch => .ok (some array)
      | .failed => .ok none
      | .matched c => do
        let array ← stringArrayExpand env array
        let (p, size, part) := matchPlaces string kind p size c
        let v ← stringNew env part.start part.length
        let array := { array with values := array.values ++ [v] }
        if p ≤ string.size then matchLoop env regex kind string fuel p size array
        else .ok (some array)

/-- `njs_string_match_multiple`, which sets `last_index` too. -/
def stringMatchMultiple (env : Env) (r : RegExp) (string : StringProp) :
    Result (Matched × RegExp) :=
  let r := { r with lastIndex := 0 }
  match r.pattern.regex string with
  | none => .ok (.null, r)
  | some regex => do
    let array ← stringArrayAlloc env Array.spareLength
    let array ← matchLoop env regex (kindOf string) string (string.size + 2) 0 string.size array
    .ok (array.elim .error fun array => .array array.values, r)

/-! ## What is found -/

/-- What the engine finds in the rest of a subject from a character on. -/
def find (regex : Regex) (s : Subject) (i : ℕ) : Option (ℕ × ℕ) :=
  match regex.match (s.prop.start.drop (s.offset i)) with
  | .matched c => some (s.position (s.offset i + c.start), s.position (s.offset i + c.stop))
  | _ => none

/-- The engine does not fail, and what it finds in the rest of a subject begins and ends at
characters. -/
def Sound (regex : Regex) (s : Subject) : Prop :=
  ∀ i ≤ s.chars.length, regex.match (s.prop.start.drop (s.offset i)) ≠ .failed ∧
    ∀ c, regex.match (s.prop.start.drop (s.offset i)) = .matched c →
      Range s (s.offset i + c.start, s.offset i + c.stop)

/-- `match` returns the strings of the successive matches, or `null` if there are none, and the
engine is given texts inside the subject. -/
def MatchesAll (r : RegExp) (s : Subject) (ms : List (ℕ × ℕ)) : Prop :=
  ∀ env, Delivers env ms.length (stringMatchMultiple env r s.prop) fun result =>
    result.2 = { r with lastIndex := 0 } ∧
      if ms = [] then result.1 = .null
      else ∃ values, result.1 = .array values ∧
        values.map StringValue.prop = ms.map fun m => (s.extract m).prop

variable {env : Env} {regex : Regex} {s : Subject} {i : ℕ} {m : ℕ × ℕ} {ms : List (ℕ × ℕ)}

theorem find_eq_some (h : Sound regex s) (hi : i ≤ s.chars.length)
    (hfind : find regex s i = some m) :
    ∃ c, regex.match (s.prop.start.drop (s.offset i)) = .matched c ∧
      s.offset i + c.start = s.offset m.1 ∧ s.offset i + c.stop = s.offset m.2 ∧
      i ≤ m.1 ∧ m.1 ≤ m.2 ∧ m.2 ≤ s.chars.length := by
  unfold find at hfind
  cases hmatch : regex.match (s.prop.start.drop (s.offset i)) with
  | noMatch => simp [hmatch] at hfind
  | failed => simp [hmatch] at hfind
  | matched c =>
    obtain ⟨hle, ⟨j, hj, hstart⟩, ⟨k, hk, hstop⟩⟩ := (h i hi).2 c hmatch
    rw [hmatch] at hfind
    obtain rfl := Option.some.inj hfind
    have hstart' : s.offset j = s.offset i + c.start := hstart
    have hstop' : s.offset k = s.offset i + c.stop := hstop
    simp only
    rw [← hstart', ← hstop', s.position_offset hj, s.position_offset hk]
    have hij : i ≤ j := s.le_of_offset_le hi (by omega)
    have hjk : j ≤ k := s.le_of_offset_le hj (by simp only at hle; omega)
    exact ⟨c, rfl, hstart'.symm, hstop'.symm, hij, hjk, hk⟩

theorem find_eq_none (h : Sound regex s) (hi : i ≤ s.chars.length)
    (hfind : find regex s i = none) :
    regex.match (s.prop.start.drop (s.offset i)) = .noMatch := by
  unfold find at hfind
  cases hmatch : regex.match (s.prop.start.drop (s.offset i)) with
  | noMatch => rfl
  | failed => exact absurd hmatch (h i hi).1
  | matched c => simp [hmatch] at hfind

theorem Sound.ranged (h : Sound regex s) : Ranged (find regex s) s.chars.length := by
  intro i hi m hfind
  obtain ⟨-, -, -, -, hrange⟩ := find_eq_some h hi hfind
  exact hrange

/-! ## One round -/

/-- The place after a character is that of the next one. -/
theorem nextPlace_eq (hi : i < s.chars.length) :
    nextPlace s.prop (kindOf s.prop) (s.offset i) = s.offset (i + 1) := by
  cases s with
  | bytes bs =>
    have hkind : kindOf (Subject.bytes bs).prop = .byte := rfl
    rw [nextPlace, hkind, if_neg (not_not.mpr rfl), Subject.bytes_offset bs hi.le,
      Subject.bytes_offset bs hi]
  | text us =>
    have hlt : i < us.length := by rwa [Subject.chars, textChars_length] at hi
    have hus : us ≠ [] := List.ne_nil_of_length_pos (by omega)
    have hdrop : (Subject.text us).prop.start.drop ((Subject.text us).offset i) =
      code.encodeAll (us.drop i) := drop_offset_text us i
    rw [nextPlace, if_pos (kindOf_text_ne_byte hus), hdrop, utf8Next_drop hlt]
    exact size_sub_rest us (i + 1)

/-- The string between the offsets of two characters. -/
theorem slice_offset (hle : m.1 ≤ m.2) (hm : m.2 ≤ s.chars.length) :
    s.slice (s.offset m.1, s.offset m.2) = (s.extract m).prop := by
  have hstart := extract_start s m.1 (m.2 - m.1)
  have hlength := extract_length s (show m.1 + (m.2 - m.1) ≤ s.chars.length by omega)
  have hrange : (m.1, m.1 + (m.2 - m.1)) = m := Prod.ext rfl (Nat.add_sub_cancel' hle)
  rw [hrange, Nat.add_sub_cancel' hle] at hstart
  rw [hrange] at hlength
  have hprop : (s.extract m).prop = ⟨(s.extract m).prop.start, (s.extract m).prop.length⟩ := rfl
  rw [hprop, hstart, hlength]
  unfold Subject.slice
  rw [s.position_offset hm, s.position_offset (hle.trans hm)]
  cases s with
  | bytes bs => rfl
  | text us =>
    rw [length_chars] at hm
    have hlen : (Subject.text us).prop.length = us.length := rfl
    rw [hlen]
    split_ifs with hnil
    · have hsame : m.2 - m.1 = 0 := by omega
      rw [hsame]
    · rfl

theorem extract_empty (s : Subject) (i : ℕ) : (s.extract (i, i)).prop = ⟨[], 0⟩ := by
  apply prop_of_chars_eq_nil
  rw [extract_chars, Nat.sub_self, List.take_zero]

/-- After a match, the rest from the next place on is searched, and the matched characters are
added. Behind the end there is no rest. -/
theorem matchPlaces_spec (h : Sound regex s) (hi : i ≤ s.chars.length)
    (hfind : find regex s i = some m) :
    ∃ c p size, regex.match (s.prop.start.drop (s.offset i)) = .matched c ∧
      matchPlaces s.prop (kindOf s.prop) (s.offset i) (s.prop.size - s.offset i) c =
        (p, size, (s.extract m).prop) ∧
      if afterStart i m ≤ s.chars.length then
        p = s.offset (afterStart i m) ∧ size = s.prop.size - s.offset (afterStart i m)
      else s.prop.size < p := by
  obtain ⟨c, hmatch, hstart, hstop, him, hle, hm⟩ := find_eq_some h hi hfind
  obtain ⟨j, k⟩ := m
  simp only at hstart hstop him hle hm
  by_cases hzero : c.stop = 0
  · -- the match is empty, and where the search has started
    have hki : k ≤ i := s.le_of_offset_le hm (by omega)
    obtain rfl : i = k := by omega
    obtain rfl : i = j := by omega
    have hfirst : c.start = 0 := by omega
    have hafter : afterStart i (i, i) = i + 1 := if_pos rfl
    rw [hafter, extract_empty]
    by_cases hlt : i < s.chars.length
    · have hoffset : s.offset i < s.prop.size := by
        rw [← s.offset_length]
        exact s.offset_lt hlt le_rfl
      refine ⟨c, s.offset (i + 1), s.prop.size - s.offset (i + 1), hmatch, ?_, ?_⟩
      · unfold matchPlaces
        simp only [if_pos hzero, hfirst, Nat.add_zero, if_pos hoffset, nextPlace_eq hlt]
      · rw [if_pos (by omega)]
        exact ⟨rfl, rfl⟩
    · have hoffset : s.offset i = s.prop.size := s.offset_of_length_le (by omega)
      refine ⟨c, s.offset i + 1, s.prop.size - s.offset i, hmatch, ?_, ?_⟩
      · unfold matchPlaces
        simp only [if_pos hzero, hfirst, Nat.add_zero]
        rw [if_neg (by omega)]
      · rw [if_neg (by omega)]
        omega
  · have hne : k ≠ i := by
      rintro rfl
      omega
    have hafter : afterStart i (j, k) = k := if_neg hne
    have hpart := @captureString_eq s (s.offset i) (c.start, c.stop) ((h i hi).2 c hmatch)
    simp only [hstart, hstop] at hpart
    have hslice := slice_offset (s := s) (m := (j, k)) hle hm
    refine ⟨c, s.offset i + c.stop, s.prop.size - s.offset i - c.stop, hmatch, ?_, ?_⟩
    · simp only [matchPlaces, if_neg hzero, hpart, hslice]
    · rw [hafter, if_pos hm]
      exact ⟨hstop, by omega⟩

/-! ## The loop -/

theorem rest_eq (s : Subject) (k : ℕ) :
    (s.prop.start.drop k).take (s.prop.size - k) = s.prop.start.drop k := by
  apply List.take_of_length_le
  rw [List.length_drop]
  exact le_rfl

/-- The loop adds the strings of the matches that it finds. -/
theorem matchLoop_spec (hsound : Sound regex s) (hsize : s.prop.size ≤ maxLength)
    (h : Successive (find regex s) afterStart s.chars.length i ms) (hi : i ≤ s.chars.length)
    {fuel count : ℕ} (hfuel : s.chars.length + 1 - i ≤ fuel) (array : StringArray)
    (hcount : array.values.length + ms.length ≤ count) :
    Delivers env count (matchLoop env regex (kindOf s.prop) s.prop fuel (s.offset i)
        (s.prop.size - s.offset i) array) fun result =>
      ∃ array', result = some array' ∧ array'.values.map StringValue.prop =
        array.values.map StringValue.prop ++ ms.map fun m => (s.extract m).prop := by
  induction h generalizing fuel array with
  | past => omega
  | stop i _ hfind =>
    obtain ⟨fuel, rfl⟩ := Nat.exists_eq_succ_of_ne_zero (show fuel ≠ 0 by omega)
    have hnone := find_eq_none hsound hi hfind
    have hle := s.offset_le_size i
    unfold matchLoop
    rw [if_neg (by omega), rest_eq, hnone]
    exact .inl ⟨_, rfl, array, rfl, by simp⟩
  | found i m ms _ hfind hrest ih =>
    obtain ⟨fuel, rfl⟩ := Nat.exists_eq_succ_of_ne_zero (show fuel ≠ 0 by omega)
    obtain ⟨c, p, size, hmatch, hplaces, hnext⟩ := matchPlaces_spec hsound hi hfind
    obtain ⟨-, hle, hm⟩ := hsound.ranged i hi m hfind
    have hlt := hsound.ranged.lt_afterStart i hi m hfind
    have hoffset := s.offset_le_size i
    have hpart : (s.extract m).prop.size ≤ maxLength := by
      rw [← slice_offset hle hm]
      unfold Subject.slice StringProp.size
      rw [List.length_take, List.length_drop]
      simp only [StringProp.size] at hsize
      omega
    rw [List.length_cons] at hcount
    unfold matchLoop
    rw [if_neg (by omega), rest_eq, hmatch]
    simp only [hplaces]
    apply (@stringArrayExpand_spec env array count (by omega)).bind
    intro array' harray'
    apply (Delivers.of_returns (stringNew_spec env hpart (prop_length_le_size _))).bind
    intro v hv
    have hvalues : (array'.values ++ [v]).map StringValue.prop =
        array.values.map StringValue.prop ++ [(s.extract m).prop] := by
      rw [List.map_append, harray', List.map_singleton, hv]
    have hlength := congrArg List.length hvalues
    rw [List.length_map, List.length_append, List.length_append, List.length_map] at hlength
    split_ifs at hnext with hmore
    · obtain ⟨rfl, rfl⟩ := hnext
      rw [if_pos (s.offset_le_size _)]
      apply (ih hmore (by omega) { array' with values := array'.values ++ [v] } _).mono
      · rintro result ⟨array'', rfl, harray''⟩
        refine ⟨array'', rfl, ?_⟩
        rw [harray'', hvalues, List.append_assoc]
        rfl
      · simp only [List.length_append, List.length_singleton] at hlength ⊢
        omega
    · rw [if_neg (by omega)]
      have hnil : ms = [] := by
        cases hrest with
        | past => rfl
        | stop => omega
        | found => omega
      refine .inl ⟨_, rfl, _, rfl, ?_⟩
      rw [hnil]
      exact hvalues

variable {r : RegExp}

/-- The array that is returned has the strings of the matches that are found. -/
theorem stringMatchMultiple_spec (hregex : r.pattern.regex s.prop = some regex)
    (hsound : Sound regex s) (hsize : s.prop.size ≤ maxLength)
    (h : Successive (find regex s) afterStart s.chars.length 0 ms) (env : Env) :
    Delivers env ms.length (stringMatchMultiple env r s.prop) fun result =>
      result.2 = { r with lastIndex := 0 } ∧ ∃ values, result.1 = .array values ∧
        values.map StringValue.prop = ms.map fun m => (s.extract m).prop := by
  have hlength := s.length_le_size
  have hzero : s.offset 0 = 0 := Segments.offset_zero _
  unfold stringMatchMultiple
  simp only [hregex]
  apply (Delivers.of_returns (stringArrayAlloc_spec Array.spareLength)).bind
  intro array harray
  have hloop := @matchLoop_spec env regex s 0 ms hsound hsize h (Nat.zero_le _) (s.prop.size + 2)
    ms.length (by omega) array (by simp [harray])
  rw [hzero, Nat.sub_zero] at hloop
  apply hloop.bind
  rintro result ⟨array', rfl, harray'⟩
  refine .inl ⟨_, rfl, rfl, array'.values, rfl, ?_⟩
  rw [harray', harray]
  rfl

/-- `match` returns what it should. -/
def MatchHolds (r : RegExp) (regex : Regex) (s : Subject) : Prop :=
  ∃ ms, Matches (find regex s) s.chars.length 0 ms ∧ MatchesAll r s ms

/-- Something is found, and no search finds an empty match after the place where it starts. -/
def FoundPromptly (regex : Regex) (s : Subject) : Prop :=
  find regex s 0 ≠ none ∧ Prompt (find regex s) s.chars.length 0

/-- `match` returns the strings of all successive matches if something is found, and if no search
finds an empty match after the place where it starts. It does not otherwise, if such a match is
found again from where it is. -/
theorem matchHolds_iff (r : RegExp) {regex : Regex} (s : Subject)
    (hregex : r.pattern.regex s.prop = some regex) (hsound : Sound regex s)
    (hsize : s.prop.size ≤ maxLength) :
    (FoundPromptly regex s → MatchHolds r regex s) ∧
    (Settles (find regex s) s.chars.length →
      (∀ ms, Matches (find regex s) s.chars.length 0 ms → 2 * ms.length ≤ Array.maxLength) →
        MatchHolds r regex s → FoundPromptly regex s) := by
  constructor
  · rintro ⟨hsome, hprompt⟩
    obtain ⟨ms, hms⟩ := exists_successive hsound.ranged.lt_afterMatch 0
    have hspec := stringMatchMultiple_spec hregex hsound hsize
      (hprompt.successive hsound.ranged hms)
    have hne : ms ≠ [] := by
      rintro rfl
      cases hms with
      | past _ h => omega
      | stop _ _ hnone => exact hsome hnone
    refine ⟨ms, hms, fun env => (hspec env).mono ?_⟩
    rintro result ⟨hr, harray⟩
    rw [if_neg hne]
    exact ⟨hr, harray⟩
  · rintro hsettles hcount ⟨ms, hms, hright⟩
    obtain ⟨ms', hms'⟩ := exists_successive hsound.ranged.lt_afterStart 0
    have hspec := stringMatchMultiple_spec hregex hsound hsize hms' ⟨fun _ => true, fun _ => 0⟩
    obtain ⟨result, heq, -, hresult⟩ := (hright ⟨fun _ => true, fun _ => 0⟩).exists_ok
      (fun _ => rfl) (hcount ms hms)
    rw [heq] at hspec
    rcases hspec with ⟨result', hsame, -, values, harray, hvalues⟩ | ⟨herror, -⟩
    · obtain rfl := Except.ok.inj hsame
      rw [harray] at hresult
      by_cases hnil : ms = []
      · rw [if_pos hnil] at hresult
        cases hresult
      · rw [if_neg hnil] at hresult
        obtain ⟨values', hsame', hvalues'⟩ := hresult
        obtain rfl := Matched.array.inj hsame'
        rw [hvalues] at hvalues'
        have hlength := congrArg List.length hvalues'
        rw [List.length_map, List.length_map] at hlength
        constructor
        · intro hnone
          exact hnil (hms.eq_nil hnone)
        · exact (hms'.prompt hms hsound.ranged hsettles).2 hlength.symm
    · cases herror

/-! ## Engines -/

/-- The subject `ab`. -/
def letters : Subject := .text [letterA, letterB]

/-- A pattern that is compiled to an engine. -/
def patternOf (regex : Regex) : Pattern := ⟨true, some regex, some regex, []⟩

theorem letters_cut {k : ℕ} (hk : k ≤ 2) : Segments.Cut letters.chars k := by
  have hcases : k = 0 ∨ k = 1 ∨ k = 2 := by omega
  refine ⟨k, hk, ?_⟩
  rcases hcases with rfl | rfl | rfl <;> decide

theorem anyChar_letters {i : ℕ} (hi : i ≤ 2) : letters.offset i = i ∧
    anyChar.match (letters.prop.start.drop i) =
      if i < 2 then .matched ⟨0, 1, []⟩ else .noMatch := by
  have hcases : i = 0 ∨ i = 1 ∨ i = 2 := by omega
  rcases hcases with rfl | rfl | rfl <;> decide

theorem anyChar_sound : Sound anyChar letters := by
  intro i hi
  obtain ⟨hoffset, hmatch⟩ := anyChar_letters hi
  rw [hoffset, hmatch]
  split_ifs with hlt
  · refine ⟨by rintro ⟨⟩, ?_⟩
    rintro c ⟨⟩
    exact ⟨Nat.le_succ i, letters_cut hlt.le, letters_cut hlt⟩
  · exact ⟨by rintro ⟨⟩, by rintro c ⟨⟩⟩

/-- Each of two letters is matched. -/
theorem matchHolds_letters : MatchHolds (regexpAlloc (patternOf anyChar)) anyChar letters := by
  apply (matchHolds_iff (regexpAlloc (patternOf anyChar)) letters rfl anyChar_sound
    (by decide)).1
  refine ⟨by decide, ?_⟩
  apply Prompt.found 0 (0, 1) (by decide) (by decide) (by decide)
  apply Prompt.found 1 (1, 2) (by decide) (by decide) (by decide)
  exact Prompt.stop 2 (by decide) (by decide)

/-- An engine that finds nothing. -/
def noEngine : Regex := ⟨fun _ _ => .noMatch⟩

/-- If nothing is found, an array without elements is returned. -/
theorem not_matchHolds :
    ¬∀ (r : RegExp) (regex : Regex) (s : Subject), r.pattern.regex s.prop = some regex →
      Sound regex s → s.prop.size ≤ maxLength → MatchHolds r regex s := by
  intro h
  have hsound : Sound noEngine letters := fun i hi => ⟨by rintro ⟨⟩, by rintro c ⟨⟩⟩
  obtain ⟨ms, hms, hright⟩ := h (regexpAlloc (patternOf noEngine)) noEngine letters rfl hsound
    (by decide)
  obtain rfl := hms.eq_nil rfl
  obtain ⟨result, heq, -, hnull⟩ := (hright ⟨fun _ => true, fun _ => 0⟩).exists_ok
    (fun _ => rfl) (by decide)
  obtain rfl := Except.ok.inj heq
  cases hnull

end Njs.Regexp
