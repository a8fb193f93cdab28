import Njs.Regexp.Multiple

/-!
# Splitting at a regular expression

The loop of `njs_string_prototype_split` takes an empty match for one that is a character further,
wherever it is.
-/

namespace Njs.Regexp

open Str Utf8 Lib

/-- The end of a part, and the place after the separator. An empty match is moved over the next
character; behind the end there is none to read. -/
def partPlaces (string : StringProp) (kind : Kind) (start : ℕ) (found : Option Captures) :
    Result (ℕ × ℕ) :=
  let (p, next) := match found with
    | some c => (start + c.start, start + c.stop)
    | none => (string.size, string.size + 1)
  if p = next then
    if kind ≠ .byte ∧ string.size ≤ p then .error .fault
    else .ok (nextPlace string kind p, nextPlace string kind p)
  else .ok (p, next)

/-- The loop of `njs_string_prototype_split` for a regular expression. There is no result if the
engine fails. The offsets of the parts are kept beside the array. Every round but the last is over
a byte at least, so the size is fuel enough. -/
def splitRegexpLoop (env : Env) (regex : Regex) (kind : Kind) (string : StringProp) :
    ℕ → ℕ → ℕ → StringArray → List (ℕ × ℕ) → Result (Option (StringArray × List (ℕ × ℕ)))
  | 0, _, _, _, _ => .error .fault
  | fuel + 1, start, limit, array, places =>
    let round (found : Option Captures) := do
      let (p, next) ← partPlaces string kind start found
      if string.size < p then .error .fault
      else
        let array ← splitPartAdd env array kind ((string.start.drop start).take (p - start))
        let places := places ++ [(start, p)]
        if limit - 1 ≠ 0 ∧ p < string.size then
          splitRegexpLoop env regex kind string fuel next (limit - 1) array places
        else .ok (some (array, places))
    match regex.match (string.start.drop start) with
    | .matched c => round (some c)
    | .noMatch => round none
    | .failed => .ok none

/-- `njs_string_prototype_split` for a regular expression, with the offsets of the parts. -/
def prototypeSplitRegexp (env : Env) (this : StringValue) (pattern : Pattern)
    (limit : Option Number) : Result (Option (List StringValue × List (ℕ × ℕ))) := do
  let array ← stringArrayAlloc env Array.spareLength
  let limit := limit.elim (2 ^ 32 - 1) numberToUint32
  let string := this.prop
  if limit = 0 then .ok (some ([], []))
  else if string.size = 0 then .ok (some ([this], [(0, 0)]))
  else match pattern.regex string with
    | none => .ok (some ([this], [(0, string.size)]))
    | some regex => do
      let result ← splitRegexpLoop env regex (kindOf string) string (string.size + 2) 0 limit
        array []
      .ok (result.map fun (array, places) => (array.values, places))

/-! ## Rounds -/

section Rounds

variable (find : ℕ → Option (ℕ × ℕ)) (n : ℕ)

/-- The end of a part that begins at a place, and the beginning of the next one. There is none if
an empty match at the end is moved on. -/
def roundOf (i : ℕ) : Option (ℕ × ℕ) :=
  match find i with
  | none => some (n, n + 1)
  | some m =>
    if m.1 = m.2 then if m.1 < n then some (m.1 + 1, m.1 + 1) else none
    else some m

/-- The parts that the rounds of the loop give from a place on, with a limit. -/
inductive Cuts : ℕ → ℕ → Option (List (ℕ × ℕ)) → Prop
  | fault (limit i : ℕ) (h : roundOf find n i = none) : Cuts limit i none
  | last (limit i : ℕ) (m : ℕ × ℕ) (h : roundOf find n i = some m)
    (hlast : limit - 1 = 0 ∨ n ≤ m.1) : Cuts limit i (some [(i, m.1)])
  | more (limit i : ℕ) (m : ℕ × ℕ) (rest : Option (List (ℕ × ℕ))) (h : roundOf find n i = some m)
    (hlimit : limit - 1 ≠ 0) (hlt : m.1 < n) (hrest : Cuts (limit - 1) m.2 rest) :
    Cuts limit i (rest.map ((i, m.1) :: ·))

/-- From a place on there are only matches that the loop splits at as it should: those that are
not empty, and those that are where a part begins, if the next one is empty too and a character
further or the end is. -/
inductive Neat : ℕ → ℕ → Prop
  | spent (i : ℕ) : Neat 0 i
  | stop (limit i : ℕ) (hfind : find i = none) : Neat (limit + 1) i
  | found (limit i : ℕ) (m : ℕ × ℕ) (hfind : find i = some m) (hlt : m.1 < m.2)
    (hrest : Neat limit m.2) : Neat (limit + 1) i
  | last (limit i : ℕ) (hfind : find i = some (i, i)) (hn : i + 1 = n) : Neat (limit + 1) i
  | empty (limit i : ℕ) (hfind : find i = some (i, i)) (hn : i + 1 < n)
    (hnext : find (i + 1) = some (i + 1, i + 1)) (hrest : Neat limit (i + 1)) : Neat (limit + 1) i
  /-- Only one part is left. -/
  | limit (i k : ℕ) (hfind : find i = some (i, i)) (hn : i + 1 < n)
    (hnext : find (i + 1) = some (i + 1, k)) : Neat 1 i

variable {find n} {limit i : ℕ} {r : Option (List (ℕ × ℕ))} {ps ms : List (ℕ × ℕ)}

theorem roundOf_bounds (h : Ranged find n) (hi : i ≤ n) {m : ℕ × ℕ}
    (hround : roundOf find n i = some m) : i ≤ m.1 ∧ m.1 ≤ n ∧ i < m.2 ∧ (m.1 < n → m.2 ≤ n) := by
  unfold roundOf at hround
  cases hfind : find i with
  | none =>
    rw [hfind] at hround
    obtain rfl := Option.some.inj hround
    exact ⟨hi, le_rfl, by omega, by simp⟩
  | some m' =>
    obtain ⟨hstart, hle, hn⟩ := h i hi m' hfind
    rw [hfind] at hround
    simp only at hround
    split_ifs at hround with hempty hlt
    · obtain rfl := Option.some.inj hround
      exact ⟨by omega, hlt, by omega, fun _ => hlt⟩
    · obtain rfl := Option.some.inj hround
      exact ⟨hstart, by omega, by omega, fun _ => hn⟩

/-- The loop ends. -/
theorem exists_cuts (h : Ranged find n) (limit : ℕ) {i : ℕ} (hi : i ≤ n) :
    ∃ r, Cuts find n limit i r := by
  induction hfuel : n - i using Nat.strongRecOn generalizing limit i with
  | ind fuel ih =>
    cases hround : roundOf find n i with
    | none => exact ⟨_, .fault limit i hround⟩
    | some m =>
      obtain ⟨hstart, hle, hlt, hnext⟩ := roundOf_bounds h hi hround
      by_cases hmore : limit - 1 ≠ 0 ∧ m.1 < n
      · have hn := hnext hmore.2
        obtain ⟨r, hr⟩ := ih (n - m.2) (by omega) (limit - 1) hn rfl
        exact ⟨_, .more limit i m r hround hmore.1 hmore.2 hr⟩
      · exact ⟨_, .last limit i m hround (by omega)⟩

theorem Cuts.of_none (h : Cuts find n limit i r) (hround : roundOf find n i = none) :
    r = none := by
  cases h with
  | fault => rfl
  | last _ _ m h => simp [hround] at h
  | more _ _ m rest h => simp [hround] at h

theorem Cuts.of_some {m : ℕ × ℕ} (h : Cuts find n (limit + 1) i r)
    (hround : roundOf find n i = some m) :
    ((limit = 0 ∨ n ≤ m.1) ∧ r = some [(i, m.1)]) ∨ (limit ≠ 0 ∧ m.1 < n ∧
      ∃ rest, r = rest.map ((i, m.1) :: ·) ∧ Cuts find n limit m.2 rest) := by
  cases h with
  | fault _ _ h => simp [hround] at h
  | last _ _ m' h hlast =>
    rw [hround] at h
    obtain rfl := Option.some.inj h
    exact Or.inl ⟨hlast, rfl⟩
  | more _ _ m' rest h hlimit hlt hrest =>
    rw [hround] at h
    obtain rfl := Option.some.inj h
    exact Or.inr ⟨hlimit, hlt, rest, rfl, hrest⟩

/-- The first part ends where the first round does. -/
theorem Cuts.head_eq {m p : ℕ × ℕ} {cs : List (ℕ × ℕ)}
    (h : Cuts find n (limit + 1) i (some (p :: cs))) (hround : roundOf find n i = some m) :
    p = (i, m.1) := by
  rcases h.of_some hround with ⟨-, heq⟩ | ⟨-, -, rest, heq, -⟩
  · exact (List.cons.inj (Option.some.inj heq)).1
  · obtain ⟨cs', -, heq'⟩ := Option.map_eq_some_iff.mp heq.symm
    exact (List.cons.inj heq').1.symm

/-- From an empty match where a part begins, the next match is looked for one place further. -/
theorem separator_empty {m : Option (ℕ × ℕ)} (hi : i ≤ n) (hfind : find i = some (i, i))
    (h : Separator find n i (i + 1) m) : Separator find n i i m := by
  apply Separator.skip i (i, i) m hi hfind _ h
  rintro (hlt | ⟨hlt, -⟩)
  · exact absurd hlt (lt_irrefl i)
  · exact absurd hlt (lt_irrefl i)

/-- After an empty match where a part begins, the part ends at a match one character further. -/
theorem parts_next {k : ℕ} (hi : i ≤ n) (hfind : find i = some (i, i)) (hn : i + 1 < n)
    (hnext : find (i + 1) = some (i + 1, k)) (hparts : Parts find n i ps ms) :
    ∃ ps' ms', ps = (i, i + 1) :: ps' ∧ Parts find n k ps' ms' := by
  have hends : EndsPart n i (i + 1, k) := Or.inr ⟨Nat.lt_succ_self i, hn⟩
  exact hparts.of_some (separator_empty hi hfind (.found (i + 1) (i + 1, k) hn.le hnext hends))

/-- The part up to the next character is the first one if a match is found there. -/
theorem parts_first (hranged : Ranged find n) (hfind : find i = some (i, i)) (hn : i + 1 < n)
    (hparts : Parts find n i ps ms) :
    (∃ ps', ps = (i, i + 1) :: ps') ↔ ∃ k, find (i + 1) = some (i + 1, k) := by
  obtain ⟨r, hr⟩ := exists_separator hranged i (i + 1)
  have hsep := separator_empty (by omega) hfind hr
  constructor
  · rintro ⟨ps', rfl⟩
    cases r with
    | none =>
      have heq := hparts.of_none hsep
      simp only [List.cons.injEq, Prod.mk.injEq] at heq
      omega
    | some m =>
      obtain ⟨ps'', ms', heq, -⟩ := hparts.of_some hsep
      have hm : i + 1 = m.1 := by simpa using congrArg List.head? heq
      cases hfound : find (i + 1) with
      | none => cases hr.eq_none hfound
      | some m' =>
        have hstart := (hranged (i + 1) hn.le m' hfound).1
        by_cases hends : EndsPart n i m'
        · obtain rfl := Option.some.inj (hr.eq_some hn.le hfound hends)
          refine ⟨m.2, ?_⟩
          rw [hm]
        · have hlater := (hr.skipped hn.le hfound hends).bounds hranged
          omega
  · rintro ⟨k, hk⟩
    obtain ⟨ps', ms', rfl, -⟩ := parts_next (by omega) hfind hn hk hparts
    exact ⟨ps', rfl⟩

theorem parts_last (hranged : Ranged find n) (hfind : find i = some (i, i)) (hn : i + 1 = n)
    (hparts : Parts find n i ps ms) : ps = [(i, n)] := by
  obtain ⟨r, hr⟩ := exists_separator hranged i (i + 1)
  cases r with
  | none => exact hparts.of_none (separator_empty (by omega) hfind hr)
  | some m =>
    obtain ⟨hstart, hle, hend, hlt | ⟨-, hlt⟩⟩ := hr.bounds hranged
    · omega
    · omega

/-- A part is before a match that is not empty, or inside. -/
theorem parts_found {m : ℕ × ℕ} (hi : i ≤ n) (hfind : find i = some m) (hends : EndsPart n i m)
    (hparts : Parts find n i ps ms) : ∃ ps' ms', ps = (i, m.1) :: ps' ∧ Parts find n m.2 ps' ms' :=
  hparts.of_some (.found i m hi hfind hends)

theorem neat_found {m : ℕ × ℕ} (hfind : find i = some m) (hlt : m.1 < m.2) :
    Neat find n (limit + 1) i ↔ Neat find n limit m.2 := by
  constructor
  · intro h
    cases h with
    | stop _ _ hnone => simp [hfind] at hnone
    | found _ _ m' hfound _ hrest =>
      rw [hfind] at hfound
      obtain rfl := Option.some.inj hfound
      exact hrest
    | last _ _ hfound =>
      rw [hfind] at hfound
      obtain rfl := Option.some.inj hfound
      exact absurd hlt (lt_irrefl i)
    | empty _ _ hfound =>
      rw [hfind] at hfound
      obtain rfl := Option.some.inj hfound
      exact absurd hlt (lt_irrefl i)
    | limit _ k hfound =>
      rw [hfind] at hfound
      obtain rfl := Option.some.inj hfound
      exact absurd hlt (lt_irrefl i)
  · intro h
    exact .found limit i m hfind hlt h

/-- Of empty matches, only those where a part begins are neat. -/
theorem Neat.not_late {m : ℕ × ℕ} (h : Neat find n (limit + 1) i) (hfind : find i = some m)
    (hempty : m.1 = m.2) : m = (i, i) := by
  cases h with
  | stop _ _ hnone => simp [hfind] at hnone
  | found _ _ m' hfound hlt =>
    rw [hfind] at hfound
    obtain rfl := Option.some.inj hfound
    omega
  | last _ _ hfound =>
    rw [hfind] at hfound
    exact Option.some.inj hfound
  | empty _ _ hfound =>
    rw [hfind] at hfound
    exact Option.some.inj hfound
  | limit _ k hfound =>
    rw [hfind] at hfound
    exact Option.some.inj hfound

theorem neat_empty (hfind : find i = some (i, i)) (hn : i + 1 < n) :
    Neat find n (limit + 1) i ↔ (find (i + 1) = some (i + 1, i + 1) ∧ Neat find n limit (i + 1)) ∨
      (limit = 0 ∧ ∃ k, find (i + 1) = some (i + 1, k)) := by
  constructor
  · intro h
    cases h with
    | stop _ _ hnone => simp [hfind] at hnone
    | found _ _ m' hfound hlt =>
      rw [hfind] at hfound
      obtain rfl := Option.some.inj hfound
      exact absurd hlt (lt_irrefl i)
    | last _ _ _ hlast => omega
    | empty _ _ _ _ hnext hrest => exact Or.inl ⟨hnext, hrest⟩
    | limit _ k _ _ hnext => exact Or.inr ⟨rfl, k, hnext⟩
  · rintro (⟨hnext, hrest⟩ | ⟨rfl, k, hnext⟩)
    · exact .empty limit i hfind hn hnext hrest
    · exact .limit i k hfind hn hnext

theorem Neat.lt (h : Neat find n (limit + 1) i) (hfind : find i = some (i, i)) : i < n := by
  cases h with
  | stop _ _ hnone => simp [hfind] at hnone
  | found _ _ m' hfound hlt =>
    rw [hfind] at hfound
    obtain rfl := Option.some.inj hfound
    exact absurd hlt (lt_irrefl i)
  | last _ _ _ hn => omega
  | empty _ _ _ hn => omega
  | limit _ k _ hn => omega

theorem map_cons_eq_iff {a : ℕ × ℕ} {rest : Option (List (ℕ × ℕ))} {limit : ℕ} :
    rest.map (a :: ·) = some ((a :: ps).take (limit + 1)) ↔ rest = some (ps.take limit) := by
  cases rest with
  | none => simp
  | some cs => simp

/-- An empty match that is not where the part begins gives another part. -/
theorem cuts_late {m : ℕ × ℕ} (hi : i ≤ n) (hfind : find i = some m) (hempty : m.1 = m.2)
    (hne : m ≠ (i, i)) (hranged : Ranged find n) (h : Cuts find n (limit + 1) i r)
    (hparts : Parts find n i ps ms) : r ≠ some (ps.take (limit + 1)) := by
  obtain ⟨hstart, -, hend⟩ := hranged i hi m hfind
  have hlate : i < m.1 := by
    rcases Nat.lt_or_eq_of_le hstart with hlt | heq
    · exact hlt
    · exact absurd (Prod.ext heq.symm (by simp only; omega)) hne
  rintro rfl
  by_cases hlt : m.1 < n
  · have hround : roundOf find n i = some (m.1 + 1, m.1 + 1) := by
      simp only [roundOf, hfind, if_pos hempty, if_pos hlt]
    obtain ⟨ps', ms', rfl, -⟩ := parts_found hi hfind (Or.inr ⟨hlate, hlt⟩) hparts
    rw [List.take_succ_cons] at h
    have hhead := h.head_eq hround
    simp at hhead
  · have hround : roundOf find n i = none := by
      simp only [roundOf, hfind, if_pos hempty, if_neg hlt]
    cases h.of_none hround

/-- Where a part begins with an empty match, the next one begins one character further, and that is
right if a match is there. -/
theorem cuts_empty (hi : i ≤ n) (hfind : find i = some (i, i)) (hranged : Ranged find n)
    (h : Cuts find n (limit + 1) i r) (hparts : Parts find n i ps ms)
    (ih : ∀ {rest ps' ms'}, limit ≠ 0 → i + 1 ≤ n → Cuts find n limit (i + 1) rest →
      Parts find n (i + 1) ps' ms' → (rest = some (ps'.take limit) ↔ Neat find n limit (i + 1))) :
    r = some (ps.take (limit + 1)) ↔ Neat find n (limit + 1) i := by
  by_cases hlt : i < n
  · have hround : roundOf find n i = some (i + 1, i + 1) := by
      simp only [roundOf, hfind, if_true, if_pos hlt]
    rcases Nat.lt_or_eq_of_le (show i + 1 ≤ n from hlt) with hn | hn
    · rw [neat_empty hfind hn]
      have hfirst := parts_first hranged hfind hn hparts
      rcases h.of_some hround with ⟨hlast, rfl⟩ | ⟨hmore, -, rest, rfl, hrest⟩
      · obtain rfl : limit = 0 := by omega
        constructor
        · intro hr
          obtain ⟨j, ps', rfl⟩ := hparts.eq_cons
          obtain rfl : i + 1 = j := by simpa using hr
          exact Or.inr ⟨rfl, hfirst.mp ⟨ps', rfl⟩⟩
        · intro hneat
          have hmatch : ∃ k, find (i + 1) = some (i + 1, k) := by
            rcases hneat with ⟨hnext, -⟩ | ⟨-, hmatch⟩
            · exact ⟨i + 1, hnext⟩
            · exact hmatch
          obtain ⟨ps', rfl⟩ := hfirst.mpr hmatch
          rfl
      · constructor
        · intro hr
          obtain ⟨j, ps', rfl⟩ := hparts.eq_cons
          obtain ⟨cs, -, hcs⟩ := Option.map_eq_some_iff.mp hr
          obtain rfl : i + 1 = j := by simpa using congrArg List.head? hcs
          obtain ⟨k, hk⟩ := hfirst.mp ⟨ps', rfl⟩
          obtain ⟨ps'', ms', heq, hparts'⟩ := parts_next hi hfind hn hk hparts
          obtain rfl := (List.cons.inj heq).2
          have hrest' := map_cons_eq_iff.mp hr
          obtain rfl : i + 1 = k := by
            -- a match that is not empty begins the next part where it ends
            by_contra hne
            obtain ⟨limit, rfl⟩ := Nat.exists_eq_succ_of_ne_zero hmore
            obtain ⟨j', ps'', rfl⟩ := hparts'.eq_cons
            have hround' : roundOf find n (i + 1) = some (i + 1, k) := by
              simp only [roundOf, hk, if_neg hne]
            rw [hrest', List.take_succ_cons] at hrest
            have hhead := hrest.head_eq hround'
            exact hne (Prod.mk.inj hhead).1.symm
          exact Or.inl ⟨hk, (ih hmore hn.le hrest hparts').mp hrest'⟩
        · rintro (⟨hnext, hneat⟩ | ⟨hzero, -⟩)
          · obtain ⟨ps', ms', rfl, hparts'⟩ := parts_next hi hfind hn hnext hparts
            exact map_cons_eq_iff.mpr ((ih hmore hn.le hrest hparts').mpr hneat)
          · exact absurd hzero hmore
    · have hps := parts_last hranged hfind hn hparts
      rcases h.of_some hround with ⟨-, rfl⟩ | ⟨-, hless, -⟩
      · rw [hps, List.take_succ_cons, List.take_nil, hn]
        exact ⟨fun _ => .last limit i hfind hn, fun _ => rfl⟩
      · omega
  · have hround : roundOf find n i = none := by
      simp only [roundOf, hfind, if_true, if_neg hlt]
    rw [h.of_none hround]
    constructor
    · rintro ⟨⟩
    · intro hneat
      exact absurd (hneat.lt hfind) hlt

/-- The loop gives the first parts of the sequence just where it splits at neat matches. -/
theorem cuts_iff (hranged : Ranged find n) (h : Cuts find n limit i r) (hlimit : limit ≠ 0)
    (hi : i ≤ n) (hparts : Parts find n i ps ms) :
    r = some (ps.take limit) ↔ Neat find n limit i := by
  induction hfuel : n - i using Nat.strongRecOn generalizing limit i r ps ms with
  | ind fuel ih =>
    obtain ⟨limit, rfl⟩ := Nat.exists_eq_succ_of_ne_zero hlimit
    cases hfind : find i with
    | none =>
      -- the rest is the last part
      have hround : roundOf find n i = some (n, n + 1) := by simp only [roundOf, hfind]
      have hps := hparts.of_none (.stop i hi hfind)
      rcases h.of_some hround with ⟨-, hr⟩ | ⟨-, hlt, -⟩
      · rw [hr, hps]
        constructor
        · intro _
          exact .stop limit i hfind
        · intro _
          rw [Nat.succ_eq_add_one, List.take_succ_cons, List.take_nil]
      · exact absurd hlt (lt_irrefl n)
    | some m =>
      obtain ⟨hstart, hle, hend⟩ := hranged i hi m hfind
      by_cases hempty : m.1 = m.2
      · by_cases hne : m = (i, i)
        · subst hne
          apply cuts_empty hi hfind hranged h hparts
          intro rest ps' ms' hmore hle' hrest hparts'
          exact ih (n - (i + 1)) (by omega) hrest hmore hle' hparts' rfl
        · constructor
          · intro hr
            exact absurd hr (cuts_late hi hfind hempty hne hranged h hparts)
          · intro hneat
            exact absurd (hneat.not_late hfind hempty) hne
      · have hlt : m.1 < m.2 := by omega
        have hround : roundOf find n i = some m := by simp only [roundOf, hfind, if_neg hempty]
        obtain ⟨ps', ms', rfl, hparts'⟩ := parts_found hi hfind (Or.inl hlt) hparts
        rw [neat_found hfind hlt]
        rcases h.of_some hround with ⟨hlast, rfl⟩ | ⟨hmore, hless, rest, rfl, hrest⟩
        · obtain rfl : limit = 0 := by omega
          rw [List.take_succ_cons, List.take_zero]
          exact ⟨fun _ => .spent m.2, fun _ => rfl⟩
        · rw [map_cons_eq_iff]
          exact ih (n - m.2) (by omega) hrest hmore hend hparts' rfl

end Rounds

/-! ## The loop -/

variable {env : Env} {regex : Regex} {s : Subject} {i j limit fuel count : ℕ}

/-- A part that is added is the string of its characters. -/
theorem splitPartAdd_part (hsize : s.prop.size ≤ maxLength) (hij : i ≤ j)
    (hj : j ≤ s.chars.length) (array : StringArray) (hcount : array.values.length + 1 ≤ count) :
    Delivers env count (splitPartAdd env array (kindOf s.prop)
        ((s.prop.start.drop (s.offset i)).take (s.offset j - s.offset i)))
      fun array' => array'.values.map StringValue.prop =
        array.values.map StringValue.prop ++ [(s.extract (i, j)).prop] := by
  have hmono := s.offset_mono hij
  have hrange : Range s (s.offset i + 0, s.offset i + (s.offset j - s.offset i)) := by
    rw [Nat.add_zero, Nat.add_sub_cancel' hmono]
    exact ⟨hmono, ⟨i, hij.trans hj, rfl⟩, ⟨j, hj, rfl⟩⟩
  have hpart := @captureString_eq s (s.offset i) (0, s.offset j - s.offset i) hrange
  simp only [captureString, Nat.add_zero, Nat.add_sub_cancel' hmono, List.drop_zero,
    Nat.sub_zero] at hpart
  have hslice := @slice_offset s (i, j) hij hj
  rw [hslice] at hpart
  have hpartSize : (s.extract (i, j)).prop.start.length ≤ maxLength := by
    rw [← hpart]
    simp only [StringProp.size] at hsize
    rw [List.length_take, List.length_drop]
    omega
  unfold splitPartAdd arrayStringAdd
  apply (@stringArrayExpand_spec env array count hcount).bind
  intro array' harray'
  have hstart := congrArg StringProp.start hpart
  have hlength := congrArg StringProp.length hpart
  simp only at hstart hlength
  rw [hlength, hstart]
  apply (Delivers.of_returns (stringNew_spec env hpartSize (prop_length_le_size _))).bind
  intro v hv
  refine .inl ⟨_, rfl, ?_⟩
  change (array'.values ++ [v]).map StringValue.prop = _
  rw [List.map_append, harray', List.map_singleton, hv]

/-- What the engine finds. -/
def Found.captures : Found → Option Captures
  | .matched c => some c
  | _ => none

/-- An engine that does not fail. -/
theorem splitRegexpLoop_succ {kind : Kind} {string : StringProp} {start : ℕ} {array : StringArray}
    {places : List (ℕ × ℕ)} (h : regex.match (string.start.drop start) ≠ .failed) :
    splitRegexpLoop env regex kind string (fuel + 1) start limit array places = (do
      let (p, next) ← partPlaces string kind start (regex.match (string.start.drop start)).captures
      if string.size < p then .error .fault
      else
        let array ← splitPartAdd env array kind ((string.start.drop start).take (p - start))
        if limit - 1 ≠ 0 ∧ p < string.size then
          splitRegexpLoop env regex kind string fuel next (limit - 1) array
            (places ++ [(start, p)])
        else .ok (some (array, places ++ [(start, p)]))) := by
  rw [splitRegexpLoop]
  cases hmatch : regex.match (string.start.drop start) with
  | noMatch => rfl
  | matched c => rfl
  | failed => exact absurd hmatch h

/-- The round ends at a character, or it reads behind the end. -/
theorem partPlaces_spec (hsound : Sound regex s) (hi : i ≤ s.chars.length) :
    match roundOf (find regex s) s.chars.length i with
    | none => ∀ p next, partPlaces s.prop (kindOf s.prop) (s.offset i)
        (regex.match (s.prop.start.drop (s.offset i))).captures = .ok (p, next) → s.prop.size < p
    | some m => ∃ next, partPlaces s.prop (kindOf s.prop) (s.offset i)
        (regex.match (s.prop.start.drop (s.offset i))).captures = .ok (s.offset m.1, next) ∧
          (m.1 < s.chars.length → next = s.offset m.2) := by
  unfold roundOf
  cases hfind : find regex s i with
  | none =>
    have hnone := find_eq_none hsound hi hfind
    have hne : s.prop.size ≠ s.prop.size + 1 := Nat.ne_of_lt (Nat.lt_succ_self _)
    refine ⟨s.prop.size + 1, ?_, fun h => absurd h (lt_irrefl _)⟩
    simp only [hnone, Found.captures, partPlaces, s.offset_length]
    rw [if_neg hne]
  | some m =>
    obtain ⟨c, hmatch, hstart, hstop, him, hle, hm⟩ := find_eq_some hsound hi hfind
    rw [hmatch]
    simp only [Found.captures, partPlaces, hstart, hstop]
    by_cases hempty : m.1 = m.2
    · rw [if_pos hempty, hempty]
      by_cases hlt : m.2 < s.chars.length
      · have hoffset : s.offset m.2 < s.prop.size := by
          rw [← s.offset_length]
          exact s.offset_lt hlt le_rfl
        rw [if_pos hlt, if_pos rfl, if_neg (by omega), nextPlace_eq hlt]
        exact ⟨_, rfl, fun _ => rfl⟩
      · have hoffset : s.offset m.2 = s.prop.size := s.offset_of_length_le (by omega)
        rw [if_neg hlt, if_pos rfl]
        intro p next hplaces
        by_cases hkind : kindOf s.prop ≠ .byte
        · rw [if_pos ⟨hkind, by omega⟩] at hplaces
          cases hplaces
        · rw [if_neg (fun h => hkind h.1), nextPlace, if_neg hkind] at hplaces
          obtain ⟨rfl, -⟩ := Prod.mk.inj (Except.ok.inj hplaces)
          omega
    · have hne : s.offset m.1 ≠ s.offset m.2 := (s.offset_lt (by omega) hm).ne
      rw [if_neg hempty, if_neg hne]
      exact ⟨_, rfl, fun _ => rfl⟩

/-- The offsets of a range of characters. -/
def offsets (s : Subject) (m : ℕ × ℕ) : ℕ × ℕ := (s.offset m.1, s.offset m.2)

/-- The loop gives the parts of the rounds. -/
theorem splitRegexpLoop_spec (hsound : Sound regex s) (hsize : s.prop.size ≤ maxLength)
    {r : Option (List (ℕ × ℕ))} (h : Cuts (find regex s) s.chars.length limit i r)
    (hi : i ≤ s.chars.length) (hfuel : s.chars.length + 1 - i ≤ fuel) (array : StringArray)
    (places : List (ℕ × ℕ)) {cs : List (ℕ × ℕ)} (hr : r = some cs)
    (hcount : array.values.length + cs.length ≤ count) :
    Delivers env count (splitRegexpLoop env regex (kindOf s.prop) s.prop fuel (s.offset i) limit
        array places) fun result =>
      ∃ array', result = some (array', places ++ cs.map (offsets s)) ∧
        array'.values.map StringValue.prop =
          array.values.map StringValue.prop ++ cs.map fun m => (s.extract m).prop := by
  induction h generalizing fuel array places cs with
  | fault => cases hr
  | last limit i m hround hlast =>
    obtain ⟨fuel, rfl⟩ := Nat.exists_eq_succ_of_ne_zero (show fuel ≠ 0 by omega)
    obtain ⟨hstart, hm, -⟩ := roundOf_bounds hsound.ranged hi hround
    have hplaces := partPlaces_spec hsound hi
    rw [hround] at hplaces
    obtain ⟨next, hplaces, -⟩ := hplaces
    obtain rfl := Option.some.inj hr
    have hle := s.offset_le_size m.1
    have hstop : ¬(limit - 1 ≠ 0 ∧ s.offset m.1 < s.prop.size) := by
      rintro ⟨hlimit, hlt⟩
      rcases hlast with hzero | hn
      · exact hlimit hzero
      · exact absurd (s.lt_length hlt) (by omega)
    rw [splitRegexpLoop_succ (hsound i hi).1, hplaces, ok_bind]
    simp only
    rw [if_neg (by omega)]
    apply (splitPartAdd_part hsize hstart hm array hcount).bind
    intro array' harray'
    rw [if_neg hstop]
    exact .inl ⟨_, rfl, array', rfl, harray'⟩
  | more limit i m rest hround hlimit hlt hrest ih =>
    obtain ⟨fuel, rfl⟩ := Nat.exists_eq_succ_of_ne_zero (show fuel ≠ 0 by omega)
    obtain ⟨hstart, hm, hnext, hle⟩ := roundOf_bounds hsound.ranged hi hround
    have hplaces := partPlaces_spec hsound hi
    rw [hround] at hplaces
    obtain ⟨next, hplaces, hnextOffset⟩ := hplaces
    obtain ⟨cs', hcs', rfl⟩ := Option.map_eq_some_iff.mp hr
    have hless : s.offset m.1 < s.prop.size := by
      rw [← s.offset_length]
      exact s.offset_lt hlt le_rfl
    rw [List.length_cons] at hcount
    rw [splitRegexpLoop_succ (hsound i hi).1, hplaces, ok_bind]
    simp only
    rw [if_neg (by omega)]
    apply (splitPartAdd_part hsize hstart hm array (show _ ≤ count by omega)).bind
    intro array' harray'
    have hlength := congrArg List.length harray'
    simp only [List.length_append, List.length_map, List.length_singleton] at hlength
    rw [if_pos ⟨hlimit, hless⟩, hnextOffset hlt]
    apply (ih (hle hlt) (by omega) array' (places ++ [(s.offset i, s.offset m.1)]) hcs'
      (by omega)).mono
    rintro result ⟨array'', rfl, harray''⟩
    refine ⟨array'', ?_, ?_⟩
    · rw [List.append_assoc]
      rfl
    · rw [harray'', harray', List.append_assoc]
      rfl

/-- Where a round reads behind the end, there is no result. -/
theorem splitRegexpLoop_fault (hsound : Sound regex s) {r : Option (List (ℕ × ℕ))}
    (h : Cuts (find regex s) s.chars.length limit i r) (hi : i ≤ s.chars.length)
    (hr : r = none) (array : StringArray) (places : List (ℕ × ℕ)) (fuel : ℕ)
    (result : Option (StringArray × List (ℕ × ℕ))) :
    splitRegexpLoop env regex (kindOf s.prop) s.prop fuel (s.offset i) limit array places ≠
      .ok result := by
  induction h generalizing fuel array places with
  | last => cases hr
  | fault limit i hround =>
    cases fuel with
    | zero => rintro ⟨⟩
    | succ fuel =>
      have hplaces := partPlaces_spec hsound hi
      rw [hround] at hplaces
      rw [splitRegexpLoop_succ (hsound i hi).1]
      cases hresult : partPlaces s.prop (kindOf s.prop) (s.offset i)
          (regex.match (s.prop.start.drop (s.offset i))).captures with
      | error e => rintro ⟨⟩
      | ok p =>
        obtain ⟨p, next⟩ := p
        have hbehind := hplaces p next hresult
        rw [ok_bind]
        simp only [if_pos hbehind]
        rintro ⟨⟩
  | more limit i m rest hround hlimit hlt hrest ih =>
    cases fuel with
    | zero => rintro ⟨⟩
    | succ fuel =>
      obtain ⟨hstart, hm, hnext, hle⟩ := roundOf_bounds hsound.ranged hi hround
      have hplaces := partPlaces_spec hsound hi
      rw [hround] at hplaces
      obtain ⟨next, hplaces, hnextOffset⟩ := hplaces
      have hless : s.offset m.1 < s.prop.size := by
        rw [← s.offset_length]
        exact s.offset_lt hlt le_rfl
      rw [splitRegexpLoop_succ (hsound i hi).1, hplaces, ok_bind]
      simp only
      rw [if_neg (by omega)]
      cases hadd : splitPartAdd env array (kindOf s.prop)
          ((s.prop.start.drop (s.offset i)).take (s.offset m.1 - s.offset i)) with
      | error e => rintro ⟨⟩
      | ok array' =>
        rw [ok_bind, if_pos ⟨hlimit, hless⟩, hnextOffset hlt]
        exact ih (hle hlt) (Option.map_eq_none_iff.mp hr) array' _ fuel

/-! ## What is returned -/

/-- The number of parts that a limit allows. -/
def splitLimit (limit : Option Number) : ℕ := limit.elim (2 ^ 32 - 1) numberToUint32

/-- `split` returns the first parts of a subject, with the matches between them left out, and the
parts and the matches are the subject. -/
def SplitsRight (pattern : Pattern) (regex : Regex) (s : Subject) (limit : Option Number) : Prop :=
  ∃ ps ms, Parts (find regex s) s.chars.length 0 ps ms ∧
    interleave (ps.map fun p => (s.extract p).prop.start)
        (ms.map fun m => (s.extract m).prop.start) = s.prop.start ∧
    ∀ env this, this.prop = s.prop → Delivers env (ps.take (splitLimit limit)).length
      (prototypeSplitRegexp env this pattern limit) fun result =>
        ∃ values, result = some (values, (ps.take (splitLimit limit)).map (offsets s)) ∧
          values.map StringValue.prop =
            (ps.take (splitLimit limit)).map fun p => (s.extract p).prop

theorem extract_text (s : Subject) (m : ℕ × ℕ) : (s.extract m).prop.start =
    (s.prop.start.drop (s.offset m.1)).take (s.offset m.2 - s.offset m.1) := by
  rcases Nat.le_total m.1 m.2 with hle | hle
  · have hstart := extract_start s m.1 (m.2 - m.1)
    rwa [Nat.add_sub_cancel' hle] at hstart
  · have hmono := s.offset_mono hle
    rw [Nat.sub_eq_zero_of_le hmono, List.take_zero]
    apply (Subject.start_eq_nil_iff _).mpr
    rw [extract_chars, Nat.sub_eq_zero_of_le hle, List.take_zero]

/-- The parts and the matches between them are the subject. -/
theorem interleave_extract {ps ms : List (ℕ × ℕ)} (hranged : Ranged (find regex s) s.chars.length)
    (h : Parts (find regex s) s.chars.length 0 ps ms) :
    interleave (ps.map fun p => (s.extract p).prop.start)
        (ms.map fun m => (s.extract m).prop.start) = s.prop.start := by
  have hlength : s.prop.start.length = s.offset s.chars.length := s.offset_length.symm
  have heq := h.interleave_eq hranged (Nat.zero_le _) (fun i j hij => s.offset_mono hij) hlength
  have hzero : s.offset 0 = 0 := Segments.offset_zero _
  rw [hzero, List.drop_zero] at heq
  simp only [extract_text]
  exact heq

theorem Cuts.bounds {find : ℕ → Option (ℕ × ℕ)} {n : ℕ} {r : Option (List (ℕ × ℕ))}
    (h : Cuts find n limit i r) (hranged : Ranged find n) (hi : i ≤ n) {cs : List (ℕ × ℕ)}
    (hr : r = some cs) : ∀ m ∈ cs, m.1 ≤ n ∧ m.2 ≤ n := by
  induction h generalizing cs with
  | fault => cases hr
  | last limit i m hround =>
    obtain ⟨-, hm, -⟩ := roundOf_bounds hranged hi hround
    obtain rfl := Option.some.inj hr
    intro p hp
    obtain rfl := List.mem_singleton.mp hp
    exact ⟨hi, hm⟩
  | more limit i m rest hround hlimit hlt hrest ih =>
    obtain ⟨-, hm, -, hle⟩ := roundOf_bounds hranged hi hround
    obtain ⟨cs', hcs', rfl⟩ := Option.map_eq_some_iff.mp hr
    intro p hp
    rcases List.mem_cons.mp hp with rfl | hp
    · exact ⟨hi, hm⟩
    · exact ih (hle hlt) hcs' p hp

/-- Ranges of characters are the same if their offsets are. -/
theorem offsets_inj {cs cs' : List (ℕ × ℕ)} (h : cs.map (offsets s) = cs'.map (offsets s))
    (hcs : ∀ m ∈ cs, m.1 ≤ s.chars.length ∧ m.2 ≤ s.chars.length)
    (hcs' : ∀ m ∈ cs', m.1 ≤ s.chars.length ∧ m.2 ≤ s.chars.length) : cs = cs' := by
  have hback : ∀ cs : List (ℕ × ℕ), (∀ m ∈ cs, m.1 ≤ s.chars.length ∧ m.2 ≤ s.chars.length) →
      (cs.map (offsets s)).map (fun m => (s.position m.1, s.position m.2)) = cs := by
    intro cs hcs
    have hsame : ∀ m ∈ cs, ((fun m => (s.position m.1, s.position m.2)) ∘ offsets s) m = m := by
      intro m hm
      obtain ⟨h1, h2⟩ := hcs m hm
      exact Prod.ext (s.position_offset h1) (s.position_offset h2)
    rw [List.map_map, List.map_congr_left hsame, List.map_id']
  rw [← hback cs hcs, h, hback cs' hcs']

variable {pattern : Pattern} {limit' : Option Number}

/-- A subject that is not empty is given to the loop. -/
theorem prototypeSplitRegexp_eq (hregex : pattern.regex s.prop = some regex) (hne : s.chars ≠ [])
    (hlimit : splitLimit limit' ≠ 0) {this : StringValue} (hthis : this.prop = s.prop) :
    prototypeSplitRegexp env this pattern limit' = (do
      let array ← stringArrayAlloc env Array.spareLength
      let result ← splitRegexpLoop env regex (kindOf s.prop) s.prop (s.prop.size + 2) 0
        (splitLimit limit') array []
      .ok (result.map fun (array, places) => (array.values, places))) := by
  have hsize : s.prop.size ≠ 0 := by
    intro hzero
    exact hne (s.start_eq_nil_iff.mp (List.length_eq_zero_iff.mp hzero))
  unfold prototypeSplitRegexp
  simp only [hthis, hregex]
  congr 1
  funext array
  rw [splitLimit] at hlimit ⊢
  rw [if_neg hlimit, if_neg hsize]

/-- Where a round reads behind the end, nothing is returned. -/
theorem prototypeSplitRegexp_fault (hregex : pattern.regex s.prop = some regex)
    (hsound : Sound regex s) (hne : s.chars ≠ []) (hlimit : splitLimit limit' ≠ 0)
    {this : StringValue} (hthis : this.prop = s.prop)
    (hcuts : Cuts (find regex s) s.chars.length (splitLimit limit') 0 none)
    (result : Option (List StringValue × List (ℕ × ℕ))) :
    prototypeSplitRegexp env this pattern limit' ≠ .ok result := by
  have hzero : s.offset 0 = 0 := Segments.offset_zero _
  rw [prototypeSplitRegexp_eq hregex hne hlimit hthis]
  cases halloc : stringArrayAlloc env Array.spareLength with
  | error e => rintro ⟨⟩
  | ok array =>
    rw [ok_bind, ← hzero]
    cases hloop : splitRegexpLoop env regex (kindOf s.prop) s.prop (s.prop.size + 2) (s.offset 0)
        (splitLimit limit') array [] with
    | error e => rintro ⟨⟩
    | ok result' =>
      exact absurd hloop (splitRegexpLoop_fault hsound hcuts (Nat.zero_le _) rfl array [] _ result')

/-- `split` is right just where it splits at neat matches, as long as there are not too many parts
for an array. -/
theorem splitsRight_iff (pattern : Pattern) {regex : Regex} (s : Subject) (limit : Option Number)
    (hregex : pattern.regex s.prop = some regex) (hsound : Sound regex s)
    (hsize : s.prop.size ≤ maxLength) (hne : s.chars ≠ []) (hlimit : splitLimit limit ≠ 0) :
    (Neat (find regex s) s.chars.length (splitLimit limit) 0 → SplitsRight pattern regex s limit) ∧
    ((∀ ps ms, Parts (find regex s) s.chars.length 0 ps ms →
        2 * (ps.take (splitLimit limit)).length ≤ Array.maxLength) →
      SplitsRight pattern regex s limit →
        Neat (find regex s) s.chars.length (splitLimit limit) 0) := by
  have hranged := hsound.ranged
  have hlength := s.length_le_size
  have hzero : s.offset 0 = 0 := Segments.offset_zero _
  obtain ⟨r, hcuts⟩ := exists_cuts hranged (splitLimit limit) (Nat.zero_le _)
  constructor
  · intro hneat
    obtain ⟨ps, ms, hparts⟩ := exists_parts hranged 0
    have hr := (cuts_iff hranged hcuts hlimit (Nat.zero_le _) hparts).mpr hneat
    refine ⟨ps, ms, hparts, interleave_extract hranged hparts, ?_⟩
    intro env this hthis
    rw [prototypeSplitRegexp_eq hregex hne hlimit hthis]
    apply (Delivers.of_returns (stringArrayAlloc_spec Array.spareLength)).bind
    intro array harray
    have hloop := @splitRegexpLoop_spec env regex s 0 (splitLimit limit) (s.prop.size + 2)
      (ps.take (splitLimit limit)).length hsound hsize r hcuts (Nat.zero_le _) (by omega) array []
      _ hr (by simp [harray])
    rw [hzero] at hloop
    apply hloop.bind
    rintro result ⟨array', rfl, harray'⟩
    refine .inl ⟨_, rfl, array'.values, rfl, ?_⟩
    rw [harray', harray]
    rfl
  · rintro hcount ⟨ps, ms, hparts, -, hright⟩
    obtain ⟨this, hthis⟩ := exists_value s hsize
    obtain ⟨result, heq, values, rfl, -⟩ := (hright ⟨fun _ => true, fun _ => 0⟩ this
      hthis).exists_ok (fun _ => rfl) (hcount ps ms hparts)
    apply (cuts_iff hranged hcuts hlimit (Nat.zero_le _) hparts).mp
    cases r with
    | none =>
      exact absurd heq (prototypeSplitRegexp_fault hregex hsound hne hlimit hthis hcuts _)
    | some cs =>
      rw [prototypeSplitRegexp_eq hregex hne hlimit hthis] at heq
      obtain ⟨array, halloc, harray⟩ := (@stringArrayAlloc_spec ⟨fun _ => true, fun _ => 0⟩
        Array.spareLength).exists_ok (fun _ => rfl)
      have hloop := @splitRegexpLoop_spec ⟨fun _ => true, fun _ => 0⟩ regex s 0 (splitLimit limit)
        (s.prop.size + 2) cs.length hsound hsize (some cs) hcuts (Nat.zero_le _) (by omega) array []
        cs rfl (by simp [harray])
      rw [halloc, ok_bind, ← hzero] at heq
      rcases hloop with ⟨result, hloop, array', rfl, -⟩ | ⟨hloop, -⟩
      · rw [hloop, ok_bind] at heq
        have hplaces := congrArg Prod.snd (Option.some.inj (Except.ok.inj heq))
        have hsame := offsets_inj hplaces (hcuts.bounds hranged (Nat.zero_le _) rfl) (by
          intro p hp
          exact hparts.bounds hranged (Nat.zero_le _) p (List.mem_of_mem_take hp))
        rw [hsame]
      · rw [hloop] at heq
        cases heq

/-- An engine that finds an empty match wherever it starts. -/
def emptyEngine : Regex := ⟨fun _ _ => .matched ⟨0, 0, []⟩⟩

theorem emptyEngine_sound : Sound emptyEngine letters := by
  intro i hi
  refine ⟨by rintro ⟨⟩, ?_⟩
  rintro c ⟨⟩
  exact ⟨le_rfl, ⟨i, hi, rfl⟩, ⟨i, hi, rfl⟩⟩

/-- Two letters are split between them. -/
theorem splitsRight_letters : SplitsRight (patternOf emptyEngine) emptyEngine letters none := by
  apply (splitsRight_iff (patternOf emptyEngine) letters none rfl emptyEngine_sound (by decide)
    (List.cons_ne_nil _ _) (by decide)).1
  change Neat _ 2 (4294967293 + 1 + 1) 0
  apply Neat.empty _ 0 (by decide) (by decide) (by decide)
  exact Neat.last _ 1 (by decide) (by decide)

/-- An engine that finds the end. -/
def endEngine : Regex := ⟨fun subject _ => .matched ⟨subject.length, subject.length, []⟩⟩

theorem endEngine_sound : Sound endEngine letters := by
  intro i hi
  have hend : letters.offset i + (letters.prop.start.drop (letters.offset i)).length = 2 := by
    have hle : letters.offset i ≤ 2 := letters.offset_le_size i
    have hlength : letters.prop.start.length = 2 := rfl
    rw [List.length_drop, hlength]
    omega
  refine ⟨by rintro ⟨⟩, ?_⟩
  rintro c ⟨⟩
  have hcut := letters_cut (Nat.le_refl 2)
  rw [← hend] at hcut
  exact ⟨le_rfl, hcut, hcut⟩

/-- If the empty match at the end is found, a byte behind the end is read. -/
theorem not_splitsRight :
    ¬∀ (pattern : Pattern) (regex : Regex) (s : Subject) (limit : Option Number),
      pattern.regex s.prop = some regex → Sound regex s → s.prop.size ≤ maxLength →
        s.chars ≠ [] → splitLimit limit ≠ 0 → SplitsRight pattern regex s limit := by
  intro h
  obtain ⟨ps, ms, hparts, -, hright⟩ := h (patternOf endEngine) endEngine letters none rfl
    endEngine_sound (by decide) (List.cons_ne_nil _ _) (by decide)
  obtain ⟨this, hthis⟩ := exists_value letters (by decide)
  have hfind : find endEngine letters 0 = some (2, 2) := by decide
  have hsep : Separator (find endEngine letters) 2 0 0 none := by
    apply Separator.skip 0 (2, 2) none (by decide) hfind (by simp [EndsPart])
    exact .past 3 (by decide)
  have hps := hparts.of_none hsep
  obtain ⟨result, heq, -⟩ := (hright ⟨fun _ => true, fun _ => 0⟩ this hthis).exists_ok
    (fun _ => rfl) (by rw [hps]; decide)
  have hcuts : Cuts (find endEngine letters) 2 (splitLimit none) 0 none := .fault _ _ (by decide)
  exact prototypeSplitRegexp_fault rfl endEngine_sound (List.cons_ne_nil _ _) (by decide) hthis
    hcuts result heq

end Njs.Regexp
