import Mathlib.Data.Nat.Init
import Mathlib.Tactic.Common

/-!
# Successive matches

A search from a place of a sequence finds a range or nothing. The matches of a sequence are found
one after another; each search starts where the match before ends, and one place further if that
match is empty. A sequence is split at the matches that are not empty, and at empty ones inside of
a part.
-/

namespace Njs.Lib

variable (find : ℕ → Option (ℕ × ℕ)) (next : ℕ → ℕ × ℕ → ℕ) (n : ℕ)

/-- What is found from a place lies between it and the end. -/
def Ranged : Prop := ∀ i ≤ n, ∀ m, find i = some m → i ≤ m.1 ∧ m.1 ≤ m.2 ∧ m.2 ≤ n

/-- The search from where something is found finds it again. -/
def Settles : Prop := ∀ i ≤ n, ∀ m, find i = some m → find m.1 = some m

/-- The matches of searches from a place on, where a rule says at which place the search starts
after a match. -/
inductive Successive : ℕ → List (ℕ × ℕ) → Prop
  | past (i : ℕ) (h : n < i) : Successive i []
  | stop (i : ℕ) (h : i ≤ n) (hfind : find i = none) : Successive i []
  | found (i : ℕ) (m : ℕ × ℕ) (ms : List (ℕ × ℕ)) (h : i ≤ n) (hfind : find i = some m)
    (hrest : Successive (next i m) ms) : Successive i (m :: ms)

/-- Where the search starts after a match: one place further if it is empty. -/
def afterMatch (_ : ℕ) (m : ℕ × ℕ) : ℕ := if m.1 = m.2 then m.1 + 1 else m.2

/-- The successive matches from a place on. -/
def Matches : ℕ → List (ℕ × ℕ) → Prop := Successive find afterMatch n

/-- Where the search starts if it is one place further only after a match that ends where its
search has started. -/
def afterStart (i : ℕ) (m : ℕ × ℕ) : ℕ := if m.2 = i then i + 1 else m.2

/-- No search for the successive matches finds an empty one after the place where it starts. -/
inductive Prompt : ℕ → Prop
  | past (i : ℕ) (h : n < i) : Prompt i
  | stop (i : ℕ) (h : i ≤ n) (hfind : find i = none) : Prompt i
  | found (i : ℕ) (m : ℕ × ℕ) (h : i ≤ n) (hfind : find i = some m) (hprompt : m.1 = m.2 → m.1 = i)
    (hrest : Prompt (afterMatch i m)) : Prompt i

variable {find next n} {i : ℕ} {m : ℕ × ℕ} {ms ms' : List (ℕ × ℕ)}

/-- There are matches from every place on, if the searches go on. -/
theorem exists_successive (h : ∀ i ≤ n, ∀ m, find i = some m → i < next i m) (i : ℕ) :
    ∃ ms, Successive find next n i ms := by
  induction hfuel : n + 1 - i using Nat.strongRecOn generalizing i with
  | ind fuel ih =>
    by_cases hi : i ≤ n
    · cases hfind : find i with
      | none => exact ⟨[], .stop i hi hfind⟩
      | some m =>
        have hlt := h i hi m hfind
        obtain ⟨ms, hms⟩ := ih (n + 1 - next i m) (by omega) (next i m) rfl
        exact ⟨_, .found i m ms hi hfind hms⟩
    · exact ⟨[], .past i (by omega)⟩

theorem Successive.eq_nil (h : Successive find next n i ms) (hfind : find i = none) : ms = [] := by
  cases h with
  | past => rfl
  | stop => rfl
  | found _ m ms hi hfound => simp [hfind] at hfound

theorem Successive.eq_cons (h : Successive find next n i ms) (hi : i ≤ n)
    (hfind : find i = some m) :
    ∃ ms', ms = m :: ms' ∧ Successive find next n (next i m) ms' := by
  cases h with
  | past => omega
  | stop _ hle hnone => simp [hfind] at hnone
  | found _ m' ms' hle hfound hrest =>
    rw [hfind] at hfound
    obtain rfl := Option.some.inj hfound
    exact ⟨ms', rfl, hrest⟩

theorem Ranged.lt_afterMatch (h : Ranged find n) : ∀ i ≤ n, ∀ m, find i = some m →
    i < afterMatch i m := by
  intro i hi m hm
  obtain ⟨hstart, hstop, -⟩ := h i hi m hm
  unfold afterMatch
  split_ifs <;> omega

theorem Ranged.lt_afterStart (h : Ranged find n) : ∀ i ≤ n, ∀ m, find i = some m →
    i < afterStart i m := by
  intro i hi m hm
  obtain ⟨hstart, hstop, -⟩ := h i hi m hm
  unfold afterStart
  split_ifs <;> omega

theorem afterStart_eq (h : Ranged find n) (hi : i ≤ n) (hfind : find i = some m)
    (hprompt : m.1 = m.2 → m.1 = i) : afterStart i m = afterMatch i m := by
  obtain ⟨hstart, hstop, -⟩ := h i hi m hfind
  unfold afterStart afterMatch
  split_ifs <;> omega

/-- If the empty matches are found where the searches start, both rules find the same. -/
theorem Prompt.successive (h : Prompt find n i) (hranged : Ranged find n)
    (hms : Matches find n i ms) : Successive find afterStart n i ms := by
  induction h generalizing ms with
  | past i hi =>
    cases hms with
    | past => exact .past i hi
    | stop => omega
    | found => omega
  | stop i hi hfind =>
    obtain rfl := hms.eq_nil hfind
    exact .stop i hi hfind
  | found i m hi hfind hprompt hrest ih =>
    obtain ⟨ms', rfl, hrest'⟩ := hms.eq_cons hi hfind
    apply Successive.found i m ms' hi hfind
    rw [afterStart_eq hranged hi hfind hprompt]
    exact ih hrest'

/-- Otherwise there is a match too many. -/
theorem Successive.prompt (h : Successive find afterStart n i ms') (hms : Matches find n i ms)
    (hranged : Ranged find n) (hsettles : Settles find n) :
    ms.length ≤ ms'.length ∧ (ms.length = ms'.length → Prompt find n i) := by
  induction hfuel : n + 1 - i using Nat.strongRecOn generalizing i ms ms' with
  | ind fuel ih =>
    rcases Nat.lt_or_ge n i with hpast | hi
    · cases hms with
      | past => exact ⟨Nat.zero_le _, fun _ => .past i hpast⟩
      | stop => omega
      | found => omega
    · cases hfind : find i with
      | none =>
        obtain rfl := hms.eq_nil hfind
        exact ⟨Nat.zero_le _, fun _ => .stop i hi hfind⟩
      | some m =>
        obtain ⟨rest, rfl, hrest⟩ := hms.eq_cons hi hfind
        obtain ⟨rest', rfl, hrest'⟩ := h.eq_cons hi hfind
        obtain ⟨hstart, hstop, hend⟩ := hranged i hi m hfind
        have hlt := hranged.lt_afterMatch i hi m hfind
        rw [List.length_cons, List.length_cons]
        by_cases hprompt : m.1 = m.2 → m.1 = i
        · rw [afterStart_eq hranged hi hfind hprompt] at hrest'
          obtain ⟨hle, hsame⟩ := ih _ (by omega) hrest' hrest rfl
          exact ⟨by omega, fun heq => .found i m hi hfind hprompt (hsame (by omega))⟩
        · -- the empty match is found once more
          obtain ⟨hempty, hlate⟩ := Classical.not_imp.mp hprompt
          have hagain := hsettles i hi m hfind
          have hnext : afterStart i m = m.1 := by
            unfold afterStart
            rw [if_neg (by omega), hempty]
          rw [hnext] at hrest'
          obtain ⟨rest'', rfl, hrest''⟩ := hrest'.eq_cons (by omega) hagain
          have hsame : afterStart m.1 m = afterMatch i m := by
            unfold afterStart afterMatch
            rw [if_pos hempty.symm, if_pos hempty]
          rw [hsame] at hrest''
          have hle := (ih _ (by omega) hrest'' hrest rfl).1
          rw [List.length_cons]
          exact ⟨by omega, fun heq => absurd heq (by omega)⟩

/-! ## Parts -/

variable (find n)

/-- A part that begins at `i` ends at a match if that is not empty, or if it lies strictly between
the beginning of the part and the end. -/
def EndsPart (i : ℕ) (m : ℕ × ℕ) : Prop := m.1 < m.2 ∨ (i < m.1 ∧ m.1 < n)

/-- The first match from a place on at which a part that begins at `i` ends. -/
inductive Separator (i : ℕ) : ℕ → Option (ℕ × ℕ) → Prop
  | past (q : ℕ) (h : n < q) : Separator i q none
  | stop (q : ℕ) (h : q ≤ n) (hfind : find q = none) : Separator i q none
  | found (q : ℕ) (m : ℕ × ℕ) (h : q ≤ n) (hfind : find q = some m) (hends : EndsPart n i m) :
    Separator i q (some m)
  | skip (q : ℕ) (m : ℕ × ℕ) (r : Option (ℕ × ℕ)) (h : q ≤ n) (hfind : find q = some m)
    (hends : ¬EndsPart n i m) (hrest : Separator i (m.1 + 1) r) : Separator i q r

/-- The parts from a place on, and the matches between them. -/
inductive Parts : ℕ → List (ℕ × ℕ) → List (ℕ × ℕ) → Prop
  | last (i : ℕ) (h : Separator find n i i none) : Parts i [(i, n)] []
  | part (i : ℕ) (m : ℕ × ℕ) (ps ms : List (ℕ × ℕ)) (h : Separator find n i i (some m))
    (hrest : Parts m.2 ps ms) : Parts i ((i, m.1) :: ps) (m :: ms)

/-- Sequences, with separators between them. -/
def interleave {α : Type*} : List (List α) → List (List α) → List α
  | part :: parts, separator :: separators => part ++ separator ++ interleave parts separators
  | parts, _ => parts.flatten

variable {find n} {q : ℕ} {r : Option (ℕ × ℕ)} {ps : List (ℕ × ℕ)}

theorem exists_separator (h : Ranged find n) (i q : ℕ) : ∃ r, Separator find n i q r := by
  induction hfuel : n + 1 - q using Nat.strongRecOn generalizing q with
  | ind fuel ih =>
    by_cases hq : q ≤ n
    · cases hfind : find q with
      | none => exact ⟨_, .stop q hq hfind⟩
      | some m =>
        have hle := (h q hq m hfind).1
        by_cases hends : EndsPart n i m
        · exact ⟨_, .found q m hq hfind hends⟩
        · obtain ⟨r, hr⟩ := ih (n + 1 - (m.1 + 1)) (by omega) (m.1 + 1) rfl
          exact ⟨r, .skip q m r hq hfind hends hr⟩
    · exact ⟨_, .past q (by omega)⟩

/-- A separator is a match after the place. -/
theorem Separator.bounds (h : Separator find n i q (some m)) (hranged : Ranged find n) :
    q ≤ m.1 ∧ m.1 ≤ m.2 ∧ m.2 ≤ n ∧ EndsPart n i m := by
  generalize hr : some m = r at h
  induction h with
  | past => cases hr
  | stop => cases hr
  | found q m' hq hfind hends =>
    obtain rfl := Option.some.inj hr
    obtain ⟨hstart, hle, hn⟩ := hranged q hq m hfind
    exact ⟨hstart, hle, hn, hends⟩
  | skip q m' r hq hfind hends hrest ih =>
    have hstart := (hranged q hq m' hfind).1
    obtain ⟨hlt, hrest⟩ := ih hr
    exact ⟨by omega, hrest⟩

/-- A part ends after its beginning, or its separator does. -/
theorem Separator.lt (h : Separator find n i i (some m)) (hranged : Ranged find n) :
    i < m.2 ∧ m.2 ≤ n := by
  obtain ⟨hstart, hle, hn, hends⟩ := h.bounds hranged
  rcases hends with hlt | ⟨hlt, -⟩
  · exact ⟨by omega, hn⟩
  · exact ⟨by omega, hn⟩

theorem Separator.eq_none (h : Separator find n i q r) (hfind : find q = none) : r = none := by
  cases h with
  | past => rfl
  | stop => rfl
  | found _ m hq hfound => simp [hfind] at hfound
  | skip _ m r hq hfound => simp [hfind] at hfound

theorem Separator.eq_some (h : Separator find n i q r) (hq : q ≤ n) (hfind : find q = some m)
    (hends : EndsPart n i m) : r = some m := by
  cases h with
  | past => omega
  | stop _ hq hnone => simp [hfind] at hnone
  | found _ m' hq hfound =>
    rw [hfind] at hfound
    exact hfound.symm
  | skip _ m' r hq hfound hnot =>
    rw [hfind] at hfound
    obtain rfl := Option.some.inj hfound
    exact absurd hends hnot

theorem Separator.skipped (h : Separator find n i q r) (hq : q ≤ n) (hfind : find q = some m)
    (hends : ¬EndsPart n i m) : Separator find n i (m.1 + 1) r := by
  cases h with
  | past => omega
  | stop _ hq hnone => simp [hfind] at hnone
  | found _ m' hq hfound hyes =>
    rw [hfind] at hfound
    obtain rfl := Option.some.inj hfound
    exact absurd hyes hends
  | skip _ m' r hq hfound hnot hrest =>
    rw [hfind] at hfound
    obtain rfl := Option.some.inj hfound
    exact hrest

/-- The separator is determined. -/
theorem Separator.unique {r' : Option (ℕ × ℕ)} (h : Separator find n i q r)
    (h' : Separator find n i q r') : r = r' := by
  induction h with
  | past q hq =>
    cases h' with
    | past => rfl
    | stop => rfl
    | found => omega
    | skip => omega
  | stop q hq hfind => exact (h'.eq_none hfind).symm
  | found q m hq hfind hends => exact (h'.eq_some hq hfind hends).symm
  | skip q m r hq hfind hends hrest ih => exact ih (h'.skipped hq hfind hends)

theorem Parts.of_none (h : Parts find n i ps ms) (hsep : Separator find n i i none) :
    ps = [(i, n)] := by
  cases h with
  | last => rfl
  | part _ m ps ms hpart => cases hpart.unique hsep

theorem Parts.of_some (h : Parts find n i ps ms) (hsep : Separator find n i i (some m)) :
    ∃ ps' ms', ps = (i, m.1) :: ps' ∧ Parts find n m.2 ps' ms' := by
  cases h with
  | last _ hlast => cases hlast.unique hsep
  | part _ m' ps ms hpart hrest =>
    obtain rfl := Option.some.inj (hpart.unique hsep)
    exact ⟨ps, ms, rfl, hrest⟩

theorem exists_parts (h : Ranged find n) (i : ℕ) : ∃ ps ms, Parts find n i ps ms := by
  induction hfuel : n + 1 - i using Nat.strongRecOn generalizing i with
  | ind fuel ih =>
    obtain ⟨r, hr⟩ := exists_separator h i i
    cases r with
    | none => exact ⟨_, _, .last i hr⟩
    | some m =>
      obtain ⟨hlt, hle⟩ := hr.lt h
      obtain ⟨ps, ms, hrest⟩ := ih (n + 1 - m.2) (by omega) m.2 rfl
      exact ⟨_, _, .part i m ps ms hr hrest⟩

theorem Parts.eq_cons (h : Parts find n i ps ms) : ∃ j ps', ps = (i, j) :: ps' := by
  cases h with
  | last => exact ⟨_, _, rfl⟩
  | part => exact ⟨_, _, rfl⟩

theorem Parts.bounds (h : Parts find n i ps ms) (hranged : Ranged find n) (hi : i ≤ n) :
    ∀ p ∈ ps, p.1 ≤ n ∧ p.2 ≤ n := by
  induction h with
  | last i h =>
    intro p hp
    obtain rfl := List.mem_singleton.mp hp
    exact ⟨hi, Nat.le_refl n⟩
  | part i m ps ms h hrest ih =>
    obtain ⟨-, hle, hn, -⟩ := h.bounds hranged
    intro p hp
    rcases List.mem_cons.mp hp with rfl | hp
    · exact ⟨hi, Nat.le_trans hle hn⟩
    · exact ih hn p hp

/-- The parts with the matches between them give the sequence back. The places may stand for
offsets. -/
theorem Parts.interleave_eq {α : Type*} (h : Parts find n i ps ms) (hranged : Ranged find n)
    (hi : i ≤ n) {offset : ℕ → ℕ} (hmono : ∀ i j, i ≤ j → offset i ≤ offset j) {l : List α}
    (hl : l.length = offset n) :
    interleave (ps.map fun p => (l.drop (offset p.1)).take (offset p.2 - offset p.1))
        (ms.map fun m => (l.drop (offset m.1)).take (offset m.2 - offset m.1)) =
      l.drop (offset i) := by
  have htake : ∀ a b, a ≤ b →
      (l.drop (offset a)).take (offset b - offset a) ++ l.drop (offset b) = l.drop (offset a) := by
    intro a b hab
    have hle := hmono a b hab
    have hdrop : l.drop (offset b) = (l.drop (offset a)).drop (offset b - offset a) := by
      rw [List.drop_drop, Nat.add_sub_cancel' hle]
    rw [hdrop, List.take_append_drop]
  induction h with
  | last i h =>
    have hlast := htake i n hi
    rw [List.drop_eq_nil_of_le (Nat.le_of_eq hl), List.append_nil] at hlast
    simp only [List.map_cons, List.map_nil, interleave, List.flatten_cons, List.flatten_nil,
      List.append_nil, hlast]
  | part i m ps ms h hrest ih =>
    obtain ⟨hstart, hle, hn, -⟩ := h.bounds hranged
    rw [List.map_cons, List.map_cons, interleave, ih hn, List.append_assoc, htake m.1 m.2 hle,
      htake i m.1 hstart]

end Njs.Lib
