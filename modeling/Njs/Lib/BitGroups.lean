import Mathlib.Data.List.Basic
import Mathlib.Data.Nat.Bitwise
import Mathlib.Tactic.Ring

/-!
# Regrouping bit streams

Text encodings of binary data cut one stream of bits into groups of different
widths: octets on one side, hexadecimal digits or sextets on the other. A stream
is a list of the numbers `0` and `1`, most significant bit first, and `groups`
keeps complete groups only.
-/

namespace Njs.Lib

/-- Setting bits above those of `x` is an addition. -/
theorem or_mul_two_pow {x k : ℕ} (m : ℕ) (hx : x < 2 ^ k) :
    x ||| m * 2 ^ k = x + m * 2 ^ k := by
  rw [Nat.or_comm, ← Nat.shiftLeft_eq, ← Nat.shiftLeft_add_eq_or_of_lt hx, Nat.add_comm]

/-- The `w` low bits of `x`, most significant first. -/
def bits : ℕ → ℕ → List ℕ
  | 0, _ => []
  | w + 1, x => x / 2 ^ w % 2 :: bits w x

/-- The number with the given bits, most significant first. -/
def ofBits (s : List ℕ) : ℕ := s.foldl (fun x b => 2 * x + b) 0

/-- The complete groups of `w` bits at the front of a stream, as numbers. The fuel
is the number of groups that may be taken. -/
def groupsLoop (w : ℕ) : ℕ → List ℕ → List ℕ
  | 0, _ => []
  | fuel + 1, s => if s.length < w then [] else ofBits (s.take w) :: groupsLoop w fuel (s.drop w)

/-- Cut a stream into groups of `w` bits, dropping an incomplete last group. -/
def groups (w : ℕ) (s : List ℕ) : List ℕ := groupsLoop w (s.length / w) s

@[simp] theorem bits_length (w x : ℕ) : (bits w x).length = w := by
  induction w with
  | zero => rfl
  | succ w ih => simp [bits, ih]

theorem flatMap_bits_length (w : ℕ) (xs : List ℕ) :
    (xs.flatMap (bits w)).length = xs.length * w := by
  induction xs with
  | nil => simp
  | cons x xs ih =>
    rw [List.flatMap_cons, List.length_append, bits_length, ih, List.length_cons, Nat.succ_mul,
      Nat.add_comm]

theorem mem_bits_lt_two {w x b : ℕ} (h : b ∈ bits w x) : b < 2 := by
  induction w with
  | zero => simp [bits] at h
  | succ w ih =>
    rcases List.mem_cons.mp h with rfl | h
    · exact Nat.mod_lt _ (by decide)
    · exact ih h

private theorem foldl_bits (x : ℕ) (s : List ℕ) :
    s.foldl (fun x b => 2 * x + b) x = x * 2 ^ s.length + ofBits s := by
  induction s generalizing x with
  | nil => simp [ofBits]
  | cons b s ih =>
    simp only [ofBits, List.foldl_cons, List.length_cons, Nat.mul_zero, Nat.zero_add]
    rw [ih (2 * x + b), ih b]
    ring

theorem ofBits_cons (b : ℕ) (s : List ℕ) : ofBits (b :: s) = b * 2 ^ s.length + ofBits s := by
  rw [ofBits, List.foldl_cons, foldl_bits]
  simp

/-- Reading back the low bits of a number gives the number modulo `2 ^ w`. -/
theorem ofBits_bits (w x : ℕ) : ofBits (bits w x) = x % 2 ^ w := by
  induction w with
  | zero => simp [bits, ofBits, Nat.mod_one]
  | succ w ih =>
    rw [bits, ofBits_cons, bits_length, ih, Nat.pow_succ, Nat.mod_mul]
    ring

theorem ofBits_append (s t : List ℕ) : ofBits (s ++ t) = ofBits s * 2 ^ t.length + ofBits t := by
  rw [ofBits, List.foldl_append, foldl_bits]
  rfl

/-- The low bits of a number are its middle bits followed by its lowest ones. -/
theorem bits_add (v w x : ℕ) : bits (v + w) x = bits v (x / 2 ^ w) ++ bits w x := by
  induction v with
  | zero => rw [Nat.zero_add]; rfl
  | succ v ih =>
    rw [Nat.succ_add, bits, bits, ih, Nat.div_div_eq_div_mul, Nat.pow_add, Nat.mul_comm (2 ^ v)]
    rfl

theorem ofBits_lt {s : List ℕ} (hs : ∀ b ∈ s, b < 2) : ofBits s < 2 ^ s.length := by
  induction s with
  | nil => exact Nat.one_pos
  | cons b s ih =>
    have hb : b < 2 := hs b (by simp)
    have hrest := ih fun c h => hs c (by simp [h])
    have hle : b * 2 ^ s.length ≤ 1 * 2 ^ s.length := Nat.mul_le_mul_right _ (by omega)
    rw [ofBits_cons, List.length_cons, Nat.pow_succ]
    omega

/-- Spelling the number of a list of bits gives the bits back. -/
theorem bits_ofBits {s : List ℕ} (hs : ∀ b ∈ s, b < 2) : bits s.length (ofBits s) = s := by
  suffices h : ∀ x, bits s.length (x * 2 ^ s.length + ofBits s) = s by simpa using h 0
  induction s with
  | nil => intro x; rfl
  | cons b s ih =>
    intro x
    have hb : b < 2 := hs b (by simp)
    have hlt : ofBits s < 2 ^ s.length := ofBits_lt fun c h => hs c (by simp [h])
    have hsplit : x * 2 ^ (s.length + 1) + (b * 2 ^ s.length + ofBits s) =
        (2 * x + b) * 2 ^ s.length + ofBits s := by ring
    rw [List.length_cons, ofBits_cons, hsplit, bits, ih (fun c h => hs c (by simp [h])),
      Nat.add_comm, Nat.add_mul_div_right _ _ (Nat.two_pow_pos _), Nat.div_eq_of_lt hlt,
      Nat.zero_add, Nat.mul_add_mod, Nat.mod_eq_of_lt hb]

@[simp] theorem groups_nil (w : ℕ) : groups w [] = [] := by simp [groups, groupsLoop]

/-- An incomplete group is dropped. -/
theorem groups_of_length_lt {w : ℕ} {s : List ℕ} (h : s.length < w) : groups w s = [] := by
  rw [groups, Nat.div_eq_of_lt h, groupsLoop]

/-- A complete group at the front of the stream is taken whole. -/
theorem groups_append {w : ℕ} {s : List ℕ} (hw : 0 < w) (hs : s.length = w) (rest : List ℕ) :
    groups w (s ++ rest) = ofBits s :: groups w rest := by
  have hfuel : (s ++ rest).length / w = rest.length / w + 1 := by
    rw [List.length_append, hs, Nat.add_comm, Nat.add_div_right _ hw]
  rw [groups, hfuel, groupsLoop, if_neg (by simp [hs]), List.take_left' hs, List.drop_left' hs,
    groups]

/-- The group spelled by all bits of a number. -/
theorem groups_bits {w : ℕ} (hw : 0 < w) (x : ℕ) (rest : List ℕ) :
    groups w (bits w x ++ rest) = x % 2 ^ w :: groups w rest := by
  rw [groups_append hw (bits_length w x), ofBits_bits]

/-- The group spelled by the lowest bits of one number and those of the next. -/
theorem groups_bits_bits {v w n : ℕ} (hn : 0 < n) (hvw : v + w = n) (x y : ℕ) (rest : List ℕ) :
    groups n (bits v x ++ (bits w y ++ rest)) =
      (x % 2 ^ v * 2 ^ w + y % 2 ^ w) :: groups n rest := by
  rw [← List.append_assoc, groups_append hn (by simpa using hvw), ofBits_append, ofBits_bits,
    ofBits_bits, bits_length]

/-- Groups of `w` bits are numbers below `2 ^ w`. -/
theorem lt_of_mem_groups {w x : ℕ} {s : List ℕ} (hs : ∀ b ∈ s, b < 2) (hx : x ∈ groups w s) :
    x < 2 ^ w := by
  rw [groups] at hx
  generalize s.length / w = fuel at hx
  induction fuel generalizing s with
  | zero => simp [groupsLoop] at hx
  | succ fuel ih =>
    rw [groupsLoop] at hx
    split_ifs at hx with hlen
    · simp at hx
    · rcases List.mem_cons.mp hx with rfl | hx
      · have hlt := ofBits_lt (s := s.take w) fun b h => hs b (List.mem_of_mem_take h)
        rwa [List.length_take, Nat.min_eq_left (by omega)] at hlt
      · exact ih (fun b h => hs b (List.mem_of_mem_drop h)) hx

/-- There are as many groups as fit into the stream. -/
theorem groups_length (w : ℕ) (s : List ℕ) :
    (groups w s).length = s.length / w := by
  rw [groups]
  suffices h : ∀ fuel, fuel * w ≤ s.length → (groupsLoop w fuel s).length = fuel from
    h _ (Nat.div_mul_le_self _ _)
  intro fuel
  induction fuel generalizing s with
  | zero => intro; rfl
  | succ fuel ih =>
    intro hle
    rw [Nat.succ_mul] at hle
    rw [groupsLoop, if_neg (by omega), List.length_cons,
      ih (s.drop w) (by rw [List.length_drop]; omega)]

/-- An incomplete group at the end of a stream of whole groups is dropped. -/
theorem groups_append_short {w n : ℕ} {s t : List ℕ} (hw : 0 < w) (hs : s.length = n * w)
    (ht : t.length < w) : groups w (s ++ t) = groups w s := by
  induction n generalizing s with
  | zero =>
    obtain rfl : s = [] := List.length_eq_zero_iff.mp (by simpa using hs)
    rw [List.nil_append, groups_of_length_lt ht, groups_nil]
  | succ n ih =>
    rw [Nat.succ_mul] at hs
    have htake : (s.take w).length = w := by rw [List.length_take]; omega
    rw [← List.take_append_drop w s, List.append_assoc, groups_append hw htake,
      groups_append hw htake, ih (by rw [List.length_drop]; omega)]

/-- The groups of a longer stream start with those of the shorter one. -/
theorem groups_prefix_append {w : ℕ} (hw : 0 < w) (s t : List ℕ) :
    groups w s <+: groups w (s ++ t) := by
  induction hlen : s.length using Nat.strongRecOn generalizing s with
  | ind len ih =>
    by_cases hs : s.length < w
    · rw [groups_of_length_lt hs]
      exact List.nil_prefix
    · have htake : (s.take w).length = w := by rw [List.length_take]; omega
      rw [← List.take_append_drop w s, List.append_assoc, groups_append hw htake,
        groups_append hw htake]
      exact List.cons_prefix_cons.mpr
        ⟨rfl, ih _ (by rw [List.length_drop]; omega) (s.drop w) rfl⟩

/-- Spelling numbers below `2 ^ w` with `w` bits each and cutting the stream again
gives the numbers back, also when fewer than `w` further bits follow. -/
theorem groups_flatMap_bits {w : ℕ} {xs tail : List ℕ} (hw : 0 < w) (hxs : ∀ x ∈ xs, x < 2 ^ w)
    (htail : tail.length < w) : groups w (xs.flatMap (bits w) ++ tail) = xs := by
  induction xs with
  | nil => simpa using groups_of_length_lt htail
  | cons x xs ih =>
    rw [List.flatMap_cons, List.append_assoc, groups_append hw (bits_length w x), ofBits_bits,
      Nat.mod_eq_of_lt (hxs x (by simp)), ih fun y h => hxs y (by simp [h])]

/-- A stream made of whole groups is spelled back by its groups. -/
theorem flatMap_bits_groups {w n : ℕ} {s : List ℕ} (hs : ∀ b ∈ s, b < 2)
    (hlen : s.length = n * w) : (groups w s).flatMap (bits w) = s := by
  rcases Nat.eq_zero_or_pos w with rfl | hw
  · obtain rfl : s = [] := List.length_eq_zero_iff.mp (by simpa using hlen)
    simp
  induction n generalizing s with
  | zero =>
    obtain rfl : s = [] := List.length_eq_zero_iff.mp (by simpa using hlen)
    simp
  | succ n ih =>
    have hle : w ≤ s.length := by rw [hlen, Nat.succ_mul]; omega
    have htake : (s.take w).length = w := by simp [hle]
    have hfirst : bits w (ofBits (s.take w)) = s.take w := by
      have h := bits_ofBits (s := s.take w) fun b h => hs b (List.mem_of_mem_take h)
      rwa [htake] at h
    have hrest : (groups w (s.drop w)).flatMap (bits w) = s.drop w := by
      apply ih fun b h => hs b (List.mem_of_mem_drop h)
      rw [List.length_drop, hlen, Nat.succ_mul, Nat.add_sub_cancel]
    conv_lhs => rw [← List.take_append_drop w s]
    rw [groups_append hw htake, List.flatMap_cons, hfirst, hrest, List.take_append_drop]

end Njs.Lib
