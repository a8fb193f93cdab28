import Njs.Stringify.Walk
import Mathlib.Data.Rat.Floor

/-!
# Indentation

With a space argument `JSON.stringify()` puts each element and each property on a line of its own,
behind a gap for each array or object that it is in. The gap is the first ten characters of a
string, or up to ten spaces, and nothing is put into an array or object that is empty.
-/

namespace Njs.Stringify

open Njs.Utf8 (code CodePoint)
open Njs.Json (Call Dtoa)

/-- The third argument of `JSON.stringify()`: a string, a number or any other value. -/
inductive Space
  | string (us : Text)
  | number (n : Number)
  | other

/-- `stringify->space`. -/
def Space.bytes : Space → List UInt8
  | .string us => (code.encodeAll us).take 10
  | .number (.finite q) => if 0 < q then List.replicate ⌊min q 10⌋.toNat 32 else []
  | .number _ => []
  | .other => []

/-- The gap of ECMAScript. -/
def Space.gap : Space → List UInt8
  | .string us => code.encodeAll (us.take 10)
  | .number (.finite q) => List.replicate (min 10 ⌊q⌋).toNat 32
  | .number .posInfinity => List.replicate 10 32
  | .number _ => []
  | .other => []

/-- A part of an indented text: one of the text that is not indented, or a part that is put
between them. -/
inductive Piece
  | written (call : Call)
  | inserted (bytes : List UInt8)

/-- What is appended for a part. -/
def Piece.call : Piece → Call
  | written call => call
  | inserted bytes => .append bytes

/-- The part without what is put in. -/
def Piece.written? : Piece → Option Call
  | written call => some call
  | inserted _ => none

variable (gap : List UInt8)

/-- A new line inside of so many arrays and objects. -/
def lineBreak (level : ℕ) : List Piece :=
  if gap = [] then [] else .inserted [10] :: List.replicate level (.inserted gap)

/-- The space behind a colon. -/
def colonSpace : List Piece := if gap = [] then [] else [.inserted [32]]

/-- A text as ECMAScript indents it. -/
def pretty : ℕ → List Token → List Piece
  | _, [] => []
  | level, .opening first :: .closing last :: tokens =>
    .written (.append [first]) :: .written (.append [last]) :: pretty level tokens
  | level, .opening bracket :: tokens =>
    .written (.append [bracket]) :: lineBreak gap (level + 1) ++ pretty (level + 1) tokens
  | level, .closing bracket :: tokens =>
    lineBreak gap (level - 1) ++ .written (.append [bracket]) :: pretty (level - 1) tokens
  | level, .comma :: tokens =>
    .written (.append [Json.valueSeparator]) :: lineBreak gap level ++ pretty level tokens
  | level, .key name :: tokens =>
    .written (.string Json.quotationMark (.text name)) ::
      .written (.append [Json.nameSeparator]) :: colonSpace gap ++ pretty level tokens
  | level, .value call :: tokens => .written call :: pretty level tokens

/-- No array or object is empty. -/
def NonEmpty : List Token → Prop
  | .opening _ :: .closing _ :: _ => False
  | _ :: tokens => NonEmpty tokens
  | [] => True

/-- What is before and behind a value in its wrapper. -/
def wrapperFront (settings : Settings) : List Call :=
  .append [Json.beginObject] :: stringifyIndent settings 1 ++
    [.string Json.quotationMark (.text []), .append [Json.nameSeparator]] ++
      stringifySpace settings

def wrapperBack (settings : Settings) : List Call :=
  stringifyIndent settings 0 ++ [.append [Json.endObject]]

/-- What the iterator appends for a value, between what it appends for the wrapper. -/
def Appends (settings : Settings) (v : Value) (calls : List Call) : Prop :=
  ∃ n, iterate settings n (start settings v) =
    .done (wrapperFront settings ++ calls ++ wrapperBack settings)

/-- A value is serializable: it is the only property of its wrapper for which something is
written, and is nested no deeper than the iterator allows. -/
def Serializable (settings : Settings) (v : Value) (tokens : List Token) : Prop :=
  ∃ item, (slots settings (.wrapper v) (some (stateKeys settings (.wrapper v)))).reduceOption =
    [(some [], item)] ∧ serialize settings (Json.maxDepth - 1) item = some tokens

variable {gap} {settings : Settings} {space : List UInt8} {level depth : ℕ} {v : Value}
  {tokens : List Token} {calls : List Call} {dtoa : Dtoa}

/-! ## What does not depend on the space -/

theorem serialize_spaced (settings : Settings) (space : List UInt8) (depth : ℕ) :
    serialize { settings with space := space } depth = serialize settings depth := by
  induction depth with
  | zero =>
    funext v
    cases hobject : v.jsonIsObject with
    | true => rw [serialize_zero hobject, serialize_zero hobject]
    | false => rw [serialize_leaf hobject, serialize_leaf hobject]
  | succ depth ih =>
    funext v
    cases hobject : v.jsonIsObject with
    | true =>
      have hstate : newState { settings with space := space } v = newState settings v := by
        cases v <;> rfl
      rw [serialize_succ hobject, serialize_succ hobject, ih, hstate]
      rfl
    | false => rw [serialize_leaf hobject, serialize_leaf hobject]

theorem Serializable.spaced (h : Serializable settings v tokens) (space : List UInt8) :
    Serializable { settings with space := space } v tokens := by
  obtain ⟨item, hslots, htokens⟩ := h
  refine ⟨item, hslots, ?_⟩
  rw [serialize_spaced]
  exact htokens

/-! ## What is returned -/

theorem Serializable.wrapperTokens (h : Serializable settings v tokens) :
    wrapperTokens settings v = some (.opening Json.beginObject :: .key [] :: tokens ++
      [.closing Json.endObject]) := by
  obtain ⟨item, hslots, htokens⟩ := h
  have hitem : itemTokens (serialize settings (Json.maxDepth - 1)) (some [], item) =
      some (.key [] :: tokens) := by
    rw [itemTokens, htokens]
    rfl
  rw [Stringify.wrapperTokens, stateTokens, hslots, bracketed, List.mapM_cons, hitem]
  simp [brackets]

theorem Serializable.balanced (h : Serializable settings v tokens) : Balanced tokens := by
  obtain ⟨item, -, htokens⟩ := h
  exact serialize_balanced htokens

/-- What is appended for a value that is serializable. -/
theorem Serializable.appends (h : Serializable settings v tokens) :
    Appends settings v (layout settings 1 tokens) := by
  obtain ⟨n, hn⟩ := iterate_done h.wrapperTokens
  refine ⟨n, hn.trans (congrArg Next.done ?_)⟩
  rw [List.cons_append, List.cons_append]
  simp only [layout, h.balanced.layout_append, wrapperFront, wrapperBack, List.append_assoc,
    List.cons_append, List.append_nil, Nat.zero_add, Nat.sub_self]

theorem bytes_append (dtoa : Dtoa) (calls calls' : List Call) :
    bytes dtoa (calls ++ calls') = bytes dtoa calls ++ bytes dtoa calls' :=
  List.flatMap_append

/-- What is returned is what was appended for the value. -/
theorem Appends.stringifies (h : Appends settings v calls) (dtoa : Dtoa) :
    Stringifies settings dtoa v (some (bytes dtoa calls)) := by
  obtain ⟨n, hn⟩ := h
  refine ⟨n, _, hn, ?_⟩
  rw [bytes_append, bytes_append]
  unfold strip
  by_cases hspace : settings.space = []
  · have hfront : bytes dtoa (wrapperFront settings) = [123, 34, 34, 58] := by
      simp [wrapperFront, stringifyIndent, stringifySpace, hspace, bytes, Call.piece, Json.quoted,
        Str.Subject.prop]
    have hback : bytes dtoa (wrapperBack settings) = [125] := by
      simp [wrapperBack, stringifyIndent, hspace, bytes, Call.piece]
    rw [hfront, hback, if_pos hspace, if_neg (by simp)]
    simp
  · have hfront : bytes dtoa (wrapperFront settings) = [123, 10, 34, 34, 58, 32] := by
      simp [wrapperFront, stringifyIndent, stringifySpace, hspace, bytes, Call.piece, Json.quoted,
        Str.Subject.prop]
    have hback : bytes dtoa (wrapperBack settings) = [10, 125] := by
      simp [wrapperBack, stringifyIndent, hspace, bytes, Call.piece]
    rw [hfront, hback, if_neg hspace, if_neg (by simp)]
    simp

theorem Appends.unique {calls' : List Call} (h : Appends settings v calls)
    (h' : Appends settings v calls') : calls = calls' := by
  obtain ⟨n, hn⟩ := h
  obtain ⟨n', hn'⟩ := h'
  exact List.append_cancel_left (List.append_cancel_right (iterate_done_unique hn hn'))

/-! ## The layout of the iterator and that of ECMAScript -/

theorem stringifyIndent_eq (hspace : settings.space = gap) (level : ℕ) :
    stringifyIndent settings (level + 1) = (lineBreak gap level).map Piece.call := by
  unfold stringifyIndent lineBreak
  rw [hspace]
  split_ifs
  · rfl
  · simp [Piece.call]

theorem stringifySpace_eq (hspace : settings.space = gap) :
    stringifySpace settings = (colonSpace gap).map Piece.call := by
  unfold stringifySpace colonSpace
  rw [hspace]
  split_ifs <;> rfl

theorem stringifyIndent_nil (hspace : settings.space = []) (times : ℕ) :
    stringifyIndent settings times = [] := if_pos hspace

theorem stringifySpace_nil (hspace : settings.space = []) : stringifySpace settings = [] :=
  if_pos hspace

/-- The two are the same if there is nothing to put in, or nothing is empty. -/
theorem layout_eq_pretty (hspace : settings.space = gap)
    (hempty : gap = [] ∨ NonEmpty tokens) (hlevel : (levelAfter level tokens).isSome = true) :
    layout settings (level + 1) tokens = (pretty gap level tokens).map Piece.call := by
  have hindent := stringifyIndent_eq hspace
  have hcolon := stringifySpace_eq hspace
  induction level, tokens using pretty.induct with
  | case1 => rfl
  | case2 level first last tokens ih =>
    rcases hempty with rfl | hempty
    · simp only [layout, pretty, stringifyIndent_nil hspace, Nat.add_sub_cancel, List.map_cons,
        Piece.call, ih (Or.inl rfl) hlevel, List.nil_append, List.cons_append]
    · exact hempty.elim
  | case3 level bracket tokens hnot ih =>
    have hrest : gap = [] ∨ NonEmpty tokens := hempty.imp_right fun h => by
      unfold NonEmpty at h
      split at h
      · exact h.elim
      · rename_i heq
        obtain ⟨-, rfl⟩ := List.cons.inj heq
        exact h
      · rename_i heq
        cases heq
    rw [pretty]
    · simp only [layout, hindent, ih hrest hlevel, List.map_cons, List.map_append, Piece.call]
    · exact hnot
  | case4 level bracket tokens ih =>
    cases level with
    | zero => cases hlevel
    | succ level =>
      have hrest := ih (hempty.imp_right id) hlevel
      rw [Nat.add_sub_cancel] at hrest
      simp only [layout, pretty, hindent, Nat.add_sub_cancel, hrest, List.map_append, List.map_cons,
        Piece.call, List.append_assoc, List.singleton_append]
  | case5 level tokens ih =>
    simp only [layout, pretty, hindent, ih (hempty.imp_right id) hlevel, List.map_cons,
      List.map_append, Piece.call]
  | case6 level name tokens ih =>
    simp only [layout, pretty, hcolon, ih (hempty.imp_right id) hlevel, List.map_cons,
      List.map_append, Piece.call, List.cons_append, List.nil_append]
  | case7 level call tokens ih =>
    simp only [layout, pretty, ih (hempty.imp_right id) hlevel, List.map_cons, Piece.call]

/-- What is written is what is written without a space. -/
theorem filterMap_pretty (hspace : settings.space = []) (level' : ℕ) :
    (pretty gap level tokens).filterMap Piece.written? = layout settings level' tokens := by
  have hbreak : ∀ level, (lineBreak gap level).filterMap Piece.written? = [] := by
    intro level
    unfold lineBreak
    split_ifs
    · rfl
    · simp [Piece.written?]
  have hcolon : (colonSpace gap).filterMap Piece.written? = [] := by
    unfold colonSpace
    split_ifs <;> rfl
  have hindent := stringifyIndent_nil hspace
  induction level, tokens using pretty.induct generalizing level' with
  | case1 => rfl
  | case2 level first last tokens ih =>
    simp only [layout, pretty, hindent, Nat.add_sub_cancel, List.filterMap_cons, Piece.written?,
      ih level', List.nil_append]
    rfl
  | case3 level bracket tokens hnot ih =>
    rw [pretty]
    · simp only [layout, hindent, List.cons_append, List.filterMap_cons, List.filterMap_append,
        Piece.written?, hbreak, ih (level' + 1)]
    · exact hnot
  | case4 level bracket tokens ih =>
    simp only [layout, pretty, hindent, List.filterMap_append, List.filterMap_cons, Piece.written?,
      hbreak, ih (level' - 1), List.nil_append, List.singleton_append]
  | case5 level tokens ih =>
    simp only [layout, pretty, hindent, List.cons_append, List.filterMap_cons,
      List.filterMap_append, Piece.written?, hbreak, ih level']
  | case6 level name tokens ih =>
    simp only [layout, pretty, stringifySpace_nil hspace, List.cons_append, List.filterMap_cons,
      List.filterMap_append, Piece.written?, hcolon, ih level', List.nil_append, List.append_nil]
  | case7 level call tokens ih =>
    simp only [layout, pretty, List.filterMap_cons, Piece.written?, ih level']

/-- More is put in where something is empty. -/
theorem length_pretty_le (hspace : settings.space = gap) (hgap : gap ≠ [])
    (hlevel : (levelAfter level tokens).isSome = true) :
    (pretty gap level tokens).length ≤ (layout settings (level + 1) tokens).length ∧
      ((pretty gap level tokens).length = (layout settings (level + 1) tokens).length →
        NonEmpty tokens) := by
  have hindent : ∀ level, (stringifyIndent settings (level + 1)).length =
      (lineBreak gap level).length := by
    intro level
    rw [stringifyIndent_eq hspace, List.length_map]
  have hcolon : (stringifySpace settings).length = (colonSpace gap).length := by
    rw [stringifySpace_eq hspace, List.length_map]
  have hbreak : ∀ level, (lineBreak gap level).length = level + 1 := by
    intro level
    rw [lineBreak, if_neg hgap, List.length_cons, List.length_replicate]
  induction level, tokens using pretty.induct with
  | case1 => exact ⟨le_rfl, fun _ => trivial⟩
  | case2 level first last tokens ih =>
    obtain ⟨hle, -⟩ := ih hlevel
    simp only [layout, pretty, List.cons_append, List.length_cons, List.length_append, hindent,
      hbreak, Nat.add_sub_cancel]
    exact ⟨by omega, fun h => by omega⟩
  | case3 level bracket tokens hnot ih =>
    obtain ⟨hle, heq⟩ := ih hlevel
    have hnonEmpty : NonEmpty tokens → NonEmpty (.opening bracket :: tokens) := by
      intro h
      unfold NonEmpty
      split
      · rename_i heq
        obtain ⟨-, rfl⟩ := List.cons.inj heq
        exact hnot _ _ rfl
      · rename_i heq
        obtain ⟨-, rfl⟩ := List.cons.inj heq
        exact h
      · trivial
    rw [pretty]
    · simp only [layout, List.cons_append, List.length_cons, List.length_append, hindent]
      exact ⟨by omega, fun h => hnonEmpty (heq (by omega))⟩
    · exact hnot
  | case4 level bracket tokens ih =>
    cases level with
    | zero => cases hlevel
    | succ level =>
      obtain ⟨hle, heq⟩ := ih hlevel
      simp only [layout, pretty, List.length_cons, List.length_append, hindent, Nat.add_sub_cancel,
        List.length_nil] at hle heq ⊢
      exact ⟨by omega, fun h => heq (by omega)⟩
  | case5 level tokens ih =>
    obtain ⟨hle, heq⟩ := ih hlevel
    simp only [layout, pretty, List.cons_append, List.length_cons, List.length_append, hindent]
    exact ⟨by omega, fun h => heq (by omega)⟩
  | case6 level name tokens ih =>
    obtain ⟨hle, heq⟩ := ih hlevel
    simp only [layout, pretty, List.cons_append, List.length_cons, List.length_append, hcolon,
      List.length_nil]
    exact ⟨by omega, fun h => heq (by omega)⟩
  | case7 level call tokens ih =>
    obtain ⟨hle, heq⟩ := ih hlevel
    simp only [layout, pretty, List.length_cons]
    exact ⟨by omega, fun h => heq (by omega)⟩

end Njs.Stringify
