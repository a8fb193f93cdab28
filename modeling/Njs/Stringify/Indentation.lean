import Njs.Stringify.Gap
import Njs.Json.Chunks
import Njs.Str.UriCodec

/-!
# When the output is indented as it should be

The gap is cut off behind ten bytes of a string, which are not always ten characters, an infinite
number gives no gap, and new lines are also put into an array or object that is empty. In all
other cases the output is that of ECMAScript.
-/

namespace Njs.Stringify

open Njs.Utf8 (code CodePoint)
open Njs.Json (Call Dtoa)

variable {settings : Settings} {level depth : ℕ} {v : Value} {tokens : List Token}
  {calls : List Call} {p q : List UInt8}

/-! ## Texts -/

/-- Bytes that are those of a text. -/
def IsText (p : List UInt8) : Prop := ∃ us : Text, code.encodeAll us = p

/-- `njs_dtoa`, which writes ASCII characters. -/
structure AsciiDtoa extends Dtoa where
  ascii : ∀ n, ∀ c ∈ text n, c < 0x80

theorem IsText.append (h : IsText p) (h' : IsText q) : IsText (p ++ q) := by
  obtain ⟨us, rfl⟩ := h
  obtain ⟨us', rfl⟩ := h'
  exact ⟨us ++ us', code.encodeAll_append us us'⟩

theorem IsText.ascii (h : ∀ c ∈ p, c < 0x80) : IsText p := Str.exists_encodeAll_of_ascii h

theorem escapeChar_ascii {c : UInt8} (hc : c < 0x80) : ∀ d ∈ Json.escapeChar c, d < 0x80 := by
  have hall : ∀ n < 128, (Json.escapeChar (UInt8.ofNat n)).all (· < 0x80) = true := by decide
  have hlt : c.toNat < 128 := UInt8.lt_iff_toNat_lt.mp hc
  have h := hall c.toNat hlt
  rw [UInt8.ofNat_toNat] at h
  simpa using h

/-- A string of the script is written as a text. -/
theorem quoted_isText (us : Text) :
    IsText (Json.quoted Json.quotationMark (code.encodeAll us)) := by
  have hescapes : IsText (Json.escapes Json.quotationMark (code.encodeAll us)) := by
    induction us with
    | nil => exact ⟨[], rfl⟩
    | cons u us ih =>
      rw [code.encodeAll_cons, Json.escapes_append]
      refine IsText.append ?_ ih
      obtain ⟨b, cs, hu, -, hcs, hone⟩ := Str.encode_eq_cons u
      cases hspecial : Json.isSpecial Json.quotationMark b with
      | true =>
        have hb := Json.special_lt hspecial
        rw [hu, hone hb]
        refine IsText.ascii ?_
        have hwritten : Json.escapes Json.quotationMark [b] = Json.escapeChar b := by
          simp [Json.escapes, hspecial]
        rw [hwritten]
        exact escapeChar_ascii hb
      | false =>
        have hplain : ∀ c ∈ code.encode u, Json.isSpecial Json.quotationMark c = false := by
          rw [hu]
          intro c hc
          rcases List.mem_cons.mp hc with rfl | hc
          · exact hspecial
          · exact Json.continuation_not_special (hcs c hc)
        rw [Json.escapes_plain hplain]
        exact ⟨[u], List.append_nil _⟩
  have hquote : IsText [Json.quotationMark] :=
    IsText.ascii (List.forall_mem_singleton.mpr (by decide))
  exact (hquote.append hescapes).append hquote

/-- What a call writes is a text. -/
def CallIsText (dtoa : Dtoa) (call : Call) : Prop := IsText (call.piece dtoa)

theorem bytes_isText {dtoa : Dtoa} (h : ∀ call ∈ calls, CallIsText dtoa call) :
    IsText (bytes dtoa calls) := by
  induction calls with
  | nil => exact ⟨[], rfl⟩
  | cons call calls ih =>
    exact (h call List.mem_cons_self).append (ih fun c hc => h c (List.mem_cons_of_mem call hc))

theorem appendValue_isText (dtoa : AsciiDtoa) (v : Value) :
    CallIsText dtoa.toDtoa (appendValue v) := by
  have hnull : IsText [110, 117, 108, 108] := IsText.ascii (by simp)
  have hnumber : ∀ n, CallIsText dtoa.toDtoa (.number n) := by
    intro n
    cases n with
    | finite q => exact IsText.ascii (dtoa.ascii q)
    | _ => exact hnull
  have hboolean : ∀ b : Bool, CallIsText dtoa.toDtoa
      (.append (if b then [116, 114, 117, 101] else [102, 97, 108, 115, 101])) := by
    intro b
    have hbytes : ∀ c ∈ (if b then [116, 114, 117, 101] else [102, 97, 108, 115, 101] :
        List UInt8), c < 0x80 := by
      cases b <;> simp
    exact IsText.ascii hbytes
  cases v with
  | string s => exact quoted_isText s
  | objectString o s => exact quoted_isText s
  | number n => exact hnumber n
  | objectNumber o n => exact hnumber n
  | boolean b => exact hboolean b
  | objectBoolean o b => exact hboolean b
  | _ => exact hnull

/-- What is written for a token is a text. -/
def Token.IsText (dtoa : Dtoa) : Token → Prop
  | opening bracket | closing bracket => bracket < 0x80
  | comma | key _ => True
  | value call => CallIsText dtoa call

theorem bracketed_isText {dtoa : AsciiDtoa} {value : Value → Option (List Token)}
    {keys : Option (List Text)} {items : List (Option Text × Value)}
    (hvalue : ∀ v tokens, value v = some tokens → ∀ token ∈ tokens, token.IsText dtoa.toDtoa)
    (h : bracketed value (brackets keys).1 (brackets keys).2 items = some tokens) :
    ∀ token ∈ tokens, token.IsText dtoa.toDtoa := by
  obtain ⟨parts, hparts, rfl⟩ := Option.map_eq_some_iff.mp h
  have hbrackets : (brackets keys).1 < 0x80 ∧ (brackets keys).2 < 0x80 := by
    cases keys with
    | none => exact ⟨by decide, by decide⟩
    | some keys =>
      exact ⟨(by decide : Json.beginObject < 0x80), (by decide : Json.endObject < 0x80)⟩
  have hpart : ∀ part ∈ parts, ∀ token ∈ part, token.IsText dtoa.toDtoa := by
    intro part hpart token htoken
    obtain ⟨item, -, hitem⟩ := mapM_mem hparts hpart
    obtain ⟨rest, hrest, rfl⟩ := itemTokens_some hitem
    rcases List.mem_append.mp htoken with hname | hrest'
    · obtain ⟨name, -, rfl⟩ := List.mem_map.mp hname
      trivial
    · exact hvalue _ _ hrest token hrest'
  have hrest : ∀ token ∈ restTokens false parts, token.IsText dtoa.toDtoa := by
    intro token htoken
    rcases mem_restTokens htoken with rfl | ⟨part, hpart', htoken⟩
    · trivial
    · exact hpart part hpart' token htoken
  intro token htoken
  rcases List.mem_cons.mp htoken with rfl | htoken
  · exact hbrackets.1
  · rcases List.mem_append.mp htoken with htoken | htoken
    · exact hrest token htoken
    · obtain rfl := List.mem_singleton.mp htoken
      exact hbrackets.2

theorem serialize_isText (dtoa : AsciiDtoa) (h : serialize settings depth v = some tokens) :
    ∀ token ∈ tokens, token.IsText dtoa.toDtoa := by
  have hleaf : ∀ depth v, v.jsonIsObject = false → ∀ tokens,
      serialize settings depth v = some tokens → ∀ token ∈ tokens, token.IsText dtoa.toDtoa := by
    intro depth v hobject tokens htokens token htoken
    rw [serialize_leaf hobject] at htokens
    obtain rfl := Option.some.inj htokens
    obtain rfl := List.mem_singleton.mp htoken
    exact appendValue_isText dtoa v
  induction depth generalizing v tokens with
  | zero =>
    cases hobject : v.jsonIsObject with
    | true =>
      rw [serialize_zero hobject] at h
      cases h
    | false => exact hleaf 0 v hobject tokens h
  | succ depth ih =>
    cases hobject : v.jsonIsObject with
    | true =>
      rw [serialize_succ hobject] at h
      exact bracketed_isText (fun _ _ => ih) h
    | false => exact hleaf (depth + 1) v hobject tokens h

/-- The output is a text if the gap is one. -/
theorem layout_isText {dtoa : Dtoa} (hspace : IsText settings.space)
    (h : ∀ token ∈ tokens, token.IsText dtoa) (level : ℕ) :
    ∀ call ∈ layout settings level tokens, CallIsText dtoa call := by
  have hindent : ∀ times, ∀ call ∈ stringifyIndent settings times, CallIsText dtoa call := by
    intro times call hcall
    unfold stringifyIndent at hcall
    split_ifs at hcall
    · cases hcall
    · rcases List.mem_cons.mp hcall with rfl | hcall
      · exact IsText.ascii (List.forall_mem_singleton.mpr (by decide))
      · obtain rfl := List.eq_of_mem_replicate hcall
        exact hspace
  have hcolon : ∀ call ∈ stringifySpace settings, CallIsText dtoa call := by
    intro call hcall
    unfold stringifySpace at hcall
    split_ifs at hcall
    · cases hcall
    · obtain rfl := List.mem_singleton.mp hcall
      exact IsText.ascii (List.forall_mem_singleton.mpr (by decide))
  have hbracket : ∀ bracket : UInt8, bracket < 0x80 → CallIsText dtoa (.append [bracket]) :=
    fun bracket hlt => IsText.ascii (List.forall_mem_singleton.mpr hlt)
  have hcomma : CallIsText dtoa (.append [Json.valueSeparator]) := hbracket _ (by decide)
  have hname : CallIsText dtoa (.append [Json.nameSeparator]) := hbracket _ (by decide)
  induction tokens generalizing level with
  | nil => exact List.forall_mem_nil _
  | cons token tokens ih =>
    obtain ⟨htoken, hrest⟩ := List.forall_mem_cons.mp h
    have hcalls := ih hrest
    cases token with
    | opening bracket =>
      simp only [layout, List.cons_append, List.forall_mem_cons, List.forall_mem_append]
      exact ⟨hbracket bracket htoken, hindent _, hcalls _⟩
    | closing bracket =>
      simp only [layout, List.forall_mem_append, List.forall_mem_singleton]
      exact ⟨⟨hindent _, hbracket bracket htoken⟩, hcalls _⟩
    | comma =>
      simp only [layout, List.cons_append, List.forall_mem_cons, List.forall_mem_append]
      exact ⟨hcomma, hindent _, hcalls _⟩
    | key name =>
      simp only [layout, List.cons_append, List.nil_append, List.forall_mem_cons,
        List.forall_mem_append]
      exact ⟨quoted_isText name, hname, hcolon, hcalls _⟩
    | value call =>
      simp only [layout, List.forall_mem_cons]
      exact ⟨htoken, hcalls _⟩

/-! ## The gap -/

/-- The spaces of a finite number are the right ones. -/
theorem Space.bytes_finite (q : ℚ) :
    (Space.number (.finite q)).bytes = (Space.number (.finite q)).gap := by
  simp only [bytes, gap]
  split_ifs with hpos
  · have hten : ⌊(10 : ℚ)⌋ = 10 := Int.floor_natCast 10
    rw [Int.floor_mono.map_min, hten, min_comm]
  · have hfloor : ⌊q⌋ ≤ 0 := Int.floor_nonpos (not_lt.mp hpos)
    have hzero : (min 10 ⌊q⌋).toNat = 0 := Int.toNat_eq_zero.mpr (min_le_of_right_le hfloor)
    rw [hzero, List.replicate_zero]

/-- There is a gap where something is put in. -/
theorem Space.gap_ne_nil {space : Space} (h : space.bytes ≠ []) : space.gap ≠ [] := by
  cases space with
  | string us =>
    cases us with
    | nil => exact absurd rfl h
    | cons u us =>
      intro hgap
      exact code.encode_ne_nil u (List.append_eq_nil_iff.mp hgap).1
  | number n =>
    cases n with
    | finite q => rwa [← Space.bytes_finite]
    | _ => exact absurd rfl h
  | other => exact absurd rfl h

theorem Space.gap_isText (space : Space) : IsText space.gap := by
  have hspaces : ∀ n, IsText (List.replicate n 32) := by
    intro n
    refine IsText.ascii fun c hc => ?_
    obtain rfl := List.eq_of_mem_replicate hc
    decide
  cases space with
  | string us => exact ⟨us.take 10, rfl⟩
  | number n =>
    cases n with
    | finite q => exact hspaces _
    | posInfinity => exact hspaces 10
    | _ => exact hspaces 0
  | other => exact hspaces 0

/-! ## The output -/

/-- The output for a value is the text of its tokens, indented with a gap, and is a text. Without
what is put in it is the output without a space argument. -/
structure Indents (dtoa : AsciiDtoa) (settings : Settings) (v : Value) (gap : List UInt8)
    (tokens : List Token) : Prop where
  appends : Appends settings v ((pretty gap 0 tokens).map Piece.call)
  text : ∃ us : Text, Stringifies settings dtoa.toDtoa v (some (code.encodeAll us)) ∧
    bytes dtoa.toDtoa ((pretty gap 0 tokens).map Piece.call) = code.encodeAll us
  compact : Stringifies { settings with space := [] } dtoa.toDtoa v
    (some (bytes dtoa.toDtoa ((pretty gap 0 tokens).filterMap Piece.written?)))

/-- The value is no array or object, or nothing is to be put in, or the gap is the right one and
nothing is empty. -/
def IndentsRight (space : Space) (tokens : List Token) : Prop :=
  tokens.length = 1 ∨
    space.bytes = [] ∧ (space.gap = [] ∨ tokens.length = 2) ∨
      space.bytes = space.gap ∧ NonEmpty tokens

/-- The tokens of a value that is serializable: one, or two brackets around the others. -/
theorem serialize_shape (h : serialize settings depth v = some tokens) :
    (∃ call, tokens = [.value call]) ∨ (∃ first last, tokens = [.opening first, .closing last]) ∨
      ∃ first token rest, tokens = .opening first :: token :: rest ∧
        (∀ last, token ≠ .closing last) := by
  induction depth generalizing v tokens with
  | zero =>
    cases hobject : v.jsonIsObject with
    | true =>
      rw [serialize_zero hobject] at h
      cases h
    | false =>
      rw [serialize_leaf hobject] at h
      exact Or.inl ⟨_, (Option.some.inj h).symm⟩
  | succ depth ih =>
    cases hobject : v.jsonIsObject with
    | false =>
      rw [serialize_leaf hobject] at h
      exact Or.inl ⟨_, (Option.some.inj h).symm⟩
    | true =>
      rw [serialize_succ hobject] at h
      obtain ⟨parts, hparts, rfl⟩ := Option.map_eq_some_iff.mp h
      right
      cases parts with
      | nil => exact Or.inl ⟨_, _, rfl⟩
      | cons part parts =>
        right
        obtain ⟨item, -, hitem⟩ := mapM_mem hparts List.mem_cons_self
        obtain ⟨rest, hrest, rfl⟩ := itemTokens_some hitem
        have hintercalate : ∀ part, [Token.comma].intercalate (part :: parts) =
            part ++ restTokens true parts := fun part => restTokens_cons false part parts
        rw [hintercalate]
        cases item.1 with
        | some name => exact ⟨_, _, _, rfl, by rintro last ⟨⟩⟩
        | none =>
          rcases ih hrest with ⟨call, rfl⟩ | ⟨first, last, rfl⟩ | ⟨first, token, rest, rfl, -⟩
          · exact ⟨_, _, _, rfl, by rintro last ⟨⟩⟩
          · exact ⟨_, _, _, rfl, by rintro last ⟨⟩⟩
          · exact ⟨_, _, _, rfl, by rintro last ⟨⟩⟩

/-- The two layouts are the same. -/
theorem IndentsRight.layout_eq {space : Space} (h : IndentsRight space tokens)
    (htokens : serialize settings depth v = some tokens) (hspace : settings.space = space.bytes) :
    layout settings 1 tokens = (pretty space.gap 0 tokens).map Piece.call := by
  have hlevel : (levelAfter 0 tokens).isSome = true := by
    rw [serialize_balanced htokens 0]
    rfl
  rcases h with hone | ⟨hnone, hgap | htwo⟩ | ⟨heq, hempty⟩
  · obtain ⟨token, rfl⟩ := List.length_eq_one_iff.mp hone
    rcases serialize_shape htokens with ⟨call, h⟩ | ⟨first, last, h⟩ | ⟨first, token, rest, h, -⟩
    · obtain rfl := (List.cons.inj h).1
      rfl
    · cases h
    · cases h
  · rw [hnone] at hspace
    rw [hgap]
    exact layout_eq_pretty hspace (Or.inl rfl) hlevel
  · rw [hnone] at hspace
    rcases serialize_shape htokens with
      ⟨call, rfl⟩ | ⟨first, last, rfl⟩ | ⟨first, token, rest, h, hne⟩
    · cases htwo
    · simp [layout, pretty, stringifyIndent_nil hspace, Piece.call]
    · subst h
      have hnil : rest = [] := by
        simpa using htwo
      subst hnil
      have hbalanced := serialize_balanced htokens 0
      cases token with
      | closing last => exact absurd rfl (hne last)
      | _ => cases hbalanced
  · exact layout_eq_pretty (hspace.trans heq) (Or.inr hempty) hlevel

/-- Where the layouts are the same, the gap is right. -/
theorem indentsRight_of_layout_eq {space : Space}
    (htokens : serialize settings depth v = some tokens) (hspace : settings.space = space.bytes)
    (h : layout settings 1 tokens = (pretty space.gap 0 tokens).map Piece.call) :
    IndentsRight space tokens := by
  have hlevel : (levelAfter 0 tokens).isSome = true := by
    rw [serialize_balanced htokens 0]
    rfl
  have hlength := congrArg List.length h
  rw [List.length_map] at hlength
  rcases serialize_shape htokens with
    ⟨call, rfl⟩ | ⟨first, last, rfl⟩ | ⟨first, token, rest, rfl, hne⟩
  · exact Or.inl rfl
  · right; left
    refine ⟨?_, Or.inr rfl⟩
    by_contra hbytes
    rw [← hspace] at hbytes
    simp only [layout, pretty, stringifyIndent, if_neg hbytes, List.length_cons, List.length_append,
      List.length_nil, List.length_replicate] at hlength
    omega
  · have hpretty : pretty space.gap 0 (.opening first :: token :: rest) =
        .written (.append [first]) :: lineBreak space.gap 1 ++
          pretty space.gap 1 (token :: rest) := by
      rw [pretty]
      rintro last tokens heq
      exact hne last (List.cons.inj heq).1
    by_cases hbytes : space.bytes = []
    · right; left
      refine ⟨hbytes, Or.inl ?_⟩
      by_contra hgap
      have hwritten := @filterMap_pretty space.gap settings 0 (.opening first :: token :: rest)
        (hspace.trans hbytes) 1
      have hbreak : Piece.inserted [10] ∈ pretty space.gap 0 (.opening first :: token :: rest) := by
        rw [hpretty, lineBreak, if_neg hgap]
        exact List.mem_cons_of_mem _ List.mem_cons_self
      have hlt := List.length_filterMap_lt_length_iff_exists.mpr
        ⟨_, hbreak, (rfl : Piece.written? (.inserted [10]) = none)⟩
      rw [hwritten, hlength] at hlt
      exact lt_irrefl _ hlt
    · right; right
      have hgap := Space.gap_ne_nil hbytes
      have heq : space.bytes = space.gap := by
        rw [hpretty] at h
        have hthird := congrArg (fun l => l[2]?) h
        simp only [layout, stringifyIndent, hspace, if_neg hbytes, lineBreak, if_neg hgap] at hthird
        simpa [Piece.call] using hthird
      exact ⟨heq, (length_pretty_le (hspace.trans heq) hgap hlevel).2 hlength.symm⟩

theorem Indents.right {dtoa : AsciiDtoa} {source : Source} {replacer : Replacer} (space : Space)
    (h : Serializable ⟨source, replacer, space.bytes⟩ v tokens)
    (hindents : Indents dtoa ⟨source, replacer, space.bytes⟩ v space.gap tokens) :
    IndentsRight space tokens := by
  have heq := h.appends.unique hindents.appends
  obtain ⟨item, -, htokens⟩ := h
  exact indentsRight_of_layout_eq htokens rfl heq

/-- The output of a value that is serializable is indented as it should be exactly if the value is
no array or object, or nothing is to be put in, or the first ten bytes of the gap are its first
ten characters and no array or object is empty. -/
theorem indents_iff (dtoa : AsciiDtoa) (source : Source) (replacer : Replacer) (space : Space)
    (h : Serializable ⟨source, replacer, space.bytes⟩ v tokens) :
    Indents dtoa ⟨source, replacer, space.bytes⟩ v space.gap tokens ↔
      IndentsRight space tokens := by
  have happends := h.appends
  have hcompact := (h.spaced []).appends
  constructor
  · exact Indents.right space h
  · intro hright
    obtain ⟨item, -, htokens⟩ := h
    have hlayout := hright.layout_eq htokens rfl
    have hwritten := @filterMap_pretty space.gap ⟨source, replacer, []⟩ 0 tokens rfl 1
    have htext : IsText (bytes dtoa.toDtoa (layout ⟨source, replacer, space.bytes⟩ 1 tokens)) := by
      have hall := serialize_isText dtoa htokens
      rcases hright with hone | ⟨hnone, -⟩ | ⟨heq, -⟩
      · obtain ⟨token, rfl⟩ := List.length_eq_one_iff.mp hone
        rcases serialize_shape htokens with ⟨call, hcall⟩ | ⟨_, _, hpair⟩ | ⟨_, _, _, hmore, -⟩
        · obtain rfl := (List.cons.inj hcall).1
          have hcallText := hall (.value call) List.mem_cons_self
          exact bytes_isText (List.forall_mem_singleton.mpr hcallText)
        · cases hpair
        · cases hmore
      · have hspace : IsText space.bytes := by
          rw [hnone]
          exact ⟨[], rfl⟩
        exact bytes_isText (layout_isText hspace hall 1)
      · have hspace : IsText space.bytes := by
          rw [heq]
          exact space.gap_isText
        exact bytes_isText (layout_isText hspace hall 1)
    obtain ⟨us, hus⟩ := htext
    refine ⟨hlayout ▸ happends, ⟨us, ?_, ?_⟩, ?_⟩
    · rw [hus]
      exact happends.stringifies dtoa.toDtoa
    · rw [← hlayout, hus]
    · rw [hwritten]
      exact hcompact.stringifies dtoa.toDtoa

/-- A source with an array. -/
def arraySource (elements : List Value) : Source where
  elements _ := elements
  properties _ := []
  chain _ := []
  prototype := 0
  toJson _ _ := none

/-- A dtoa for values without numbers. -/
def noNumbers : AsciiDtoa where
  text _ := []
  short _ := Nat.zero_le _
  ascii _ _ h := nomatch h

theorem serializable_nullArray (space : List UInt8) :
    Serializable ⟨arraySource [.null], .none, space⟩ (.array 0)
      [.opening Json.beginArray, .value (.append [110, 117, 108, 108]),
        .closing Json.endArray] := ⟨.array 0, rfl, rfl⟩

theorem serializable_emptyArray (space : List UInt8) :
    Serializable ⟨arraySource [], .none, space⟩ (.array 0)
      [.opening Json.beginArray, .closing Json.endArray] := ⟨.array 0, rfl, rfl⟩

theorem lt_codePointEnd_32 : 32 < Utf8.codePointEnd := by decide

/-- A space. -/
def oneSpace : Text := [⟨32, lt_codePointEnd_32⟩]

/-- `JSON.stringify([null], null, " ")`. -/
theorem indents_nullArray :
    Indents noNumbers ⟨arraySource [.null], .none, (Space.string oneSpace).bytes⟩ (.array 0)
      (Space.string oneSpace).gap
      [.opening Json.beginArray, .value (.append [110, 117, 108, 108]), .closing Json.endArray] :=
  (indents_iff noNumbers (arraySource [.null]) .none (.string oneSpace)
    (serializable_nullArray _)).mpr (Or.inr (Or.inr ⟨by decide, trivial⟩))

theorem lt_codePointEnd_97 : 97 < Utf8.codePointEnd := by decide

theorem lt_codePointEnd_233 : 233 < Utf8.codePointEnd := by decide

/-- An `a` and five times U+00E9. -/
def elevenBytes : Text := ⟨97, lt_codePointEnd_97⟩ :: List.replicate 5 ⟨233, lt_codePointEnd_233⟩

/-- In `JSON.stringify([null], null, "aééééé")` the gap is cut off inside its last character, and
in `JSON.stringify([], null, " ")` there are new lines in an empty array. -/
theorem not_indents :
    ¬Indents noNumbers ⟨arraySource [.null], .none, (Space.string elevenBytes).bytes⟩ (.array 0)
        (Space.string elevenBytes).gap
        [.opening Json.beginArray, .value (.append [110, 117, 108, 108]),
          .closing Json.endArray] ∧
      ¬Indents noNumbers ⟨arraySource [], .none, (Space.string oneSpace).bytes⟩ (.array 0)
        (Space.string oneSpace).gap [.opening Json.beginArray, .closing Json.endArray] := by
  constructor
  · intro h
    rcases h.right (.string elevenBytes) (serializable_nullArray _) with
      hone | ⟨hnone, -⟩ | ⟨heq, -⟩
    · exact absurd hone (by decide)
    · exact absurd hnone (by decide)
    · exact absurd heq (by decide)
  · intro h
    rcases h.right (.string oneSpace) (serializable_emptyArray _) with
      hone | ⟨hnone, -⟩ | ⟨-, hempty⟩
    · exact absurd hone (by decide)
    · exact absurd hnone (by decide)
    · exact hempty

end Njs.Stringify
