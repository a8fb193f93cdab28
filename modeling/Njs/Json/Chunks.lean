import Njs.Json.Unescape
import Njs.Result
import Njs.Str.Subject

/-!
# The output of `JSON.stringify()`

The output is a chain of nodes. A piece is written into the last node, or into a new one if the
last has too little room for what is reserved.
-/

namespace Njs.Json

/-- `njs_chb_node_t`: so many bytes from `start` to `end`, and those from `start` to `pos`. -/
structure Node where
  size : ℕ
  bytes : List UInt8
  fits : bytes.length ≤ size

/-- `njs_json_buf_node_room`. -/
def Node.room (n : Node) : ℕ := n.size - n.bytes.length

/-- The nodes of `njs_json_stringify_t`, the last one first. -/
abbrev Chain : Type := List Node

/-- The bytes of all nodes. -/
def Chain.contents (chain : Chain) : List UInt8 := (chain.reverse.map Node.bytes).flatten

/-- A new node behind the others. -/
def allocNode (env : Env) (chain : Chain) (size : ℕ) : Option Chain :=
  if env.mpAlloc (32 + max size 128) then some (⟨max size 128, [], Nat.zero_le _⟩ :: chain)
  else none

/-- `njs_json_buf_reserve`. Without a result there is no room or no memory. -/
def bufReserve (env : Env) (chain : Chain) (size : ℕ) : Option Chain :=
  if size = 0 then none
  else
    match chain with
    | n :: nodes => if n.room ≥ size then some (n :: nodes) else allocNode env (n :: nodes) size
    | [] => allocNode env [] size

/-- `njs_json_buf_written` of bytes that were put behind `pos`. -/
def bufWritten (bytes : List UInt8) : Chain → Result Chain
  | [] => .error .fault
  | n :: nodes =>
    if h : n.bytes.length + bytes.length ≤ n.size then
      .ok (⟨n.size, n.bytes ++ bytes, by rwa [List.length_append]⟩ :: nodes)
    else .error .fault

/-- The state behind a call and whether it returned `NJS_OK`. -/
abbrev Outcome : Type := Result (Chain × Bool)

/-- `njs_json_buf_append`. -/
def bufAppend (env : Env) (msg : List UInt8) (chain : Chain) : Outcome :=
  if msg.length = 0 then .ok (chain, true)
  else
    match bufReserve env chain msg.length with
    | none => .ok (chain, false)
    | some chain => do
      let chain ← bufWritten msg chain
      return (chain, true)

/-- The bytes from `pos` to `dst`, and how many of those that are reserved are left. -/
structure Dst where
  bytes : List UInt8
  left : ℕ

/-- `*dst++ = c`. -/
def Dst.put (dst : Dst) (c : UInt8) : Result Dst :=
  if dst.left = 0 then .error .fault else .ok ⟨dst.bytes ++ [c], dst.left - 1⟩

/-- Some bytes are put one after another. -/
def Dst.puts (dst : Dst) : List UInt8 → Result Dst
  | [] => .ok dst
  | c :: p => do
    let dst ← dst.put c
    dst.puts p

/-- The loop of `njs_utf8_copy` over the bytes that continue a character. -/
def copyContinuation (dst : Dst) : List UInt8 → Result (Dst × List UInt8)
  | [] => .error .fault
  | c :: p =>
    if c &&& 0xC0 ≠ 0x80 then .ok (dst, c :: p)
    else do
      let dst ← dst.put c
      if p = [] then return (dst, p) else copyContinuation dst p

/-- `njs_utf8_copy`. -/
def utf8Copy (dst : Dst) : List UInt8 → Result (Dst × List UInt8)
  | [] => .error .fault
  | c :: p => do
    let dst ← dst.put c
    if c &&& 0x80 ≠ 0 then copyContinuation dst p else return (dst, p)

/-- `hex2char`. -/
def hexChar (n : ℕ) : UInt8 := if n < 10 then (48 + n).toUInt8 else (65 + (n - 10)).toUInt8

/-- The characters that are escaped. The quotation mark is one of them if the string is put
between quotation marks. -/
def isSpecial (quote c : UInt8) : Bool :=
  c < 32 || c = escapeMark || (c = quotationMark && quote = quotationMark)

/-- What is written for such a character. -/
def escapeChar (c : UInt8) : List UInt8 :=
  escapeMark ::
    if c = escapeMark then [escapeMark]
    else if c = quotationMark then [quotationMark]
    else if c = 13 then [114]
    else if c = 10 then [110]
    else if c = 9 then [116]
    else if c = 8 then [98]
    else if c = 12 then [102]
    else [117, 48, 48, hexChar ((c &&& 0xF0) >>> 4).toNat, hexChar (c &&& 0x0F).toNat]

/-- The inner loop of `njs_json_append_string`: characters are copied while more than six bytes
are left. The rounds are bounded by the bytes of the string. -/
def copyLoop (quote : UInt8) (length : ℕ) : ℕ → Dst → List UInt8 → Result (Dst × List UInt8)
  | 0, dst, p => if p = [] ∨ dst.left ≤ 6 then .ok (dst, p) else .error .fault
  | n + 1, dst, p =>
    match p with
    | [] => .ok (dst, [])
    | c :: q =>
      if dst.left ≤ 6 ∨ isSpecial quote c then .ok (dst, c :: q)
      else if length ≠ 0 then do
        let copied ← utf8Copy dst (c :: q)
        copyLoop quote length n copied.1 copied.2
      else do
        let dst ← dst.put c
        copyLoop quote length n dst q

/-- The escape of a character, if it is one that is escaped. -/
def escapeFirst (quote : UInt8) (dst : Dst) : List UInt8 → Result (Dst × List UInt8)
  | [] => .ok (dst, [])
  | c :: p =>
    if isSpecial quote c then do
      let dst ← dst.puts (escapeChar c)
      return (dst, p)
    else .ok (dst, c :: p)

/-- The outer loop of `njs_json_append_string`, up to the quote behind the string. -/
def stringLoop (env : Env) (quote : UInt8) (length : ℕ) :
    ℕ → Chain → Dst → List UInt8 → Outcome
  | 0, _, _, _ :: _ => .error .fault
  | _, chain, dst, [] => do
    let chain ← bufWritten dst.bytes chain
    -- whether the quote finds room is not checked
    let outcome ← bufAppend env [quote] chain
    return (outcome.1, true)
  | n + 1, chain, dst, c :: p => do
    let escaped ← escapeFirst quote dst (c :: p)
    let copied ← copyLoop quote length escaped.2.length escaped.1 escaped.2
    if copied.1.left ≤ 6 then do
      let chain ← bufWritten copied.1.bytes chain
      match bufReserve env chain 64 with
      | none => return (chain, false)
      | some chain => stringLoop env quote length n chain ⟨[], 64⟩ copied.2
    else stringLoop env quote length n chain copied.1 copied.2

/-- `njs_json_append_string` of a string whose length is zero if it is a byte string. -/
def appendString (env : Env) (quote : UInt8) (str : Str.StringProp) (chain : Chain) : Outcome :=
  match bufReserve env chain 64 with
  | none => .ok (chain, false)
  | some chain => do
    let dst ← Dst.put ⟨[], 64⟩ quote
    stringLoop env quote str.length str.start.length chain dst str.start

/-- `njs_dtoa`, which writes no more than 64 bytes. -/
structure Dtoa where
  text : ℚ → List UInt8
  short : ∀ q, (text q).length ≤ 64

/-- `njs_json_append_number`. -/
def appendNumber (env : Env) (dtoa : Dtoa) (num : Number) (chain : Chain) : Outcome :=
  match num with
  | .finite q =>
    match bufReserve env chain 64 with
    | none => .ok (chain, false)
    | some chain => do
      let chain ← bufWritten (dtoa.text q) chain
      return (chain, true)
  | _ => bufAppend env [110, 117, 108, 108] chain

/-- The copies of `njs_json_buf_pullup` into a block of so many bytes. -/
def pullupLoop (left : ℕ) : List Node → Result (List UInt8)
  | [] => .ok []
  | n :: nodes =>
    if left < n.bytes.length then .error .fault
    else do
      let rest ← pullupLoop (left - n.bytes.length) nodes
      return n.bytes ++ rest

/-- `njs_json_buf_pullup`. -/
def bufPullup (env : Env) (chain : Chain) : Result (List UInt8) :=
  match chain with
  | [] => .ok []
  | [n] => .ok n.bytes
  | nodes =>
    let size := (nodes.map fun n => n.bytes.length).sum
    if env.mpAlloc size then pullupLoop size nodes.reverse
    else .error (.throw .memoryError)

/-- The calls that write: of some bytes, a well-formed string or a number. -/
inductive Call
  | append (msg : List UInt8)
  | string (quote : UInt8) (value : Str.Subject)
  | number (num : Number)

/-- A call. -/
def Call.run (env : Env) (dtoa : Dtoa) (chain : Chain) : Call → Outcome
  | .append msg => bufAppend env msg chain
  | .string quote value => appendString env quote value.prop chain
  | .number num => appendNumber env dtoa num chain

/-- A sequence of calls, with what each of them returned. -/
def runCalls (env : Env) (dtoa : Dtoa) (chain : Chain) : List Call → Result (Chain × List Bool)
  | [] => .ok (chain, [])
  | call :: calls => do
    let outcome ← call.run env dtoa chain
    let rest ← runCalls env dtoa outcome.1 calls
    return (rest.1, outcome.2 :: rest.2)

/-- What a string is written as: with its escapes, between quotes. -/
def quoted (quote : UInt8) (bytes : List UInt8) : List UInt8 :=
  quote :: (bytes.flatMap fun c => if isSpecial quote c then escapeChar c else [c]) ++ [quote]

/-- What a call writes. -/
def Call.piece (dtoa : Dtoa) : Call → List UInt8
  | .append msg => msg
  | .string quote value => quoted quote value.prop.start
  | .number (.finite q) => dtoa.text q
  | .number _ => [110, 117, 108, 108]

end Njs.Json

/-!
## The output is the pieces in order

Before each step of the writer of strings at least seven of the reserved bytes are left: six for
an escape, four for a character. So nothing is written beyond them, the quote behind a string
always finds room, and the output is what was written, piece after piece.
-/

namespace Njs.Json

open Utf8 Str

variable {env : Env} {dtoa : Dtoa} {chain chain' : Chain} {quote c : UInt8} {length size n : ℕ}
  {p bytes msg : List UInt8} {dst : Dst}

/-! ## Nodes -/

/-- The last node has room for so many bytes. -/
def HasRoom (chain : Chain) (size : ℕ) : Prop := ∃ n nodes, chain = n :: nodes ∧ size ≤ n.room

theorem contents_cons (node : Node) (chain : Chain) :
    Chain.contents (node :: chain) = chain.contents ++ node.bytes := by
  simp [Chain.contents]

theorem allocNode_some (h : allocNode env chain size = some chain') :
    chain'.contents = chain.contents ∧ HasRoom chain' size := by
  unfold allocNode at h
  split_ifs at h
  obtain rfl := Option.some.inj h
  exact ⟨by rw [contents_cons, List.append_nil], _, _, rfl, Nat.le_max_left size 128⟩

/-- What is reserved is behind the bytes that are there. -/
theorem bufReserve_some (h : bufReserve env chain size = some chain') :
    chain'.contents = chain.contents ∧ HasRoom chain' size := by
  unfold bufReserve at h
  split_ifs at h
  cases chain with
  | nil => exact allocNode_some h
  | cons node nodes =>
    simp only at h
    split_ifs at h with hroom
    · obtain rfl := Option.some.inj h
      exact ⟨rfl, _, _, rfl, hroom⟩
    · exact allocNode_some h

theorem allocNode_none (h : allocNode env chain size = none) : ∃ n, env.mpAlloc n = false := by
  unfold allocNode at h
  split_ifs at h with hgrant
  exact ⟨_, Bool.not_eq_true _ ▸ hgrant⟩

/-- A reservation fails only where a request is refused. -/
theorem bufReserve_none (hsize : size ≠ 0) (h : bufReserve env chain size = none) :
    ∃ n, env.mpAlloc n = false := by
  unfold bufReserve at h
  rw [if_neg hsize] at h
  cases chain with
  | nil => exact allocNode_none h
  | cons node nodes =>
    simp only at h
    split_ifs at h
    exact allocNode_none h

theorem bufReserve_room (hsize : size ≠ 0) (h : HasRoom chain size) :
    bufReserve env chain size = some chain := by
  obtain ⟨node, nodes, rfl, hroom⟩ := h
  rw [bufReserve, if_neg hsize]
  exact if_pos hroom

/-- Bytes that have room are put behind the others. -/
theorem bufWritten_ok {left : ℕ} (h : HasRoom chain (bytes.length + left)) :
    ∃ chain', bufWritten bytes chain = .ok chain' ∧
      chain'.contents = chain.contents ++ bytes ∧ HasRoom chain' left := by
  obtain ⟨node, nodes, rfl, hroom⟩ := h
  have hfits := node.fits
  unfold Node.room at hroom
  refine ⟨_, dif_pos (by omega), ?_, _, _, rfl, ?_⟩
  · rw [contents_cons, contents_cons, List.append_assoc]
  · simp only [Node.room, List.length_append]
    omega

/-- What a call did: it wrote a beginning of its piece, and all of it if it returned `NJS_OK`. -/
def Wrote (env : Env) (piece : List UInt8) (chain : Chain) (outcome : Outcome) : Prop :=
  ∃ chain' ok written, outcome = .ok (chain', ok) ∧ chain'.contents = chain.contents ++ written ∧
    written <+: piece ∧ (ok = true → written = piece) ∧
    (ok = false → ∃ n, env.mpAlloc n = false)

/-- Nothing is written where a request is refused. -/
theorem wrote_nothing {piece : List UInt8} (h : ∃ n, env.mpAlloc n = false) :
    Wrote env piece chain (.ok (chain, false)) :=
  ⟨chain, false, [], rfl, (List.append_nil _).symm, List.nil_prefix, fun h => absurd h
    Bool.false_ne_true, fun _ => h⟩

theorem wrote_all (hcontents : chain'.contents = chain.contents ++ msg) :
    Wrote env msg chain (.ok (chain', true)) :=
  ⟨chain', true, msg, rfl, hcontents, List.prefix_rfl, fun _ => rfl, fun h => absurd h.symm
    Bool.false_ne_true⟩

theorem bufAppend_wrote (msg : List UInt8) (chain : Chain) :
    Wrote env msg chain (bufAppend env msg chain) := by
  unfold bufAppend
  split_ifs with hempty
  · rw [List.length_eq_zero_iff.mp hempty]
    exact wrote_all (List.append_nil _).symm
  · cases hreserve : bufReserve env chain msg.length with
    | none => exact wrote_nothing (bufReserve_none hempty hreserve)
    | some reserved =>
      obtain ⟨hcontents, hroom⟩ := bufReserve_some hreserve
      obtain ⟨chain', hwritten, hcontents', -⟩ := @bufWritten_ok reserved msg 0 hroom
      simp only [hwritten, ok_bind]
      exact wrote_all (by rw [hcontents', hcontents])

theorem appendNumber_wrote (num : Number) (chain : Chain) :
    Wrote env (Call.piece dtoa (.number num)) chain (appendNumber env dtoa num chain) := by
  cases num with
  | finite q =>
    simp only [appendNumber, Call.piece]
    cases hreserve : bufReserve env chain 64 with
    | none => exact wrote_nothing (bufReserve_none (by omega) hreserve)
    | some reserved =>
      obtain ⟨hcontents, node, nodes, rfl, hroom⟩ := bufReserve_some hreserve
      have hshort := dtoa.short q
      obtain ⟨chain', hwritten, hcontents', -⟩ :=
        @bufWritten_ok (node :: nodes) (dtoa.text q) 0 ⟨node, nodes, rfl, by omega⟩
      simp only [hwritten, ok_bind]
      exact wrote_all (by rw [hcontents', hcontents])
  | nan => exact bufAppend_wrote _ chain
  | posInfinity => exact bufAppend_wrote _ chain
  | negInfinity => exact bufAppend_wrote _ chain

/-! ## The writer of strings -/

theorem put_ok (h : 0 < dst.left) : dst.put c = .ok ⟨dst.bytes ++ [c], dst.left - 1⟩ :=
  if_neg (by omega)

theorem puts_ok (h : p.length ≤ dst.left) :
    dst.puts p = .ok ⟨dst.bytes ++ p, dst.left - p.length⟩ := by
  induction p generalizing dst with
  | nil => rw [Dst.puts, List.append_nil, List.length_nil, Nat.sub_zero]
  | cons c p ih =>
    rw [List.length_cons] at h
    have hrest := @ih ⟨dst.bytes ++ [c], dst.left - 1⟩ (by simp only; omega)
    simp only [Dst.puts, put_ok (by omega : 0 < dst.left), ok_bind, hrest, List.length_cons,
      List.append_assoc, List.cons_append, List.nil_append]
    rw [Nat.sub_sub, Nat.add_comm 1]

theorem escapeChar_length (c : UInt8) : (escapeChar c).length ≤ 6 := by
  unfold escapeChar
  split_ifs <;> simp

theorem continuation_not_special (h : IsContinuation c) : isSpecial quote c = false := by
  unfold isSpecial
  have hrange := h.1
  have hlt : ¬c < 32 := fun h => by
    have := UInt8.lt_iff_toNat_lt.mp h
    simp only [UInt8.reduceToNat] at this
    omega
  have hescape : c ≠ escapeMark := by
    rintro rfl
    exact absurd hrange (by decide)
  have hquote : c ≠ quotationMark := by
    rintro rfl
    exact absurd hrange (by decide)
  simp [hlt, hescape, hquote]

/-- The bytes that continue a character are copied. -/
theorem copyContinuation_ok {cs rest : List UInt8} (hne : cs ≠ [])
    (hcs : ∀ c ∈ cs, IsContinuation c) (hrest : ∀ c ∈ rest.head?, ¬IsContinuation c)
    (hroom : cs.length ≤ dst.left) : copyContinuation dst (cs ++ rest) =
      .ok (⟨dst.bytes ++ cs, dst.left - cs.length⟩, rest) := by
  induction cs generalizing dst with
  | nil => exact absurd rfl hne
  | cons c cs ih =>
    rw [List.length_cons] at hroom
    have hc : ¬(c &&& 0xC0 ≠ 0x80) := not_not.mpr ((and_c0_iff c).mpr (hcs c List.mem_cons_self))
    simp only [List.cons_append, copyContinuation, if_neg hc, put_ok (by omega : 0 < dst.left),
      ok_bind]
    cases cs with
    | nil =>
      cases rest with
      | nil => rfl
      | cons b rest =>
        have hb : b &&& 0xC0 ≠ 0x80 := fun h => hrest b rfl ((and_c0_iff b).mp h)
        simp only [List.nil_append, copyContinuation, if_pos hb, reduceCtorEq, if_false]
        rfl
    | cons d cs =>
      have hstep := @ih ⟨dst.bytes ++ [c], dst.left - 1⟩ (List.cons_ne_nil d cs)
        (fun e he => hcs e (List.mem_cons_of_mem c he))
        (by simp only [List.length_cons] at *; omega)
      rw [if_neg (by simp)]
      refine hstep.trans ?_
      simp only [List.append_assoc, List.cons_append, List.nil_append, List.length_cons]
      rw [Nat.sub_sub, Nat.add_comm 1]

theorem encode_length_le (u : CodePoint) : (code.encode u).length ≤ 4 := by
  have hlength : (code.encode u).length = Utf8.size u.val := Utf8.encode_length u.encode_eq
  rw [hlength, Utf8.size]
  split_ifs <;> omega

/-- `njs_utf8_copy` copies one character. -/
theorem utf8Copy_ok (u : CodePoint) (us : List CodePoint) (hroom : 4 ≤ dst.left) :
    utf8Copy dst (code.encodeAll (u :: us)) =
      .ok (⟨dst.bytes ++ code.encode u, dst.left - (code.encode u).length⟩,
        code.encodeAll us) := by
  obtain ⟨b, cs, hu, hb, hcs, hone⟩ := encode_eq_cons u
  have hlength := encode_length_le u
  rw [hu, List.length_cons] at hlength
  rw [code.encodeAll_cons, hu, List.cons_append]
  simp only [utf8Copy, put_ok (by omega : 0 < dst.left), ok_bind]
  by_cases hhigh : b &&& 0x80 ≠ 0
  · have hne : cs ≠ [] := by
      rintro rfl
      have hall := encodeAll_length [u]
      rw [code.encodeAll_cons, hu] at hall
      have hlow := (hall.2.mp (by simp [Lib.PrefixCode.encodeAll])) b (by simp)
      exact (not_high_iff b).mpr hlow hhigh
    rw [if_pos hhigh, copyContinuation_ok hne hcs (head?_encodeAll us) (by simp only; omega)]
    simp only [List.append_assoc, List.cons_append, List.nil_append, List.length_cons]
    rw [Nat.sub_sub, Nat.add_comm 1]
  · rw [if_neg hhigh, hone ((not_high_iff b).mp hhigh)]
    rfl

/-- The rest of a string: of a text, it begins with a character. -/
def Suffix (length : ℕ) (p : List UInt8) : Prop :=
  length ≠ 0 → ∃ us : List CodePoint, p = code.encodeAll us

/-- The bytes of a string with their escapes. -/
def escapes (quote : UInt8) (p : List UInt8) : List UInt8 :=
  p.flatMap fun c => if isSpecial quote c then escapeChar c else [c]

theorem escapes_plain (h : ∀ c ∈ p, isSpecial quote c = false) : escapes quote p = p := by
  induction p with
  | nil => rfl
  | cons c p ih =>
    have hc := h c List.mem_cons_self
    have hrest := ih fun d hd => h d (List.mem_cons_of_mem c hd)
    unfold escapes at hrest ⊢
    rw [List.flatMap_cons, hrest, hc]
    rfl

theorem escapes_append (p q : List UInt8) :
    escapes quote (p ++ q) = escapes quote p ++ escapes quote q := List.flatMap_append

/-- A character that does not begin with a byte that is escaped is written as it is. -/
theorem encode_plain {u : CodePoint} {us : List CodePoint}
    (h : ∀ c ∈ (code.encodeAll (u :: us)).head?, isSpecial quote c = false) :
    ∀ c ∈ code.encode u, isSpecial quote c = false := by
  obtain ⟨b, cs, hu, -, hcs, -⟩ := encode_eq_cons u
  rw [code.encodeAll_cons, hu] at h
  rw [hu]
  intro c hc
  rcases List.mem_cons.mp hc with rfl | hc
  · exact h c rfl
  · exact continuation_not_special (hcs c hc)

theorem special_lt (h : isSpecial quote c = true) : c < 0x80 := by
  unfold isSpecial at h
  simp only [Bool.or_eq_true, decide_eq_true_eq, Bool.and_eq_true] at h
  rcases h with (h | rfl) | ⟨rfl, -⟩
  · exact UInt8.lt_trans h (by decide)
  · decide
  · decide

/-- Behind a byte that is escaped is the rest of the string. -/
theorem Suffix.tail (h : Suffix length (c :: p)) (hc : isSpecial quote c = true) :
    Suffix length p := by
  intro hlength
  obtain ⟨us, hus⟩ := h hlength
  cases us with
  | nil => cases hus
  | cons u us =>
    obtain ⟨b, cs, hu, -, -, hone⟩ := encode_eq_cons u
    rw [code.encodeAll_cons, hu, List.cons_append] at hus
    obtain ⟨rfl, rfl⟩ := List.cons.inj hus
    rw [hone (special_lt hc)]
    exact ⟨us, rfl⟩

/-- What the inner loop did: it copied characters that are not escaped, until it had not enough
room, or met one that is. -/
def Copied (quote : UInt8) (length : ℕ) (dst : Dst) (p : List UInt8)
    (result : Result (Dst × List UInt8)) : Prop :=
  ∃ copied q left, result = .ok (⟨dst.bytes ++ copied, left⟩, q) ∧ p = copied ++ q ∧
    (∀ c ∈ copied, isSpecial quote c = false) ∧ copied.length + left = dst.left ∧
    Suffix length q ∧
    (6 < dst.left → (∀ c ∈ p.head?, isSpecial quote c = false) → q.length < p.length ∨ p = [])

theorem copied_nothing {result : Result (Dst × List UInt8)} (hp : Suffix length p)
    (hresult : result = .ok (dst, p))
    (hstop : p = [] ∨ dst.left ≤ 6 ∨ ∃ c ∈ p.head?, isSpecial quote c = true) :
    Copied quote length dst p result := by
  refine ⟨[], p, dst.left, by rw [hresult, List.append_nil], rfl, fun _ h => absurd h
    List.not_mem_nil, Nat.zero_add _, hp, fun hleft hplain => ?_⟩
  rcases hstop with hnil | hfew | ⟨c, hc, hspecial⟩
  · exact Or.inr hnil
  · omega
  · rw [hplain c hc] at hspecial
    cases hspecial

/-- One more character is copied. -/
theorem copied_cons {copied q : List UInt8} {result : Result (Dst × List UInt8)}
    (hne : copied ≠ []) (hplain : ∀ c ∈ copied, isSpecial quote c = false)
    (hroom : copied.length ≤ dst.left)
    (h : Copied quote length ⟨dst.bytes ++ copied, dst.left - copied.length⟩ q result) :
    Copied quote length dst (copied ++ q) result := by
  obtain ⟨more, rest, left, hresult, rfl, hmore, hleft, hsuffix, -⟩ := h
  refine ⟨copied ++ more, rest, left, by rw [hresult, List.append_assoc],
    (List.append_assoc _ _ _).symm, fun c hc => ?_, ?_, hsuffix, fun _ _ => Or.inl ?_⟩
  · exact (List.mem_append.mp hc).elim (hplain c) (hmore c)
  · simp only at hleft
    rw [List.length_append]
    omega
  · have hpos := List.length_pos_iff.mpr hne
    simp only [List.length_append]
    omega

theorem copyLoop_copied (hp : Suffix length p) (hn : p.length ≤ n) :
    Copied quote length dst p (copyLoop quote length n dst p) := by
  induction n generalizing dst p with
  | zero =>
    obtain rfl := List.length_eq_zero_iff.mp (Nat.le_zero.mp hn)
    exact copied_nothing hp (if_pos (Or.inl rfl)) (Or.inl rfl)
  | succ n ih =>
    cases p with
    | nil => exact copied_nothing hp rfl (Or.inl rfl)
    | cons c p =>
      simp only [copyLoop]
      by_cases hstop : dst.left ≤ 6 ∨ isSpecial quote c = true
      · rw [if_pos hstop]
        exact copied_nothing hp rfl (Or.inr (hstop.imp_right fun h => ⟨c, rfl, h⟩))
      · obtain ⟨hleft, hspecial⟩ := not_or.mp hstop
        rw [Bool.not_eq_true] at hspecial
        rw [if_neg hstop]
        by_cases hlength : length ≠ 0
        · rw [if_pos hlength]
          obtain ⟨us, hus⟩ := hp hlength
          cases us with
          | nil => cases hus
          | cons u us =>
            have hplain : ∀ d ∈ (code.encodeAll (u :: us)).head?, isSpecial quote d = false := by
              rw [← hus]
              rintro d ⟨⟩
              exact hspecial
            have hsize := encode_length_le u
            have hne : code.encode u ≠ [] := code.encode_ne_nil u
            have hpos := List.length_pos_iff.mpr hne
            rw [hus, code.encodeAll_cons, List.length_append] at hn
            rw [hus, utf8Copy_ok u us (by omega), code.encodeAll_cons]
            simp only [ok_bind]
            exact copied_cons hne (encode_plain hplain) (by omega)
              (ih (fun _ => ⟨us, rfl⟩) (by omega))
        · rw [if_neg hlength, put_ok (by omega)]
          rw [List.length_cons] at hn
          simp only [ok_bind]
          change Copied quote length dst ([c] ++ p) _
          refine copied_cons (List.cons_ne_nil c []) ?_ ?_
            (ih (fun h => absurd h hlength) (by omega))
          · intro d hd
            rwa [List.mem_singleton.mp hd]
          · simp only [List.length_singleton]
            omega

/-- What was written before a call that writes the rest of a piece. -/
theorem Wrote.prepend {piece : List UInt8} {outcome : Outcome}
    (hcontents : chain'.contents = chain.contents ++ bytes) (h : Wrote env piece chain' outcome) :
    Wrote env (bytes ++ piece) chain outcome := by
  obtain ⟨last, ok, written, hout, hlast, hle, hall, hrefused⟩ := h
  refine ⟨last, ok, bytes ++ written, hout, by rw [hlast, hcontents, List.append_assoc],
    (List.prefix_append_right_inj bytes).mpr hle, fun hok => by rw [hall hok], hrefused⟩

/-- The escape of a character that is to be escaped has room. -/
theorem escapeFirst_ok (hleft : 6 < dst.left) (hp : Suffix length (c :: p)) :
    ∃ done rest, escapeFirst quote dst (c :: p) =
        .ok (⟨dst.bytes ++ escapes quote done, dst.left - (escapes quote done).length⟩, rest) ∧
      c :: p = done ++ rest ∧ (escapes quote done).length ≤ 6 ∧ Suffix length rest ∧
      (rest.length < (c :: p).length ∨
        (escapes quote done).length = 0 ∧ isSpecial quote c = false ∧ rest = c :: p) := by
  simp only [escapeFirst]
  by_cases hspecial : isSpecial quote c = true
  · have hlength := escapeChar_length c
    have hescape : escapes quote [c] = escapeChar c := by
      simp [escapes, hspecial]
    rw [if_pos hspecial, puts_ok (by omega)]
    refine ⟨[c], p, by rw [hescape]; rfl, rfl, ?_, hp.tail hspecial, Or.inl (by simp)⟩
    rwa [hescape]
  · rw [if_neg hspecial]
    refine ⟨[], c :: p, ?_, rfl, Nat.zero_le 6, hp, Or.inr ⟨rfl, by simpa using hspecial, rfl⟩⟩
    simp [escapes]

/-- The end of a string: the quote finds room. -/
theorem stringLoop_nil (hroom : HasRoom chain (dst.bytes.length + dst.left))
    (hleft : 6 < dst.left) :
    Wrote env (dst.bytes ++ [quote]) chain (stringLoop env quote length n chain dst []) := by
  obtain ⟨chain', hwritten, hcontents, node, nodes, rfl, hroom'⟩ := bufWritten_ok hroom
  have hone : HasRoom (node :: nodes) ([quote].length + 0) :=
    ⟨node, nodes, rfl, by rw [List.length_singleton]; omega⟩
  obtain ⟨last, hquote, hlast, -⟩ := bufWritten_ok hone
  have hreserve : bufReserve env (node :: nodes) [quote].length = some (node :: nodes) :=
    bufReserve_room (by simp) hone
  have happend : bufAppend env [quote] (node :: nodes) = .ok (last, true) := by
    unfold bufAppend
    rw [if_neg (by simp), hreserve]
    simp only [hquote, ok_bind]
    rfl
  have hloop : stringLoop env quote length n chain dst [] = .ok (last, true) := by
    cases n <;> simp only [stringLoop, hwritten, ok_bind, happend] <;> rfl
  rw [hloop]
  exact wrote_all (by rw [hlast, hcontents, List.append_assoc])

/-- The writer of strings writes the rest of a string and its quote. Seven bytes are left before
each round. -/
theorem stringLoop_wrote (hroom : HasRoom chain (dst.bytes.length + dst.left))
    (hleft : 6 < dst.left) (hp : Suffix length p) (hn : p.length ≤ n) :
    Wrote env (dst.bytes ++ (escapes quote p ++ [quote])) chain
      (stringLoop env quote length n chain dst p) := by
  induction n generalizing chain dst p with
  | zero =>
    obtain rfl := List.length_eq_zero_iff.mp (Nat.le_zero.mp hn)
    exact stringLoop_nil hroom hleft
  | succ n ih =>
    cases p with
    | nil => exact stringLoop_nil hroom hleft
    | cons c p =>
      obtain ⟨done, rest, hescape, hsplit, hsix, hrest, hprogress⟩ :=
        @escapeFirst_ok quote c length p dst hleft hp
      obtain ⟨copied, q, left, hcopy, rfl, hplain, hsum, hq, hmore⟩ :=
        @copyLoop_copied quote length rest.length rest
          ⟨dst.bytes ++ escapes quote done, dst.left - (escapes quote done).length⟩ hrest le_rfl
      simp only at hcopy hsum hmore
      -- a round consumes the escaped character or copies the one that is not
      have hshorter : q.length < (c :: p).length := by
        rcases hprogress with hless | ⟨hzero, hspecial, hsame⟩
        · have hle : q.length ≤ (copied ++ q).length := by simp
          omega
        · have hhead : ∀ d ∈ (copied ++ q).head?, isSpecial quote d = false := by
            rw [hsame]
            rintro d ⟨⟩
            exact hspecial
          rcases hmore (by omega) hhead with hless | hnil
          · rwa [hsame] at hless
          · rw [hsame] at hnil
            cases hnil
      have hpiece : dst.bytes ++ (escapes quote (c :: p) ++ [quote]) =
          (dst.bytes ++ escapes quote done ++ copied) ++ (escapes quote q ++ [quote]) := by
        rw [hsplit, escapes_append, escapes_append, escapes_plain hplain]
        simp only [List.append_assoc]
      have htotal : (dst.bytes ++ escapes quote done ++ copied).length + left =
          dst.bytes.length + dst.left := by
        simp only [List.length_append]
        omega
      rw [List.length_cons] at hn hshorter
      rw [hpiece]
      rw [← htotal] at hroom
      simp only [stringLoop, hescape, ok_bind, hcopy]
      by_cases hfew : left ≤ 6
      · obtain ⟨chain', hwritten, hcontents, -⟩ := bufWritten_ok hroom
        simp only [if_pos hfew, hwritten, ok_bind]
        cases hreserve : bufReserve env chain' 64 with
        | none =>
          refine Wrote.prepend hcontents ?_
          exact wrote_nothing (bufReserve_none (by omega) hreserve)
        | some reserved =>
          obtain ⟨hcontents', hroom'⟩ := bufReserve_some hreserve
          have hnext := @ih reserved q ⟨[], 64⟩ (by simpa using hroom') (by simp only; omega) hq
            (by omega)
          exact Wrote.prepend (hcontents'.trans hcontents) hnext
      · rw [if_neg hfew]
        exact @ih chain q ⟨dst.bytes ++ escapes quote done ++ copied, left⟩ hroom
          (by simp only; omega) hq (by omega)

theorem appendString_wrote (quote : UInt8) (value : Subject) (chain : Chain) :
    Wrote env (quoted quote value.prop.start) chain (appendString env quote value.prop chain) := by
  have hsuffix : Suffix value.prop.length value.prop.start := by
    cases value with
    | bytes bs => exact fun h => absurd rfl h
    | text us => exact fun _ => ⟨us, rfl⟩
  unfold appendString
  cases hreserve : bufReserve env chain 64 with
  | none => exact wrote_nothing (bufReserve_none (by omega) hreserve)
  | some reserved =>
    obtain ⟨hcontents, hroom⟩ := bufReserve_some hreserve
    have hput : Dst.put ⟨[], 64⟩ quote = .ok ⟨[quote], 63⟩ := rfl
    have hloop := @stringLoop_wrote env reserved quote value.prop.length
      value.prop.start.length value.prop.start ⟨[quote], 63⟩ hroom (by simp only; omega) hsuffix
      le_rfl
    simp only [hput, ok_bind]
    exact @Wrote.prepend env chain reserved [] _ _ (by rw [hcontents, List.append_nil]) hloop

/-! ## Sequences of calls -/

/-- A call writes its piece, or a beginning of it if a request is refused. -/
theorem run_wrote (call : Call) (chain : Chain) :
    Wrote env (call.piece dtoa) chain (call.run env dtoa chain) := by
  cases call with
  | append msg => exact bufAppend_wrote msg chain
  | string quote value => exact appendString_wrote quote value chain
  | number num => exact appendNumber_wrote num chain

/-- What a sequence of calls wrote: the piece of each call that returned `NJS_OK`, and of any
other, for which a request was refused, a beginning of its piece. -/
inductive Pieces (env : Env) (dtoa : Dtoa) : List Call → List Bool → List UInt8 → Prop
  | nil : Pieces env dtoa [] [] []
  | ok {calls : List Call} {oks : List Bool} {rest : List UInt8} (call : Call)
    (h : Pieces env dtoa calls oks rest) :
    Pieces env dtoa (call :: calls) (true :: oks) (call.piece dtoa ++ rest)
  | refused {calls : List Call} {oks : List Bool} {rest written : List UInt8} (call : Call)
    (hwritten : written <+: call.piece dtoa) (hrefused : ∃ n, env.mpAlloc n = false)
    (h : Pieces env dtoa calls oks rest) :
    Pieces env dtoa (call :: calls) (false :: oks) (written ++ rest)

theorem runCalls_pieces (calls : List Call) (chain : Chain) :
    ∃ last oks written, runCalls env dtoa chain calls = .ok (last, oks) ∧
      last.contents = chain.contents ++ written ∧ Pieces env dtoa calls oks written := by
  induction calls generalizing chain with
  | nil => exact ⟨chain, [], [], rfl, (List.append_nil _).symm, .nil⟩
  | cons call calls ih =>
    obtain ⟨chain', ok, written, hrun, hcontents, hle, hall, hrefused⟩ :=
      @run_wrote env dtoa call chain
    obtain ⟨last, oks, rest, hcalls, hlast, hpieces⟩ := ih chain'
    refine ⟨last, ok :: oks, written ++ rest, ?_, ?_, ?_⟩
    · simp only [runCalls, hrun, ok_bind, hcalls]
      rfl
    · rw [hlast, hcontents, List.append_assoc]
    · cases ok with
      | true =>
        rw [hall rfl]
        exact .ok call hpieces
      | false => exact .refused call hle (hrefused rfl) hpieces

theorem Pieces.eq_of_ok {calls : List Call} {oks : List Bool} {written : List UInt8}
    (h : Pieces env dtoa calls oks written) (hoks : ∀ ok ∈ oks, ok = true) :
    written = (calls.map (Call.piece dtoa)).flatten := by
  induction h with
  | nil => rfl
  | ok call _ ih =>
    rw [ih fun ok hok => hoks ok (List.mem_cons_of_mem _ hok)]
    rfl
  | refused => exact absurd (hoks false List.mem_cons_self) Bool.false_ne_true

theorem pullupLoop_eq (nodes : List Node) :
    pullupLoop (nodes.map fun n => n.bytes.length).sum nodes =
      .ok (nodes.map Node.bytes).flatten := by
  induction nodes with
  | nil => rfl
  | cons node nodes ih =>
    rw [List.map_cons, List.sum_cons, pullupLoop, if_neg (by omega), Nat.add_sub_cancel_left, ih]
    rfl

/-- The bytes of the nodes are put together, if there is memory. -/
theorem bufPullup_eq (env : Env) (chain : Chain) :
    bufPullup env chain = .ok chain.contents ∨
      bufPullup env chain = .error (.throw .memoryError) ∧ ∃ n, env.mpAlloc n = false := by
  rcases chain with - | ⟨first, - | ⟨second, nodes⟩⟩
  · exact Or.inl rfl
  · left
    simp [bufPullup, Chain.contents]
  · simp only [bufPullup]
    split_ifs with hgrant
    · left
      have hloop := pullupLoop_eq (first :: second :: nodes).reverse
      rw [List.map_reverse, List.sum_reverse] at hloop
      rw [hloop]
      rfl
    · exact Or.inr ⟨rfl, _, Bool.not_eq_true _ ▸ hgrant⟩

/-- No call writes beyond what it reserved. What is put together at the end is what the calls
wrote: the pieces in order, if all of them returned `NJS_OK`. -/
theorem output_pieces (env : Env) (dtoa : Dtoa) (calls : List Call) :
    ∃ last oks, runCalls env dtoa [] calls = .ok (last, oks) ∧
      Pieces env dtoa calls oks last.contents ∧
      ((∀ ok ∈ oks, ok = true) →
        last.contents = (calls.map (Call.piece dtoa)).flatten) ∧
      (bufPullup env last = .ok last.contents ∨
        bufPullup env last = .error (.throw .memoryError) ∧ ∃ n, env.mpAlloc n = false) := by
  obtain ⟨last, oks, written, hrun, hcontents, hpieces⟩ := @runCalls_pieces env dtoa calls []
  have hlast : last.contents = written := hcontents
  rw [← hlast] at hpieces
  exact ⟨last, oks, hrun, hpieces, hpieces.eq_of_ok, bufPullup_eq env last⟩

/-- An apostrophe between apostrophes is not escaped. -/
theorem apostrophe_not_escaped : ¬∃ escape : UInt8 → List UInt8,
    ∀ (env : Env) (dtoa : Dtoa) (quote : UInt8) (value : Subject) (last : Chain),
      runCalls env dtoa [] [.string quote value] = .ok (last, [true]) →
      last.contents = quote :: (value.prop.start.flatMap fun c =>
        if c < 32 ∨ c = escapeMark ∨ c = quote then escapeMark :: escape c else [c]) ++
          [quote] := by
  rintro ⟨escape, h⟩
  let env : Env := ⟨fun _ => true, fun _ => 0⟩
  let dtoa : Dtoa := ⟨fun _ => [], fun _ => Nat.zero_le _⟩
  obtain ⟨last, oks, written, hrun, hcontents, hpieces⟩ :=
    @runCalls_pieces env dtoa [.string 39 (.bytes [39])] []
  cases hpieces with
  | refused _ _ hrefused =>
    obtain ⟨n, hn⟩ := hrefused
    cases hn
  | ok _ hrest =>
    cases hrest
    have hlast := h env dtoa 39 (.bytes [39]) last hrun
    rw [hcontents] at hlast
    have hshort : quoted 39 [39] = [39, 39, 39] := by decide
    simp [Call.piece, Subject.prop, hshort, Chain.contents] at hlast
    exact absurd hlast.1 (by decide)

/-! ## What is written is read back -/

theorem control_unit : ∀ n < 32, encodeUnit n = [n.toUInt8] ∧
    hexUnit 48 48 (hexChar ((n.toUInt8 &&& 0xF0) >>> 4).toNat)
      (hexChar (n.toUInt8 &&& 0x0F).toNat) = some n := by
  decide

/-- A byte is written as a part of a string that is read as the byte. -/
theorem escapes_item (c : UInt8) :
    ∃ i, (∀ q, item (escapes quotationMark [c] ++ q) = some (i, q)) ∧
      ∀ items, decodeUtf16 (i :: items) = c :: decodeUtf16 items ∧
        decodeNjs (i :: items) = c :: decodeNjs items := by
  cases hc : isSpecial quotationMark c with
  | false =>
    rw [escapes_plain (List.forall_mem_singleton.mpr hc)]
    simp only [isSpecial, Bool.or_eq_false_iff, decide_eq_false_iff_not, decide_true,
      Bool.and_true] at hc
    exact ⟨.byte c, fun q => item_byte hc.1.2 hc.2 (UInt8.not_lt.mp hc.1.1), fun _ => ⟨rfl, rfl⟩⟩
  | true =>
    have hwritten : escapes quotationMark [c] = escapeChar c := by simp [escapes, hc]
    rw [hwritten]
    by_cases hnamed : ∃ e, escaped e = some c ∧ escapeChar c = [escapeMark, e]
    · obtain ⟨e, he, hchar⟩ := hnamed
      rw [hchar]
      exact ⟨.byte c, fun q => item_escaped he, fun _ => ⟨rfl, rfl⟩⟩
    · have hlt : c.toNat < 32 := by
        simp only [isSpecial, Bool.or_eq_true, decide_eq_true_eq, decide_true,
          Bool.and_true] at hc
        rcases hc with (hc | rfl) | rfl
        · exact UInt8.lt_iff_toNat_lt.mp hc
        · exact absurd ⟨escapeMark, rfl, rfl⟩ hnamed
        · exact absurd ⟨quotationMark, rfl, rfl⟩ hnamed
      have hchar : escapeChar c = [escapeMark, 117, 48, 48,
          hexChar ((c &&& 0xF0) >>> 4).toNat, hexChar (c &&& 0x0F).toNat] := by
        unfold escapeChar at hnamed ⊢
        split_ifs at hnamed ⊢
        all_goals first
          | rfl
          | (subst c; exact absurd ⟨_, by rfl, rfl⟩ hnamed)
      obtain ⟨hbytes, hunit⟩ := control_unit c.toNat hlt
      rw [show c.toNat.toUInt8 = c from UInt8.ofNat_toNat] at hbytes hunit
      have hhigh : isHigh c.toNat = false := by simp [isHigh]; omega
      refine ⟨.unit c.toNat, fun q => ?_, fun items => ?_⟩
      · rw [hchar]
        exact item_unit hunit
      · rw [decodeUtf16_alone (by simp [hhigh]), decodeNjs_alone hhigh, hbytes]
        exact ⟨rfl, rfl⟩

/-- What is written for a string between quotation marks is read as the string. -/
theorem escapes_text (p q : List UInt8) :
    ∃ items, StringText (escapes quotationMark p ++ quotationMark :: q) items q ∧
      decodeUtf16 items = p ∧ decodeNjs items = p := by
  induction p with
  | nil => exact ⟨[], .nil q, rfl, rfl⟩
  | cons c p ih =>
    obtain ⟨items, htext, hutf, hnjs⟩ := ih
    obtain ⟨i, hitem, hdecode⟩ := escapes_item c
    refine ⟨i :: items, ?_, by rw [(hdecode items).1, hutf], by rw [(hdecode items).2, hnjs]⟩
    rw [← List.singleton_append, escapes_append, List.append_assoc]
    exact .cons (hitem _) htext

/-- Each string that `JSON.stringify()` writes is a string of RFC 8259 for its own bytes, and
`JSON.parse()` reads them back with whatever is behind them, if there is memory. -/
theorem string_read_back (env : Env) (ctx : Context) (value : Subject) (chain : Chain)
    (rest : List UInt8) :
    ∃ chain' ok written, appendString env quotationMark value.prop chain = .ok (chain', ok) ∧
      chain'.contents = chain.contents ++ written ∧
      (ok = false → ∃ n, env.mpAlloc n = false) ∧
      (ok = true →
        (∃ items p, written ++ rest = quotationMark :: p ∧ StringText p items rest ∧
          decodeUtf16 items = value.prop.start) ∧
        (parseString ctx (written ++ rest) = .ok (value.prop.start, rest) ∨
          ∃ request left, ctx.grants request left = false)) := by
  obtain ⟨chain', ok, written, hrun, hcontents, -, hall, hrefused⟩ :=
    @appendString_wrote env quotationMark value chain
  refine ⟨chain', ok, written, hrun, hcontents, hrefused, fun hok => ?_⟩
  obtain ⟨items, htext, hutf, hnjs⟩ := escapes_text value.prop.start rest
  have hwritten : written ++ rest =
      quotationMark :: (escapes quotationMark value.prop.start ++ quotationMark :: rest) := by
    rw [hall hok, quoted]
    simp [escapes]
  refine ⟨⟨items, _, hwritten, htext, hutf⟩, ?_⟩
  rw [hwritten]
  rcases parseString_cases ctx quotationMark _ with ⟨-, -, -, hnot⟩ | ⟨items', q, htext', hread⟩
  · right
    by_contra! hgrants
    exact hnot (by simpa using hgrants) items rest htext
  · obtain ⟨rfl, rfl⟩ := htext.unique htext'
    exact Or.inl (hread.trans (by rw [hnjs]))

end Njs.Json
