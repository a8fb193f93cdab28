import Njs.Crypto.Objects
import Njs.Str.ByteStrings
import Mathlib.Data.List.Forall2

/-!
# Runs of calls on Hash and Hmac objects

What an object stands for: an algorithm, a key if it is an Hmac object, and the text that
it has taken. The calls are compared with what they are to do to such objects, over runs
on any number of objects.
-/

namespace Njs.Crypto

open Njs.Str

/-! ## What the objects are for -/

/-- The digest of a text. -/
def Alg.digest (alg : Alg) (text : List UInt8) : List UInt8 := Crypto.digest alg.transformation text

/-- The key of RFC 2104, as long as a block: a longer key is digested first. -/
def hmacKey (alg : Alg) (key : List UInt8) : List UInt8 :=
  let key := if key.length > blockSize then alg.digest key else key
  key ++ List.replicate (blockSize - key.length) 0

/-- The HMAC of RFC 2104. -/
def Alg.hmac (alg : Alg) (key text : List UInt8) : List UInt8 :=
  alg.digest ((hmacKey alg key).map (· ^^^ opadByte) ++
    alg.digest ((hmacKey alg key).map (· ^^^ ipadByte) ++ text))

/-- What an object was made for. -/
inductive Origin
  | hash
  | hmac (key : List UInt8)

/-- What an object stands for. -/
structure Entry where
  /-- Whether it is a Hash or an Hmac object, and the key of the latter. -/
  origin : Origin
  /-- The algorithm. -/
  alg : Alg
  /-- The concatenation of the updates, until the digest is taken. -/
  text : Option (List UInt8)

namespace Entry

/-- The kind of an object. -/
def kind (e : Entry) : Kind :=
  match e.origin with
  | .hash => .hash
  | .hmac _ => .hmac

/-- The digest of an object that has taken a text. -/
def answer (e : Entry) (text : List UInt8) : List UInt8 :=
  match e.origin with
  | .hash => e.alg.digest text
  | .hmac key => e.alg.hmac key text

end Entry

/-- The bytes of a string argument. -/
def string? : Option Value → Option (List UInt8)
  | some (.string v) => some v.bytes
  | _ => none

/-- The encoding that the optional argument asks for. -/
def encoding? : Option Value → Option (Option Encoding)
  | none => some none
  | arg => do
    let name ← string? arg
    some <$> cryptoEncoding name

/-- The receiver, if it is an object of a kind whose digest was not taken. -/
def receiver? (entries : List Entry) (kind : Kind) : Value → Option (ℕ × Entry × List UInt8)
  | .object id => do
    let e ← entries[id]?
    let text ← e.text
    if e.kind = kind then some (id, e, text) else none
  | _ => none

/-- What a call is to do. -/
inductive Verdict
  /-- Make an object. -/
  | create (e : Entry)
  /-- Change an object, and return it. -/
  | update (id : ℕ) (e : Entry)
  /-- Return a digest in an encoding; the object is finished. -/
  | answer (id : ℕ) (e : Entry) (enc : Option Encoding) (digest : List UInt8)
  /-- Throw an exception. -/
  | reject

/-- What a call is to do to objects. -/
def verdict (entries : List Entry) : Call → Verdict
  | .createHash args =>
    match (string? args[0]?).bind cryptoAlg with
    | some alg => .create { origin := .hash, alg := alg, text := some [] }
    | none => .reject
  | .createHmac args =>
    match (string? args[0]?).bind cryptoAlg, string? args[1]? with
    | some alg, some key => .create { origin := .hmac key, alg := alg, text := some [] }
    | _, _ => .reject
  | .update kind this args =>
    match string? args[0]?, receiver? entries kind this with
    | some data, some (id, e, text) => .update id { e with text := some (text ++ data) }
    | _, _ => .reject
  | .digest kind this args =>
    match encoding? args[0]?, receiver? entries kind this with
    | some enc, some (id, e, text) => .answer id { e with text := none } enc (e.answer text)
    | _, _ => .reject

/-- The bytes of a digest in an encoding. -/
def encodedText : Option Encoding → List UInt8 → List UInt8
  | none, str => str
  | some .hex, str => hexLoop str
  | some .base64, str => encodeBase64Core encodeBasis64 true str
  | some .base64url, str => encodeBase64Core encodeBasis64url false str

/-- The outcome is an exception. -/
def Outcome.IsException : Outcome → Prop
  | .error _ => True
  | .stop (.throw _) => True
  | _ => False

/-- A call does what it is to do, and leaves all other objects as they are. An allocation
that is refused ends it with a memory error. -/
inductive Meets (env : Env) (heap : Heap) (entries : List Entry) (c : Call) :
    Outcome → Heap → List Entry → Prop
  | created {e : Entry} (obj : DataObject) (h : verdict entries c = .create e) :
      Meets env heap entries c (.value (.object heap.length)) (heap ++ [obj]) (entries ++ [e])
  | notCreated {e : Entry} (h : verdict entries c = .create e)
      (hmem : ∃ n, env.mpAlloc n = false) :
      Meets env heap entries c (.stop (.throw .memoryError)) heap entries
  | updated {id : ℕ} {e : Entry} (obj : DataObject) (h : verdict entries c = .update id e) :
      Meets env heap entries c (.value (.object id)) (heap.set id obj) (entries.set id e)
  | answered {id : ℕ} {e : Entry} {enc : Option Encoding} {digest : List UInt8} {v : StringValue}
      (obj : DataObject) (h : verdict entries c = .answer id e enc digest)
      (hv : v.bytes = encodedText enc digest) :
      Meets env heap entries c (.value (.string v)) (heap.set id obj) (entries.set id e)
  | notAnswered {id : ℕ} {e : Entry} {enc : Option Encoding} {digest : List UInt8}
      (obj : DataObject) (h : verdict entries c = .answer id e enc digest)
      (hmem : ∃ n, env.mpAlloc n = false) :
      Meets env heap entries c (.stop (.throw .memoryError)) (heap.set id obj) (entries.set id e)
  | rejected {o : Outcome} (h : verdict entries c = .reject) (ho : o.IsException) :
      Meets env heap entries c o heap entries

/-- In a run, every call does what it is to do to the objects that are there. -/
def Lawful (env : Env) : Heap → List Entry → List Call → Prop
  | _, _, [] => True
  | heap, entries, c :: calls =>
    ∃ next, Meets env heap entries c (call env heap c).1 (call env heap c).2 next ∧
      Lawful env (call env heap c).2 next calls

/-- A call whose arguments are as they should be applies a method to an object of the other
kind, where something else than a null pointer is read as the algorithm. -/
def Confused (heap : Heap) : Call → Prop
  | .update kind (.object id) args =>
    string? args[0]? ≠ none ∧ ∃ obj, heap[id]? = some obj ∧ kind.algField obj = .wild
  | .digest kind (.object id) args =>
    encoding? args[0]? ≠ none ∧ ∃ obj, heap[id]? = some obj ∧ kind.algField obj = .wild
  | _ => False

/-- No call of a run is confused about the kind of its receiver. -/
def Unconfused (env : Env) : Heap → List Call → Prop
  | _, [] => True
  | heap, c :: calls => ¬ Confused heap c ∧ Unconfused env (call env heap c).2 calls

/-! ## Contexts -/

theorem Alg.digest_length (alg : Alg) (text : List UInt8) :
    (alg.digest text).length = alg.size := by
  cases alg <;> rfl

/-- The union holds a context of the algorithm that has taken a text. -/
def Live (alg : Alg) (text : List UInt8) (u : HashUnion) : Prop :=
  ∃ ctx, u = ⟨alg, ctx⟩ ∧ Taken alg.transformation text ctx

variable {alg : Alg} {u : HashUnion} {text : List UInt8}

theorem Live.fst_eq (h : Live alg text u) : u.1 = alg := by
  obtain ⟨ctx, rfl, -⟩ := h
  rfl

theorem live_fresh (env : Env) (offset : ℕ) (alg : Alg) :
    Live alg [] (HashUnion.fresh env offset alg) :=
  ⟨_, rfl, taken_init _⟩

theorem live_init (h : u.1 = alg) : ∃ next, u.init alg = .ok next ∧ Live alg [] next := by
  subst h
  exact ⟨_, if_pos rfl, _, rfl, taken_init _⟩

theorem Live.update (h : Live alg text u) (data : List UInt8) :
    ∃ next, u.update alg data = .ok next ∧ Live alg (text ++ data) next := by
  obtain ⟨ctx, rfl, htaken⟩ := h
  obtain ⟨next, hnext, htaken'⟩ := htaken.update data
  refine ⟨⟨alg, next⟩, ?_, next, rfl, htaken'⟩
  rw [HashUnion.update, if_pos rfl, hnext]
  rfl

theorem Live.final (h : Live alg text u) :
    ∃ next, u.final alg = .ok (alg.digest text, next) ∧ next.1 = alg := by
  obtain ⟨ctx, rfl, htaken⟩ := h
  have hfinal : HashUnion.final alg ⟨alg, ctx⟩ = .ok (alg.digest text,
      ⟨alg, { bytes := 0, words := alg.transformation.zero, buffer := Buffer.zero }⟩) := by
    rw [HashUnion.final, if_pos rfl, htaken.final]
    rfl
  exact ⟨_, hfinal, rfl⟩

theorem digest_take_size (alg : Alg) (text : List UInt8) :
    (alg.digest text).take alg.size = alg.digest text :=
  List.take_of_length_le (Nat.le_of_eq (alg.digest_length text))

/-- The key buffer is the key of RFC 2104. -/
theorem keyBuf_spec (h : u.1 = alg) (key : List UInt8) :
    ∃ next, keyBuf alg u key = .ok (hmacKey alg key, next) ∧ next.1 = alg := by
  unfold keyBuf hmacKey
  by_cases hlong : key.length > blockSize
  · obtain ⟨u1, hinit, hlive⟩ := live_init h
    obtain ⟨u2, hupdate, hlive⟩ := hlive.update key
    obtain ⟨u3, hfinal, hfst⟩ := hlive.final
    refine ⟨u3, ?_, hfst⟩
    rw [List.nil_append] at hfinal
    simp only [if_pos hlong, hinit, hupdate, hfinal, bind, Except.bind, pure, Except.pure,
      digest_take_size, Alg.digest_length]
  · exact ⟨u, by simp only [if_neg hlong]; rfl, h⟩

/-! ## Structures -/

/-- The `alg` field and the union of a structure that has taken a text behind a prefix, or
whose digest was taken. -/
def Holds (field : Option Alg) (u : HashUnion) (alg : Alg) (before : List UInt8) :
    Option (List UInt8) → Prop
  | some text => field = some alg ∧ Live alg (before ++ text) u
  | none => field = none

/-- A structure is what an object stands for. -/
def Represents : DataObject → Entry → Prop
  | .hash d, ⟨.hash, alg, text⟩ => Holds d.alg d.u alg [] text
  | .hmac h, ⟨.hmac key, alg, text⟩ =>
    h.opad = (hmacKey alg key).map (· ^^^ opadByte) ∧
      Holds h.alg h.u alg ((hmacKey alg key).map (· ^^^ ipadByte)) text
  | _, _ => False

variable {obj : DataObject} {e : Entry}

theorem Represents.kind_eq (h : Represents obj e) : obj.kind = e.kind := by
  obtain ⟨origin, alg, text⟩ := e
  cases obj <;> cases origin <;> first | rfl | exact h.elim

/-- A method of its own prototype reads the algorithm of an object. -/
theorem Represents.algField_eq (h : Represents obj e) :
    e.kind.algField obj = .ofOption (e.text.map fun _ => e.alg) := by
  obtain ⟨origin, alg, text⟩ := e
  cases obj with
  | hash d =>
    cases origin with
    | hash =>
      cases text with
      | none => exact congrArg AlgField.ofOption h
      | some text => exact congrArg AlgField.ofOption h.1
    | hmac key => exact h.elim
  | hmac m =>
    cases origin with
    | hash => exact h.elim
    | hmac key =>
      cases text with
      | none => exact congrArg AlgField.ofOption h.2
      | some text => exact congrArg AlgField.ofOption h.2.1

/-- The union of an object is written by the `update` function of its algorithm. -/
theorem Represents.update (h : Represents obj e) (htext : e.text = some text)
    (data : List UInt8) :
    ∃ next, obj.u.update e.alg data = .ok next ∧
      Represents (obj.setU next) { e with text := some (text ++ data) } := by
  obtain ⟨origin, alg, text'⟩ := e
  obtain rfl : text' = some text := htext
  cases obj with
  | hash d =>
    cases origin with
    | hash =>
      obtain ⟨hfield, hlive⟩ := h
      obtain ⟨next, hnext, hlive'⟩ := hlive.update data
      exact ⟨next, hnext, hfield, by rwa [List.append_assoc] at hlive'⟩
    | hmac key => exact h.elim
  | hmac m =>
    cases origin with
    | hash => exact h.elim
    | hmac key =>
      obtain ⟨hopad, hfield, hlive⟩ := h
      obtain ⟨next, hnext, hlive'⟩ := hlive.update data
      exact ⟨next, hnext, hopad, hfield, by rwa [List.append_assoc] at hlive'⟩

/-- The digest of an object is what it stands for. -/
theorem Represents.takeDigest (h : Represents obj e) (htext : e.text = some text) :
    ∃ next, takeDigest e.alg obj = .ok (e.answer text, next) ∧
      Represents next.clearAlg { e with text := none } := by
  obtain ⟨origin, alg, text'⟩ := e
  obtain rfl : text' = some text := htext
  cases obj with
  | hash d =>
    cases origin with
    | hash =>
      obtain ⟨u1, hfinal, -⟩ := h.2.final
      refine ⟨.hash { d with u := u1 }, ?_, rfl⟩
      simp only [Crypto.takeDigest, hfinal, bind, Except.bind, pure, Except.pure, digest_take_size]
      rfl
    | hmac key => exact h.elim
  | hmac m =>
    cases origin with
    | hash => exact h.elim
    | hmac key =>
      obtain ⟨hopad, -, hlive⟩ := h
      obtain ⟨u1, hinner, hfst⟩ := hlive.final
      obtain ⟨u2, hinit, hlive⟩ := live_init hfst
      obtain ⟨u3, hpad, hlive⟩ := hlive.update m.opad
      obtain ⟨u4, hhash, hlive⟩ := hlive.update
        (alg.digest ((hmacKey alg key).map (· ^^^ ipadByte) ++ text))
      obtain ⟨u5, houter, -⟩ := hlive.final
      have hanswer : Entry.answer ⟨.hmac key, alg, some text⟩ text =
          alg.digest (m.opad ++ alg.digest ((hmacKey alg key).map (· ^^^ ipadByte) ++ text)) := by
        rw [hopad]
        rfl
      rw [List.nil_append] at houter
      refine ⟨.hmac { m with u := u5 }, ?_, hopad, rfl⟩
      simp only [Crypto.takeDigest, hinner, hinit, hpad, hhash, houter, bind, Except.bind, pure,
        Except.pure, digest_take_size, hanswer]

theorem Alg.size_le (alg : Alg) : alg.size ≤ 32 := by cases alg <;> decide

theorem Entry.answer_length (e : Entry) (text : List UInt8) :
    (e.answer text).length = e.alg.size := by
  unfold Entry.answer
  split
  · exact Alg.digest_length _ _
  · exact Alg.digest_length _ _

/-- A digest is returned as its text in the encoding. -/
theorem encodeDigest_spec (env : Env) (enc : Option Encoding) {str : List UInt8}
    (h : str.length ≤ 32) :
    Returns env (encodeDigest env enc str) fun v => v.bytes = encodedText enc str := by
  have hfill : ∀ (length : ℕ) (out : List UInt8), out.length ≤ maxLength →
      Returns env (stringAlloc env out.length length >>= fun v => v.fill out)
        fun v => v.bytes = out :=
    fun length out hout => (stringAlloc_fill_spec env hout).mono fun v hv => hv.2
  have hbase : base64EncodedLength str.length ≤ 44 := by
    simp only [base64EncodedLength]
    omega
  rcases enc with - | (- | - | -)
  · exact hfill 0 str (by simp only [maxLength]; omega)
  · have hspec := hfill (str.length * 2) (hexLoop str)
      (by rw [hexLoop_length]; simp only [maxLength]; omega)
    rwa [hexLoop_length] at hspec
  · change Returns env (Str.base64 env str) _
    unfold Str.base64
    split_ifs with hnil
    · rw [List.eq_nil_of_length_eq_zero hnil]
      exact .ok rfl rfl
    · have hspec := hfill (base64EncodedLength str.length) (encodeBase64Core encodeBasis64 true str)
        (by rw [encodeBase64Core_length]; simp only [maxLength]; omega)
      rwa [encodeBase64Core_length] at hspec
  · change Returns env (Str.base64url env str) _
    unfold Str.base64url
    split_ifs with hnil
    · rw [List.eq_nil_of_length_eq_zero hnil]
      exact .ok rfl rfl
    · have hspec := hfill (base64EncodedLength str.length - (4 >>> (str.length % 3) &&& 0x03))
        (encodeBase64Core encodeBasis64url false str)
        (by rw [encodeBase64Core_length_of_not_padding]; simp only [maxLength]; omega)
      rwa [encodeBase64Core_length_of_not_padding] at hspec

/-! ## Calls -/

variable {heap : Heap} {entries : List Entry}

theorem stringArg_eq (message : String) (arg : Option Value) :
    stringArg message arg =
      match string? arg with
      | some data => .ok data
      | none => .error (typeError message []) := by
  rcases arg with - | v
  · rfl
  · cases v <;> rfl

/-- A receiver that is found is found by the method, with its algorithm. -/
theorem receiver_found (h : List.Forall₂ Represents heap entries) {kind : Kind} {this : Value}
    {id : ℕ} (hfound : receiver? entries kind this = some (id, e, text)) :
    this = .object id ∧ e.text = some text ∧ ∃ obj, thisArg heap this = .ok (id, obj) ∧
      liveAlg kind obj = .ok e.alg ∧ Represents obj e := by
  cases this with
  | object id' =>
    simp only [receiver?, bind, Option.bind] at hfound
    rcases hentry : entries[id']? with - | e'
    · simp [hentry] at hfound
    · rcases htext : e'.text with - | text'
      · simp [hentry, htext] at hfound
      · simp only [hentry, htext] at hfound
        split_ifs at hfound with hkind
        · obtain ⟨rfl, rfl, rfl⟩ := by simpa using hfound
          obtain ⟨obj, hobj, hrep⟩ : ∃ obj, heap[id']? = some obj ∧ Represents obj e' := by
            have hlt : id' < entries.length := (List.getElem?_eq_some_iff.mp hentry).1
            have hlt' : id' < heap.length := by rwa [h.length_eq]
            refine ⟨heap[id'], List.getElem?_eq_getElem hlt', ?_⟩
            have hget := h.get hlt' hlt
            rw [List.getElem?_eq_getElem hlt, Option.some_inj] at hentry
            simpa [hentry] using hget
          refine ⟨rfl, htext, obj, by simp only [thisArg, hobj], ?_, hrep⟩
          have hfield := hrep.algField_eq
          rw [hkind, htext] at hfield
          simp only [liveAlg, hfield]
          rfl
  | _ => simp [receiver?] at hfound

/-- Where no receiver is found, the method throws an exception, unless it reads something
else than a null pointer as the algorithm. -/
theorem receiver_missing (h : List.Forall₂ Represents heap entries) {kind : Kind} {this : Value}
    (hmissing : receiver? entries kind this = none) :
    (∃ o, thisArg heap this = .error o ∧ o.IsException) ∨
      ∃ id obj, this = .object id ∧ heap[id]? = some obj ∧ thisArg heap this = .ok (id, obj) ∧
        (kind.algField obj = .null ∨ kind.algField obj = .wild) := by
  cases this with
  | object id =>
    rcases hobj : heap[id]? with - | obj
    · exact Or.inl ⟨typeError "value of \"this\" is not a data type" [],
        by simp only [thisArg, hobj], trivial⟩
    · refine Or.inr ⟨id, obj, rfl, hobj, by simp only [thisArg, hobj], ?_⟩
      obtain ⟨e, hentry, hrep⟩ : ∃ e, entries[id]? = some e ∧ Represents obj e := by
        have hlt : id < heap.length := (List.getElem?_eq_some_iff.mp hobj).1
        have hlt' : id < entries.length := by rwa [← h.length_eq]
        refine ⟨entries[id], List.getElem?_eq_getElem hlt', ?_⟩
        have hget := h.get hlt hlt'
        rw [List.getElem?_eq_getElem hlt, Option.some_inj] at hobj
        simpa [hobj] using hget
      by_cases hkind : e.kind = kind
      · left
        have hfield := hrep.algField_eq
        rcases htext : e.text with - | text
        · rwa [hkind, htext] at hfield
        · simp [receiver?, hentry, htext, hkind] at hmissing
      · rw [← hrep.kind_eq] at hkind
        cases obj <;> cases kind <;> first
          | exact absurd rfl hkind
          | (simp only [Kind.algField]; split_ifs <;> simp)
          | exact Or.inr rfl
  | objectValue => exact Or.inl ⟨_, rfl, trivial⟩
  | string v => exact Or.inl ⟨_, rfl, trivial⟩
  | other => exact Or.inl ⟨_, rfl, trivial⟩

/-- An object is changed, and still is what it stands for. -/
theorem forall₂_set (h : List.Forall₂ Represents heap entries) (id : ℕ) (hrep : Represents obj e) :
    List.Forall₂ Represents (heap.set id obj) (entries.set id e) := by
  induction h generalizing id with
  | nil => exact .nil
  | cons hhead htail ih =>
    cases id with
    | zero => exact .cons hrep htail
    | succ id => exact .cons hhead (ih id)

theorem forall₂_append (h : List.Forall₂ Represents heap entries) (hrep : Represents obj e) :
    List.Forall₂ Represents (heap ++ [obj]) (entries ++ [e]) :=
  List.rel_append h (.cons hrep .nil)

theorem alloc_cases (env : Env) (size : ℕ) :
    alloc env size = .ok () ∨
      (alloc env size = .error (.stop (.throw .memoryError)) ∧ ∃ n, env.mpAlloc n = false) := by
  unfold alloc
  by_cases h : env.mpAlloc size = true
  · exact Or.inl (if_pos h)
  · exact Or.inr ⟨if_neg h, size, by simpa using h⟩

theorem findAlg_eq (name : List UInt8) :
    findAlg name =
      match cryptoAlg name with
      | some alg => .ok alg
      | none => .error (typeError "not supported algorithm: \"%V\"" [name]) := rfl

/-- `createHash` makes an object that has taken no text. -/
theorem createHash_meets (env : Env) (h : List.Forall₂ Represents heap entries)
    (args : List Value) :
    ∃ next, Meets env heap entries (.createHash args) (createHash env heap args).1
        (createHash env heap args).2 next ∧
      List.Forall₂ Represents (createHash env heap args).2 next := by
  unfold createHash
  rw [stringArg_eq]
  rcases hname : string? args[0]? with - | name
  · exact ⟨entries, .rejected (by simp [verdict, hname]) trivial, h⟩
  · simp only [bind, Except.bind]
    rw [findAlg_eq]
    rcases halg : cryptoAlg name with - | alg
    · exact ⟨entries, .rejected (by simp [verdict, hname, halg]) trivial, h⟩
    · have hverdict : verdict entries (.createHash args) =
          .create { origin := .hash, alg := alg, text := some [] } := by
        simp [verdict, hname, halg]
      rcases alloc_cases env sizeofObjectValue with hov | ⟨hov, hmem⟩
      · rcases alloc_cases env sizeofDigest with hdgst | ⟨hdgst, hmem⟩
        · simp only [hov, hdgst]
          exact ⟨_, .created _ hverdict, forall₂_append h ⟨rfl, live_fresh env 0 alg⟩⟩
        · simp only [hov, hdgst]
          exact ⟨entries, .notCreated hverdict hmem, h⟩
      · simp only [hov]
        exact ⟨entries, .notCreated hverdict hmem, h⟩

/-- `createHmac` makes an object that has taken no text behind the inner pad. -/
theorem createHmac_meets (env : Env) (h : List.Forall₂ Represents heap entries)
    (args : List Value) :
    ∃ next, Meets env heap entries (.createHmac args) (createHmac env heap args).1
        (createHmac env heap args).2 next ∧
      List.Forall₂ Represents (createHmac env heap args).2 next := by
  unfold createHmac
  rw [stringArg_eq, stringArg_eq]
  rcases hname : string? args[0]? with - | name
  · exact ⟨entries, .rejected (by simp [verdict, hname]) trivial, h⟩
  rcases hkey : string? args[1]? with - | key
  · exact ⟨entries, .rejected (by simp [verdict, hkey]) trivial, h⟩
  simp only [bind, Except.bind]
  rw [findAlg_eq]
  rcases halg : cryptoAlg name with - | alg
  · exact ⟨entries, .rejected (by simp [verdict, hname, halg]) trivial, h⟩
  have hverdict : verdict entries (.createHmac args) =
      .create { origin := .hmac key, alg := alg, text := some [] } := by
    simp [verdict, hname, hkey, halg]
  rcases alloc_cases env sizeofHmac with hctx | ⟨hctx, hmem⟩
  · obtain ⟨u1, hbuf, hfst⟩ := keyBuf_spec (live_fresh env hmacUnionOffset alg).fst_eq key
    obtain ⟨u2, hinit, hlive⟩ := live_init hfst
    obtain ⟨u3, hpad, hlive⟩ := hlive.update ((hmacKey alg key).map (· ^^^ ipadByte))
    rw [List.nil_append] at hlive
    simp only [hctx, hbuf, hinit, hpad, lift, Except.mapError]
    rcases alloc_cases env sizeofObjectValue with hov | ⟨hov, hmem⟩
    · simp only [hov]
      exact ⟨_, .created _ hverdict, forall₂_append h ⟨rfl, rfl, by rwa [List.append_nil]⟩⟩
    · simp only [hov]
      exact ⟨entries, .notCreated hverdict hmem, h⟩
  · simp only [hctx]
    exact ⟨entries, .notCreated hverdict hmem, h⟩

/-- `update` appends to the text of an object of its own kind. -/
theorem prototypeUpdate_meets (env : Env) (h : List.Forall₂ Represents heap entries) {kind : Kind}
    {this : Value} {args : List Value} (hclear : ¬ Confused heap (.update kind this args)) :
    ∃ next, Meets env heap entries (.update kind this args) (prototypeUpdate kind heap this args).1
        (prototypeUpdate kind heap this args).2 next ∧
      List.Forall₂ Represents (prototypeUpdate kind heap this args).2 next := by
  unfold prototypeUpdate
  rw [stringArg_eq]
  rcases hdata : string? args[0]? with - | data
  · exact ⟨entries, .rejected (by simp [verdict, hdata]) trivial, h⟩
  rcases hrecv : receiver? entries kind this with - | ⟨id, e, text⟩
  · have hverdict : verdict entries (.update kind this args) = .reject := by
      simp [verdict, hdata, hrecv]
    rcases receiver_missing h hrecv with ⟨o, hthis, ho⟩ | ⟨id, obj, rfl, hobj, hthis, hnull | hwild⟩
    · simp only [hthis, bind, Except.bind, finish]
      exact ⟨entries, .rejected hverdict ho, h⟩
    · simp only [hthis, liveAlg, hnull, bind, Except.bind, finish]
      exact ⟨entries, .rejected hverdict trivial, h⟩
    · exact absurd ⟨by simp [hdata], obj, hobj, hwild⟩ hclear
  · obtain ⟨rfl, htext, obj, hthis, halg, hrep⟩ := receiver_found h hrecv
    obtain ⟨u, hupdate, hrep'⟩ := hrep.update htext data
    have hverdict : verdict entries (.update kind (.object id) args) =
        .update id { e with text := some (text ++ data) } := by
      simp [verdict, hdata, hrecv]
    simp only [hthis, halg, hupdate, lift, Except.mapError, bind, Except.bind]
    exact ⟨_, .updated _ hverdict, forall₂_set h id hrep'⟩

/-- The two checks of the encoding argument. -/
theorem encodingArg_cases (arg : Option Value) :
    (encoding? arg = none ∧
        ((∃ o, encodingArg arg = .error o ∧ o.IsException) ∨
          ∃ name o, encodingArg arg = .ok name ∧ findEncoding name = .error o ∧ o.IsException)) ∨
      ∃ enc name, encoding? arg = some enc ∧ encodingArg arg = .ok name ∧
        findEncoding name = .ok enc := by
  rcases arg with - | v
  · exact Or.inr ⟨none, none, rfl, rfl, rfl⟩
  · cases v with
    | string v =>
      rcases henc : cryptoEncoding v.bytes with - | enc
      · refine Or.inl ⟨?_, Or.inr ⟨some v.bytes,
          typeError "Unknown digest encoding: \"%V\"" [v.bytes], rfl, ?_, trivial⟩⟩
        · simp [encoding?, string?, henc]
        · simp only [findEncoding, henc]
      · refine Or.inr ⟨some enc, some v.bytes, ?_, rfl, ?_⟩
        · simp [encoding?, string?, henc]
        · simp only [findEncoding, henc]
    | _ => exact Or.inl ⟨rfl, Or.inl ⟨_, rfl, trivial⟩⟩

/-- `digest` returns the digest of an object of its own kind, and finishes it. -/
theorem prototypeDigest_meets (env : Env) (h : List.Forall₂ Represents heap entries) {kind : Kind}
    {this : Value} {args : List Value} (hclear : ¬ Confused heap (.digest kind this args)) :
    ∃ next, Meets env heap entries (.digest kind this args)
        (prototypeDigest env kind heap this args).1 (prototypeDigest env kind heap this args).2
        next ∧
      List.Forall₂ Represents (prototypeDigest env kind heap this args).2 next := by
  unfold prototypeDigest
  have hthrow : ∀ {o : Outcome}, verdict entries (.digest kind this args) = .reject →
      o.IsException → ∃ next, Meets env heap entries (.digest kind this args) o heap next ∧
        List.Forall₂ Represents heap next :=
    fun hverdict ho => ⟨entries, .rejected hverdict ho, h⟩
  rcases hrecv : receiver? entries kind this with - | ⟨id, e, text⟩
  · have hverdict : verdict entries (.digest kind this args) = .reject := by
      simp only [verdict, hrecv]
      split <;> simp_all
    rcases encodingArg_cases args[0]? with ⟨-, ⟨o, harg, ho⟩ | ⟨name, o, harg, hfind, ho⟩⟩ |
      ⟨enc, name, henc, harg, hfind⟩
    · simp only [harg, bind, Except.bind]
      exact hthrow hverdict ho
    · rcases receiver_missing h hrecv with ⟨o', hthis, ho'⟩ | ⟨id, obj, rfl, hobj, hthis, -⟩
      · simp only [harg, hthis, bind, Except.bind]
        exact hthrow hverdict ho'
      · simp only [harg, hthis, hfind, bind, Except.bind]
        exact hthrow hverdict ho
    · rcases receiver_missing h hrecv with ⟨o, hthis, ho⟩ | ⟨id, obj, rfl, hobj, hthis, hnull |
        hwild⟩
      · simp only [harg, hthis, bind, Except.bind]
        exact hthrow hverdict ho
      · simp only [harg, hthis, hfind, liveAlg, hnull, bind, Except.bind]
        exact hthrow hverdict trivial
      · exact absurd ⟨by simp [henc], obj, hobj, hwild⟩ hclear
  · obtain ⟨rfl, htext, obj, hthis, halg, hrep⟩ := receiver_found h hrecv
    rcases encodingArg_cases args[0]? with ⟨hnone, ⟨o, harg, ho⟩ | ⟨name, o, harg, hfind, ho⟩⟩ |
      ⟨enc, name, henc, harg, hfind⟩
    · simp only [harg, bind, Except.bind]
      exact hthrow (by simp [verdict, hnone]) ho
    · simp only [harg, hthis, hfind, bind, Except.bind]
      exact hthrow (by simp [verdict, hnone]) ho
    · obtain ⟨next, htake, hrep'⟩ := hrep.takeDigest htext
      have hverdict : verdict entries (.digest kind (.object id) args) =
          .answer id { e with text := none } enc (e.answer text) := by
        simp [verdict, henc, hrecv]
      have hlen : (e.answer text).length ≤ 32 := by
        rw [e.answer_length]
        exact e.alg.size_le
      have hset := forall₂_set h id hrep'
      simp only [harg, hthis, hfind, halg, htake, lift, Except.mapError, bind, Except.bind, pure,
        Except.pure]
      rcases encodeDigest_spec env enc hlen with ⟨v, hv, hbytes⟩ | ⟨hstop, hmem⟩
      · simp only [hv]
        exact ⟨_, .answered _ hverdict hbytes, hset⟩
      · simp only [hstop]
        exact ⟨_, .notAnswered _ hverdict hmem, hset⟩

/-- A call that is not confused does what it is to do. -/
theorem call_meets (env : Env) (h : List.Forall₂ Represents heap entries) {c : Call}
    (hclear : ¬ Confused heap c) :
    ∃ next, Meets env heap entries c (call env heap c).1 (call env heap c).2 next ∧
      List.Forall₂ Represents (call env heap c).2 next := by
  match c with
  | .createHash args => exact createHash_meets env h args
  | .createHmac args => exact createHmac_meets env h args
  | .update .hash this args => exact prototypeUpdate_meets env h hclear
  | .update .hmac this args => exact prototypeUpdate_meets env h hclear
  | .digest .hash this args => exact prototypeDigest_meets env h hclear
  | .digest .hmac this args => exact prototypeDigest_meets env h hclear

/-- A confused call goes through a pointer that is none. -/
theorem call_of_confused (env : Env) {c : Call} (hconf : Confused heap c) :
    (call env heap c).1 = .stop .fault := by
  have hupdate : ∀ {kind : Kind} {id : ℕ} {args : List Value},
      Confused heap (.update kind (.object id) args) →
        (prototypeUpdate kind heap (.object id) args).1 = .stop .fault := by
    rintro kind id args ⟨harg, obj, hobj, hwild⟩
    obtain ⟨data, hdata⟩ := Option.ne_none_iff_exists'.mp harg
    unfold prototypeUpdate
    rw [stringArg_eq, hdata]
    simp only [thisArg, hobj, liveAlg, hwild, bind, Except.bind, finish]
  have hdigest : ∀ {kind : Kind} {id : ℕ} {args : List Value},
      Confused heap (.digest kind (.object id) args) →
        (prototypeDigest env kind heap (.object id) args).1 = .stop .fault := by
    rintro kind id args ⟨harg, obj, hobj, hwild⟩
    unfold prototypeDigest
    rcases encodingArg_cases args[0]? with ⟨hnone, -⟩ | ⟨enc, name, -, hname, hfind⟩
    · exact absurd hnone harg
    · simp only [hname, thisArg, hobj, hfind, liveAlg, hwild, bind, Except.bind]
  match c with
  | .update .hash (.object id) args => exact hupdate hconf
  | .update .hmac (.object id) args => exact hupdate hconf
  | .digest .hash (.object id) args => exact hdigest hconf
  | .digest .hmac (.object id) args => exact hdigest hconf

/-- No call is to end without a value or an exception. -/
theorem Meets.ne_fault {env : Env} {c : Call} {heap' : Heap} {next : List Entry} :
    ¬ Meets env heap entries c (.stop .fault) heap' next := by
  intro h
  cases h with
  | rejected h ho => exact ho

/-- The outcome of a call determines what the objects stand for afterwards. -/
theorem Meets.unique {env : Env} {c : Call} {o : Outcome} {heap1 heap2 : Heap}
    {next next' : List Entry} (h : Meets env heap entries c o heap1 next)
    (h' : Meets env heap entries c o heap2 next') : next = next' := by
  cases h <;> cases h' <;> simp_all

/-! ## Runs -/

theorem lawful_iff (env : Env) (calls : List Call) (h : List.Forall₂ Represents heap entries) :
    Lawful env heap entries calls ↔ Unconfused env heap calls := by
  induction calls generalizing heap entries with
  | nil => exact Iff.rfl
  | cons c calls ih =>
    constructor
    · rintro ⟨next, hmeets, hrest⟩
      have hclear : ¬ Confused heap c := by
        intro hconf
        rw [call_of_confused env hconf] at hmeets
        exact hmeets.ne_fault
      obtain ⟨next', hmeets', hrep⟩ := call_meets env h hclear
      rw [hmeets.unique hmeets'] at hrest
      exact ⟨hclear, (ih hrep).mp hrest⟩
    · rintro ⟨hclear, hrest⟩
      obtain ⟨next, hmeets, hrep⟩ := call_meets env h hclear
      exact ⟨next, hmeets, (ih hrep).mpr hrest⟩

/-- In a run from the start, every call does what it is to do exactly when no call is
confused about the kind of its receiver. -/
theorem run_lawful_iff (env : Env) (calls : List Call) :
    Lawful env [] [] calls ↔ Unconfused env [] calls :=
  lawful_iff env calls .nil

/-- A string argument with the characters of a literal. -/
def literal (chars : List Char) (h : chars.length ≤ shortMax) : Value :=
  .string (.short {
    size := ⟨chars.length, Nat.lt_succ_of_le h⟩
    length := Fin.ofNat 16 chars.length
    start := chars.map byte ++ List.replicate (shortMax - chars.length) 0
    start_length := by
      rw [List.length_append, List.length_map, List.length_replicate]
      omega })

/-- An Hmac object is made, and `update` of the prototype of Hash is applied to it. -/
def borrowedUpdate : List Call :=
  [.createHmac [literal ['s', 'h', 'a', '2', '5', '6'] (by decide), literal ['k'] (by decide)],
    .update .hash (.object 0) [literal ['x'] (by decide)]]

/-- The other kind of object is not recognised: the call is not rejected, but goes through
bytes of the context that are taken for a pointer. -/
theorem borrowedUpdate_not_lawful :
    ¬ Lawful { mpAlloc := fun _ => true, garbage := fun _ => 0 } [] [] borrowedUpdate := by
  rw [lawful_iff _ _ .nil]
  rintro ⟨-, hclear, -⟩
  have hfield : ((call { mpAlloc := fun _ => true, garbage := fun _ => 0 } []
      (.createHmac [literal ['s', 'h', 'a', '2', '5', '6'] (by decide),
        literal ['k'] (by decide)])).2[0]?).map (Kind.algField .hash) = some .wild := by
    decide +kernel
  obtain ⟨obj, hobj, hwild⟩ := Option.map_eq_some_iff.mp hfield
  exact hclear ⟨by simp [string?, literal], obj, hobj, hwild⟩

end Njs.Crypto
