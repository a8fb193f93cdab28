import Njs.Str.Value

/-!
# Reading a file

`fs.readFileSync` and `fs.readFile` behind `fstat`. A byte of memory that nothing has written to is
not known, and a write outside a buffer is a fault. Buffers are not so large that doubling the size
wraps.
-/

namespace Njs.Fs

open Str

/-- A byte of memory. -/
abbrev Cell := Option UInt8

/-- Memory that nothing has written to. -/
def fresh (size : ℕ) : List Cell := List.replicate size none

/-- A string: its fields, the bytes that it has, and the size of the memory that starts with
them. -/
structure FileString where
  size : ℕ
  length : ℕ
  start : List Cell
  storage : ℕ
  deriving DecidableEq

/-- `njs_string_alloc`. The length of a short string has four bits. -/
def stringAlloc (env : Env) (size length : ℕ) : Result FileString :=
  if size > maxLength then .error (.throw (.rangeError "invalid string length"))
  else if size ≤ shortMax then .ok ⟨size, length % 16, fresh size, shortMax⟩
  else if env.mpAlloc (sizeofString + allocTotal size length) then
    .ok ⟨size, length, fresh size, allocTotal size length⟩
  else .error (.throw .memoryError)

/-- `njs_string_new`, whose size has 32 bits. -/
def stringNew (env : Env) (start : List Cell) (size length : ℕ) : Result FileString :=
  stringAlloc env (size % 2 ^ 32) length >>= fun value =>
    if start.length < size % 2 ^ 32 then .error .fault
    else .ok { value with start := start.take (size % 2 ^ 32) }

/-- `njs_string_length_set`. -/
def FileString.setLength (value : FileString) (length : ℕ) : FileString :=
  { value with length := if value.size ≤ shortMax then length % 16 else length % 2 ^ 32 }

/-- `njs_utf8_length` of memory. -/
def utf8Length (env : Env) (start : List Cell) : Option ℤ :=
  Utf8.length (start.zipIdx.map fun cell => cell.1.getD (env.garbage cell.2))

/-- The variables of `njs_fs_fd_read`: the buffer that it began with, if `data->start` is another
one by now, the buffer `data->start`, and how far `p` is from its start. -/
structure Reading where
  kept : Option (List Cell)
  start : List Cell
  p : ℕ

/-- What `read` writes to a buffer. -/
def store (start : List Cell) (p : ℕ) (bytes : List UInt8) : Result (List Cell) :=
  if p + bytes.length ≤ start.length then
    .ok (start.take p ++ bytes.map some ++ start.drop (p + bytes.length))
  else .error .fault

/-- The loop of `njs_fs_fd_read` for what `read` gives, and at last zero bytes. -/
def readLoop (env : Env) : List (List UInt8) → ℕ → Reading → Result Reading
  | [], _, data => .ok data
  | bytes :: reads, size, data => do
    let start ← store data.start data.p bytes
    let p := data.p + bytes.length
    if size - p < 2048 then
      let size := size * 2
      if env.mpAlloc size then
        if start.length < p ∨ size < p then .error .fault
        else
          let moved := start.take p ++ fresh (size - p)
          readLoop env reads size ⟨data.kept.or (some start), moved, p⟩
      else .error (.throw .memoryError)
    else readLoop env reads size { data with start, p }

/-- `njs_fs_fd_read`, with a buffer or without one. -/
def fdRead (env : Env) (start : Option (List Cell)) (reads : List (List UInt8)) :
    Result Reading :=
  match start with
  | some start => readLoop env reads start.length ⟨none, start, 0⟩
  | none =>
    if env.mpAlloc 4096 then readLoop env reads 4096 ⟨none, fresh 4096, 0⟩
    else .error (.throw .memoryError)

/-- The end of the functions: with an encoding, the length is the number of characters of the bytes
in a buffer. -/
def setTextLength (env : Env) (utf8 : Bool) (value : FileString) (start : List Cell) (size : ℕ) :
    Result (Option FileString) :=
  if utf8 then
    match utf8Length env (start.take size) with
    | none => .error .fault
    | some n => if n ≥ 0 then .ok (some (value.setLength n.toNat)) else .ok none
  else .ok (some value)

/-- `njs_fs_read_file_sync` and `njs_fs_read_file` for a file of the reported size: the string, or
nothing for `Non-UTF8 file, convertion is not implemented`. -/
def readFile (env : Env) (utf8 : Bool) (fileSize : ℕ) (reads : List (List UInt8)) :
    Result (Option FileString) :=
  let length := if utf8 then if fileSize > mapStride then fileSize + 1 else fileSize else 0
  if fileSize ≠ 0 then do
    let value ← stringAlloc env fileSize length
    let data ← fdRead env (some value.start) reads
    -- The string keeps the buffer that the loop began with.
    let value := { value with start := data.kept.getD data.start }
    setTextLength env utf8 value data.start fileSize
  else do
    let data ← fdRead env none reads
    let value ← stringNew env data.start data.p length
    setTextLength env utf8 value data.start data.p

/-! ## What should be returned -/

/-- Every call of `read` gives a byte at least, and no more than it is asked for. -/
def Served : ℕ → ℕ → List (List UInt8) → Prop
  | _, _, [] => True
  | p, size, bytes :: reads => bytes ≠ [] ∧ bytes.length ≤ size - p ∧
      Served (p + bytes.length)
        (if size - (p + bytes.length) < 2048 then size * 2 else size) reads

/-- The size that the loop begins with. -/
def firstSize (fileSize : ℕ) : ℕ := if fileSize = 0 then 4096 else fileSize

/-- The string is the text that was read, its length counts the characters, and there is room for
the offset map. -/
structure Good (utf8 : Bool) (text : List UInt8) (value : FileString) : Prop where
  size : value.size = text.length
  bytes : value.start = text.map some
  length : if utf8 then Utf8.length text = some (value.length : ℤ) else value.length = 0
  storage : utf8 → shortMax < value.size → allocTotal value.size value.length ≤ value.storage

/-- Of a file with a size, as many bytes are read as were reported, and 2048 bytes of the buffer
are free behind every call of `read` but the last one. A file without a size has less than 2 ^ 32
bytes, and with an encoding it has a stride of characters at most, or no other ones than ASCII. -/
def Kept (utf8 : Bool) (fileSize : ℕ) (reads : List (List UInt8)) : Prop :=
  if fileSize = 0 then
    reads.flatten.length < 2 ^ 32 ∧ (utf8 → ∀ n : ℕ, Utf8.length reads.flatten = some (n : ℤ) →
      n ≤ mapStride ∨ n = reads.flatten.length)
  else
    reads.flatten.length = fileSize ∧
      ∀ k < reads.length, 0 < k → 2048 ≤ fileSize - (reads.take k).flatten.length

/-! ## The loop -/

variable {env : Env} {utf8 : Bool} {reads : List (List UInt8)} {text bytes : List UInt8}
  {size fileSize p : ℕ} {kept : Option (List Cell)} {value : FileString}

/-- A buffer that starts with a text. -/
def image (text : List UInt8) (size : ℕ) : List Cell :=
  text.map some ++ fresh (size - text.length)

theorem image_length (h : text.length ≤ size) : (image text size).length = size := by
  simp [image, fresh, h]

theorem image_take (text : List UInt8) (size : ℕ) :
    (image text size).take text.length = text.map some := by
  rw [image]
  apply List.take_left'
  exact List.length_map _

/-- The bytes go behind those that are there. -/
theorem store_image (h : text.length + bytes.length ≤ size) :
    store (image text size) text.length bytes = .ok (image (text ++ bytes) size) := by
  have hle : text.length ≤ size := by omega
  have hdrop : (image text size).drop (text.length + bytes.length) =
      fresh (size - (text ++ bytes).length) := by
    have hlength : (text.map some : List Cell).length = text.length := List.length_map _
    rw [image, ← List.drop_drop, ← hlength, List.drop_left, hlength, fresh, List.drop_replicate,
      fresh, List.length_append, Nat.sub_sub]
  rw [store, image_length hle, if_pos h, image_take, hdrop, image, List.map_append]

/-- What is read into the buffer that the loop begins with. -/
def landed : ℕ → ℕ → List (List UInt8) → List UInt8
  | _, _, [] => []
  | p, size, bytes :: reads =>
    bytes ++ if size - (p + bytes.length) < 2048 then []
      else landed (p + bytes.length) size reads

/-- What the loop gives: all bytes in the last buffer, and the first ones in the buffer that it
began with. -/
theorem readLoop_spec (hle : text.length ≤ size) (h : Served text.length size reads) :
    Returns env (readLoop env reads size ⟨kept, image text size, text.length⟩) fun data =>
      ∃ size', (text ++ reads.flatten).length ≤ size' ∧ size ≤ size' ∧
        data.start = image (text ++ reads.flatten) size' ∧
        data.p = (text ++ reads.flatten).length ∧
        data.kept.getD data.start =
          kept.getD (image (text ++ landed text.length size reads) size) := by
  induction reads generalizing text size kept with
  | nil => exact .ok rfl ⟨size, by simpa using hle, le_refl _, by simp, by simp, by simp [landed]⟩
  | cons bytes reads ih =>
    obtain ⟨hne, hlength, hserved⟩ := h
    have hfit : text.length + bytes.length ≤ size := by omega
    have hlengths : (text ++ bytes).length = text.length + bytes.length := List.length_append
    rw [readLoop, store_image hfit, ok_bind]
    by_cases hfree : size - (text.length + bytes.length) < 2048
    · by_cases hmem : env.mpAlloc (size * 2) = true
      · have hsafe : ¬((image (text ++ bytes) size).length < text.length + bytes.length ∨
            size * 2 < text.length + bytes.length) := by
          rw [image_length (by rw [hlengths]; exact hfit)]
          omega
        have hmoved : (image (text ++ bytes) size).take (text.length + bytes.length) ++
            fresh (size * 2 - (text.length + bytes.length)) =
              image (text ++ bytes) (size * 2) := by
          rw [← hlengths, image_take, image]
        simp only [hfree, if_true, hmem, hsafe, if_false, hmoved]
        rw [if_pos hfree, ← hlengths] at hserved
        rw [← hlengths]
        refine (ih (by omega) hserved).mono fun data hdata => ?_
        obtain ⟨size', hsize, hgrown, hstart, hp, hkept⟩ := hdata
        refine ⟨size', by simpa using hsize, by omega, by simpa using hstart, by simpa using hp, ?_⟩
        rw [hkept, landed, if_pos hfree, List.append_nil]
        cases kept <;> rfl
      · simp only [hfree, if_true, hmem, if_false, Bool.false_eq_true]
        exact .inr ⟨rfl, _, by simpa using hmem⟩
    · simp only [hfree, if_false]
      rw [if_neg hfree, ← hlengths] at hserved
      rw [← hlengths]
      refine (ih (by omega) hserved).mono fun data hdata => ?_
      obtain ⟨size', hsize, hgrown, hstart, hp, hkept⟩ := hdata
      refine ⟨size', by simpa using hsize, hgrown, by simpa using hstart, by simpa using hp, ?_⟩
      rw [hkept, landed, if_neg hfree, hlengths, List.append_assoc]

/-- All bytes are in the buffer that the loop began with exactly if 2048 bytes of it are free behind
every call of `read` but the last one. -/
theorem landed_eq_flatten_iff (h : Served p size reads) : landed p size reads = reads.flatten ↔
    ∀ k < reads.length, 0 < k → 2048 ≤ size - (p + (reads.take k).flatten.length) := by
  induction reads generalizing p with
  | nil => simp [landed]
  | cons bytes reads ih =>
    obtain ⟨hne, hlength, hserved⟩ := h
    rw [landed, List.flatten_cons, List.append_cancel_left_eq]
    by_cases hfree : size - (p + bytes.length) < 2048
    · rw [if_pos hfree]
      cases reads with
      | nil =>
        simp only [List.flatten_nil, true_iff, List.length_singleton]
        intro k hk hpos
        omega
      | cons bytes' reads =>
        have hne' : bytes' ≠ [] := hserved.1
        constructor
        · intro heq
          rw [List.flatten_cons, eq_comm, List.append_eq_nil_iff] at heq
          exact absurd heq.1 hne'
        · intro hall
          have hone := hall 1 (by simp) (by decide)
          simp only [List.take_succ_cons, List.take_zero, List.flatten_cons, List.flatten_nil,
            List.append_nil] at hone
          omega
    · rw [if_neg hfree] at hserved ⊢
      rw [ih hserved]
      constructor
      · intro hall k hk hpos
        cases k with
        | zero => omega
        | succ k =>
          rw [List.take_succ_cons, List.flatten_cons, List.length_append, ← Nat.add_assoc]
          rw [List.length_cons] at hk
          rcases Nat.eq_zero_or_pos k with rfl | hk'
          · simp
            omega
          · exact hall k (by omega) hk'
      · intro hall k hk hpos
        have hsucc := hall (k + 1) (by simpa using hk) (by omega)
        rwa [List.take_succ_cons, List.flatten_cons, List.length_append, ← Nat.add_assoc] at hsucc

theorem image_eq_iff {text' : List UInt8} :
    image text size = text'.map some ↔ text = text' ∧ size ≤ text.length := by
  constructor
  · intro h
    have hempty : size - text.length = 0 := by
      by_contra hne
      have hmem : none ∈ text'.map some := by
        rw [← h, image, fresh]
        simp [hne]
      simp at hmem
    rw [image, hempty] at h
    simp only [fresh, List.replicate_zero, List.append_nil] at h
    exact ⟨List.map_injective_iff.mpr (Option.some_injective UInt8) h, by omega⟩
  · rintro ⟨rfl, hle⟩
    simp [image, fresh, Nat.sub_eq_zero_of_le hle]

theorem utf8Length_text (env : Env) (text : List UInt8) :
    utf8Length env (text.map some) = Utf8.length text := by
  have hbytes : ((text.map some).zipIdx.map fun cell => cell.1.getD (env.garbage cell.2)) =
      text := by
    apply List.ext_getElem
    · simp
    · intro i hi hi'
      simp
  rw [utf8Length, hbytes]

/-- A text has no more characters than bytes. -/
theorem length_le {n : ℕ} (h : Utf8.length text = some (n : ℤ)) : n ≤ text.length := by
  obtain ⟨us, rfl, rfl⟩ := Utf8.length_eq_iff.mp h
  exact (Utf8.encodeAll_length us).1

/-! ## The string -/

/-- The function throws, or it returns a value with the property. -/
def Completes {α : Type} (x : Result α) (P : α → Prop) : Prop :=
  (∃ e, x = .error (.throw e)) ∨ ∃ a, x = .ok a ∧ P a

theorem Completes.bind {α β : Type} {x : Result α} {f : α → Result β} {P : α → Prop}
    {Q : β → Prop} (h : Completes x P) (hf : ∀ a, P a → Completes (f a) Q) :
    Completes (x >>= f) Q := by
  rcases h with ⟨e, rfl⟩ | ⟨a, rfl, ha⟩
  · exact .inl ⟨e, rfl⟩
  · exact hf a ha

theorem Completes.of_returns {α : Type} {x : Result α} {P : α → Prop} (h : Returns env x P) :
    Completes x P := by
  rcases h with ⟨a, rfl, ha⟩ | ⟨rfl, -⟩
  · exact .inr ⟨a, rfl, ha⟩
  · exact .inl ⟨_, rfl⟩

theorem stringAlloc_spec (env : Env) (size length : ℕ) :
    Completes (stringAlloc env size length) fun value => size ≤ maxLength ∧ value =
      ⟨size, if size ≤ shortMax then length % 16 else length, fresh size,
        if size ≤ shortMax then shortMax else allocTotal size length⟩ := by
  unfold stringAlloc
  by_cases hmax : size > maxLength
  · rw [if_pos hmax]
    exact .inl ⟨_, rfl⟩
  rw [if_neg hmax]
  by_cases hshort : size ≤ shortMax
  · rw [if_pos hshort]
    exact .inr ⟨_, rfl, by omega, by simp [hshort]⟩
  · rw [if_neg hshort]
    by_cases hmem : env.mpAlloc (sizeofString + allocTotal size length) = true
    · rw [if_pos hmem]
      exact .inr ⟨_, rfl, by omega, by simp [hshort]⟩
    · rw [if_neg hmem]
      exact .inl ⟨_, rfl⟩

/-- What the loop gives for memory that nothing has written to. -/
theorem readLoop_fresh (h : Served 0 size reads) :
    Completes (readLoop env reads size ⟨none, fresh size, 0⟩) fun data => ∃ size',
      reads.flatten.length ≤ size' ∧ size ≤ size' ∧ data.start = image reads.flatten size' ∧
        data.p = reads.flatten.length ∧
        data.kept.getD data.start = image (landed 0 size reads) size := by
  have hloop := @readLoop_spec env reads [] size none (Nat.zero_le size) h
  exact .of_returns hloop

theorem mapArea_le {n : ℕ} (hn : n ≤ size) :
    allocTotal size n ≤ allocTotal size (if size > mapStride then size + 1 else size) := by
  have hoffset := le_mapOffset size
  unfold allocTotal mapSize mapStride
  split_ifs <;> omega

theorem mapArea_eq {n : ℕ} : allocTotal size n ≤ allocTotal size 0 ↔ n ≤ mapStride ∨ n = size := by
  have hoffset := le_mapOffset size
  unfold allocTotal mapSize mapStride
  split_ifs <;> omega

/-- The string of a file with a size. -/
theorem good_sized_iff {n storage : ℕ} (hsize : fileSize ≠ 0)
    (h : Served 0 fileSize reads) (hvalue : value = ⟨fileSize, n, image (landed 0 fileSize reads)
      fileSize, storage⟩)
    (hlength : reads.flatten.length = fileSize → landed 0 fileSize reads = reads.flatten →
      if utf8 then Utf8.length reads.flatten = some (n : ℤ) else n = 0)
    (hstorage : utf8 → shortMax < fileSize → storage =
      allocTotal fileSize (if fileSize > mapStride then fileSize + 1 else fileSize)) :
    Good utf8 reads.flatten value ↔ Kept utf8 fileSize reads := by
  rw [Kept, if_neg hsize]
  have hlanded := landed_eq_flatten_iff h
  simp only [Nat.zero_add] at hlanded
  rw [← hlanded]
  constructor
  · intro hgood
    have hlen := hgood.size
    have hbytes := hgood.bytes
    rw [hvalue] at hlen hbytes
    exact ⟨hlen.symm, (image_eq_iff.mp hbytes).1⟩
  · rintro ⟨hlen, heq⟩
    have hfield := hlength hlen heq
    rw [hvalue]
    constructor
    · exact hlen.symm
    · exact image_eq_iff.mpr ⟨heq, by rw [heq, hlen]⟩
    · exact hfield
    · intro hutf8 hlong
      rw [if_pos hutf8] at hfield
      have hn : n ≤ fileSize := hlen ▸ length_le hfield
      dsimp only at hlong ⊢
      rw [hstorage hutf8 hlong]
      exact mapArea_le hn

/-- The string of a file without a size. -/
theorem good_unsized_iff {n storage : ℕ} (hvalue : value = ⟨reads.flatten.length % 2 ^ 32, n,
      (reads.flatten.map some).take (reads.flatten.length % 2 ^ 32), storage⟩)
    (hlength : reads.flatten.length < 2 ^ 32 →
      if utf8 then Utf8.length reads.flatten = some (n : ℤ) else n = 0)
    (hstorage : shortMax < reads.flatten.length % 2 ^ 32 → storage =
      allocTotal (reads.flatten.length % 2 ^ 32) 0) :
    Good utf8 reads.flatten value ↔ Kept utf8 0 reads := by
  rw [Kept, if_pos rfl]
  constructor
  · intro hgood
    have hlen := hgood.size
    rw [hvalue] at hlen
    dsimp only at hlen
    have hsmall : reads.flatten.length < 2 ^ 32 := by omega
    refine ⟨hsmall, fun hutf8 n' hn' => ?_⟩
    have hfield := hlength hsmall
    rw [if_pos hutf8] at hfield
    have heq : n' = n := by
      rw [hn'] at hfield
      exact_mod_cast Option.some.inj hfield
    subst heq
    have hn := length_le hn'
    by_cases hlong : shortMax < reads.flatten.length
    · have hlong' : shortMax < reads.flatten.length % 2 ^ 32 := by rwa [hlen]
      have harea := hgood.storage hutf8 (by rwa [hvalue])
      rw [hvalue] at harea
      dsimp only at harea
      rw [hstorage hlong', hlen, mapArea_eq] at harea
      exact harea
    · unfold shortMax at hlong
      unfold mapStride
      omega
  · rintro ⟨hsmall, hmap⟩
    have hlen : reads.flatten.length % 2 ^ 32 = reads.flatten.length := Nat.mod_eq_of_lt hsmall
    have hfield := hlength hsmall
    rw [hlen] at hvalue hstorage
    rw [hvalue]
    constructor
    · rfl
    · exact List.take_of_length_le (List.length_map _).le
    · exact hfield
    · intro hutf8 hlong
      rw [if_pos hutf8] at hfield
      dsimp only at hlong ⊢
      rw [hstorage hlong, mapArea_eq]
      exact hmap hutf8 n hfield

/-- The length of the string is the one of the text, where the bytes are those of the text. -/
theorem setTextLength_spec {P : FileString → Prop} {start : List Cell}
    (hbytes : utf8 = false → P value)
    (htext : utf8 = true → ∀ n : ℕ, utf8Length env (start.take size) = some (n : ℤ) →
      P (value.setLength n)) :
    Completes (setTextLength env utf8 value start size) fun value? =>
      ∀ value ∈ value?, P value := by
  unfold setTextLength
  cases utf8 with
  | false =>
    refine .inr ⟨_, rfl, fun value' hvalue' => ?_⟩
    cases hvalue'
    exact hbytes rfl
  | true =>
    obtain ⟨n, hn, -⟩ := Utf8.length_isSome
      ((start.take size).zipIdx.map fun cell => cell.1.getD (env.garbage cell.2))
    have hlength : utf8Length env (start.take size) = some n := hn
    simp only [if_true, hlength]
    by_cases hneg : n ≥ 0
    · rw [if_pos hneg]
      refine .inr ⟨_, rfl, fun value' hvalue' => ?_⟩
      cases hvalue'
      apply htext rfl
      rw [hlength, Int.toNat_of_nonneg hneg]
    · rw [if_neg hneg]
      exact .inr ⟨none, rfl, fun value' hvalue' => by cases hvalue'⟩

theorem stringNew_spec {start : List Cell} (hsize : size ≤ start.length) (length : ℕ) :
    Completes (stringNew env start size length) fun value => value =
      ⟨size % 2 ^ 32, if size % 2 ^ 32 ≤ shortMax then length % 16 else length,
        start.take (size % 2 ^ 32),
        if size % 2 ^ 32 ≤ shortMax then shortMax else allocTotal (size % 2 ^ 32) length⟩ := by
  unfold stringNew
  refine (stringAlloc_spec env (size % 2 ^ 32) length).bind fun value hvalue => ?_
  have hle : ¬start.length < size % 2 ^ 32 := by
    have hmod := Nat.mod_le size (2 ^ 32)
    omega
  rw [if_neg hle]
  refine .inr ⟨_, rfl, ?_⟩
  rw [hvalue.2]

/-- A file with a size. -/
theorem readFile_sized (hsize : fileSize ≠ 0) (h : Served 0 fileSize reads) :
    Completes (readFile env utf8 fileSize reads) fun value? =>
      ∀ value ∈ value?, Good utf8 reads.flatten value ↔ Kept utf8 fileSize reads := by
  rw [readFile, if_pos hsize]
  refine (stringAlloc_spec env fileSize _).bind fun value hvalue => ?_
  obtain ⟨hmax, rfl⟩ := hvalue
  have hread : fdRead env (some (fresh fileSize)) reads =
      readLoop env reads fileSize ⟨none, fresh fileSize, 0⟩ := by simp [fdRead, fresh]
  simp only [hread]
  refine (readLoop_fresh h).bind fun data hdata => ?_
  obtain ⟨size', htext, hgrown, hstart, -, hkept⟩ := hdata
  have hbytes (hlen : reads.flatten.length = fileSize) :
      data.start.take fileSize = reads.flatten.map some := by
    rw [hstart, ← hlen, image_take]
  apply setTextLength_spec
  · intro hutf8
    apply good_sized_iff hsize h (by rw [hkept])
    · intro _ _
      simp [hutf8]
    · intro hutf8'
      rw [hutf8] at hutf8'
      cases hutf8'
  · intro hutf8 n hn
    apply good_sized_iff hsize h (by rw [FileString.setLength, hkept])
    · intro hlen _
      rw [hbytes hlen, utf8Length_text] at hn
      have hle := length_le hn
      have hfield : (if fileSize ≤ shortMax then n % 16 else n % 2 ^ 32) = n := by
        unfold shortMax
        unfold maxLength at hmax
        split_ifs <;> omega
      rw [if_pos hutf8]
      dsimp only
      rw [hfield]
      exact hn
    · intro _ hlong
      dsimp only
      rw [if_neg (Nat.not_le_of_lt hlong), if_pos hutf8]

/-- A file without a size. -/
theorem readFile_unsized (h : Served 0 4096 reads) :
    Completes (readFile env utf8 0 reads) fun value? =>
      ∀ value ∈ value?, Good utf8 reads.flatten value ↔ Kept utf8 0 reads := by
  have hzero : (if utf8 then if 0 > mapStride then 0 + 1 else 0 else 0) = 0 := by
    cases utf8 <;> rfl
  rw [readFile, if_neg (by simp), hzero]
  by_cases hmem : env.mpAlloc 4096 = true
  · have hread : fdRead env none reads = readLoop env reads 4096 ⟨none, fresh 4096, 0⟩ := by
      simp [fdRead, hmem]
    rw [hread]
    refine (readLoop_fresh h).bind fun data hdata => ?_
    obtain ⟨size', htext, -, hstart, hp, -⟩ := hdata
    have hsize : data.p ≤ data.start.length := by
      rw [hstart, hp, image_length htext]
      exact htext
    refine (stringNew_spec hsize 0).bind fun value hvalue => ?_
    have hbytes : data.start.take data.p = reads.flatten.map some := by rw [hstart, hp, image_take]
    have hmod : data.p % 2 ^ 32 ≤ data.p := Nat.mod_le _ _
    have htake : data.start.take (data.p % 2 ^ 32) =
        (reads.flatten.map some).take (data.p % 2 ^ 32) := by
      rw [← hbytes, List.take_take, Nat.min_eq_left hmod]
    rw [htake, hp] at hvalue
    apply setTextLength_spec
    · intro hutf8
      apply good_unsized_iff hvalue
      · intro _
        simp [hutf8]
      · exact fun hlong => if_neg (Nat.not_le_of_lt hlong)
    · intro hutf8 n hn
      rw [hbytes, utf8Length_text] at hn
      have hle := length_le hn
      apply good_unsized_iff (by rw [FileString.setLength, hvalue])
      · intro hsmall
        have hfield : (if reads.flatten.length % 2 ^ 32 ≤ shortMax then n % 16 else n % 2 ^ 32) =
            n := by
          unfold shortMax
          split_ifs <;> omega
        rw [if_pos hutf8]
        dsimp only
        rw [hfield]
        exact hn
      · exact fun hlong => if_neg (Nat.not_le_of_lt hlong)
  · have hread : fdRead env none reads = .error (.throw .memoryError) := by simp [fdRead, hmem]
    rw [hread]
    exact .inl ⟨_, rfl⟩

/-- **Reading a file.** No call writes outside a buffer or reads behind one, and a string that is
returned is the text that was read, if and only if that text has stayed in the memory of the
string. -/
theorem readFile_good_iff (h : Served 0 (firstSize fileSize) reads) :
    readFile env utf8 fileSize reads ≠ .error .fault ∧
      ∀ value, readFile env utf8 fileSize reads = .ok (some value) →
        (Good utf8 reads.flatten value ↔ Kept utf8 fileSize reads) := by
  have hcompletes : Completes (readFile env utf8 fileSize reads) fun value? =>
      ∀ value ∈ value?, Good utf8 reads.flatten value ↔ Kept utf8 fileSize reads := by
    by_cases hsize : fileSize = 0
    · subst hsize
      exact readFile_unsized h
    · rw [firstSize, if_neg hsize] at h
      exact readFile_sized hsize h
  rcases hcompletes with ⟨e, he⟩ | ⟨value?, hvalue?, hgood⟩
  · rw [he]
    exact ⟨by simp, fun value hvalue => by cases hvalue⟩
  · rw [hvalue?]
    refine ⟨by simp, fun value hvalue => hgood value ?_⟩
    cases hvalue
    rfl

/-- A file of two bytes that is read at once, without an encoding. -/
theorem readFile_good_iff_two : Good false [97, 98] ⟨2, 0, [some 97, some 98], 14⟩ ↔
    Kept false 2 [[97, 98]] := by
  have hserved : Served 0 (firstSize 2) [[97, 98]] := by simp [Served, firstSize]
  exact (@readFile_good_iff ⟨fun _ => true, fun _ => 0⟩ false [[97, 98]] 2 hserved).2 _ (by rfl)

/-- The bytes of a file of two bytes are read one after the other: the second one is not in the
string. -/
theorem not_readFile_good : Served 0 (firstSize 2) [[97], [98]] ∧
    readFile ⟨fun _ => true, fun _ => 0⟩ false 2 [[97], [98]] =
      .ok (some ⟨2, 0, [some 97, none], 14⟩) ∧
    ¬Good false [97, 98] ⟨2, 0, [some 97, none], 14⟩ := by
  refine ⟨by simp [Served, firstSize], by rfl, ?_⟩
  intro h
  have hbytes := h.bytes
  simp at hbytes

end Njs.Fs
