import FluxCache.Foundation.FileReader
import FluxCache.Resp.RoundTrip

/-!
# Commands that arrive in pieces

A command is an array of bulk values, and a source delivers its wire format in chunks. The type
bytes, the lengths and the ends of lines are read byte by byte and do not depend on the chunks. The
content of a bulk value does: the one read that asks for it gives what is in the buffer or in one
read of the source, the missing bytes become zeros, and the bytes that come later are skipped.

`BodiesArrive` follows the buffered reader through a command and says that what one read makes of
every content is that content. This is exactly when the command is read. `readElements_iff` is the
loop over the elements, and a content that arrives in two chunks is lost. Contents that arrive from
a file arrive as well when the file goes on (`BodiesArrive.ahead`).
-/

set_option autoImplicit false
set_option relaxedAutoImplicit false

namespace FluxCache.Resp

open Foundation

/-- The array of bulk values of a command. -/
def command (bulks : List GoString) : Value := .ofArray (bulks.map .ofBulk)

/-- The bytes of a bulk value up to its content. -/
def bulkHead (bulk : GoString) : GoString := marshalLine bulkByte (itoa bulk.length)

/-- The bytes of a command up to its elements. -/
def arrayHead (bulks : List GoString) : GoString := marshalLine arrayByte (itoa bulks.length)

/-- The reader at the content of the bulk value that comes next. -/
def atBody (bulk : GoString) (r : Reader UInt8) : Reader UInt8 :=
  r.consume (marshalLine bulkByte (itoa bulk.length)).length

/-- The reader behind a content of which one read has given a part. -/
def afterBody (len : ℕ) (r : Reader UInt8) : Reader UInt8 :=
  (r.read len).2.consume (List.replicate (len - (r.read len).1.length) 0 ++ crlf).length

/-- What one read makes of every content is that content. -/
def BodiesArrive : List GoString → Reader UInt8 → Prop
  | [], _ => True
  | bulk :: bulks, r =>
    arrived bulk.length (atBody bulk r) = bulk ∧
      BodiesArrive bulks (afterBody bulk.length (atBody bulk r))

/-- The reader behind contents that arrive. -/
def afterBodies : List GoString → Reader UInt8 → Reader UInt8
  | [], r => r
  | bulk :: bulks, r => afterBodies bulks (afterBody bulk.length (atBody bulk r))

instance decidableBodiesArrive : (bulks : List GoString) → (r : Reader UInt8) →
    Decidable (BodiesArrive bulks r)
  | [], _ => isTrue trivial
  | _ :: bulks, _ => @instDecidableAnd _ _ _ (decidableBodiesArrive bulks _)

/-! ### One bulk value -/

section Element

variable {depth : ℕ} {bulk rest : GoString} {r : Reader UInt8}

theorem unread_bulkHead (hunread : r.unread = marshalBulk bulk ++ rest) :
    r.unread = bulkHead bulk ++ (bulk ++ crlf ++ rest) :=
  hunread.trans (List.append_assoc (bulkHead bulk) (bulk ++ crlf) rest)

theorem unread_atBody (hunread : r.unread = marshalBulk bulk ++ rest) :
    (atBody bulk r).unread = bulk ++ crlf ++ rest := by
  rw [atBody, ← bulkHead, Reader.unread_consume, unread_bulkHead hunread, List.drop_left]

/-- A bulk value is read as what one read makes of its content, also where the content is not all
there. -/
theorem readWithin_bulk (hbulk : IsInt64 bulk.length)
    (hunread : r.unread = bulkHead bulk ++ rest) :
    readWithin unlimited (depth + 1) r = (do
      let (_, after) ← readLine ((atBody bulk r).read bulk.length).2
      return ⟨.ofBulk (arrived bulk.length (atBody bulk r)), none, after⟩) := by
  have hadvance : r.advance.unread = itoa bulk.length ++ crlf ++ rest := by
    rw [Reader.unread_advance, hunread]
    rfl
  have htyped : readWithin unlimited (depth + 1) r = readBulk unlimited r.advance :=
    readWithin_succ hunread
  exact htyped.trans (readBulk_eq hbulk hadvance)

/-- What is left of a content that arrives is zeros and the end of the line. -/
theorem unread_read_of_arrived (hunread : r.unread = bulk ++ crlf ++ rest)
    (harrived : arrived bulk.length r = bulk) :
    (r.read bulk.length).2.unread =
      List.replicate (bulk.length - (r.read bulk.length).1.length) 0 ++ crlf ++ rest := by
  have hsplit : (r.read bulk.length).1 ++ (r.read bulk.length).2.unread =
      arrived bulk.length r ++ crlf ++ rest := by
    rw [Reader.read_append_unread, harrived, hunread]
  rw [arrived, List.append_assoc, List.append_assoc] at hsplit
  rw [List.append_assoc]
  exact List.append_cancel_left hsplit

theorem cr_not_mem_zeros (n : ℕ) : cr ∉ List.replicate n 0 := by
  intro hmem
  exact absurd (List.eq_of_mem_replicate hmem) (by decide)

theorem readWithin_bulk_of_arrived (hbulk : IsInt64 bulk.length)
    (hunread : r.unread = marshalBulk bulk ++ rest)
    (harrived : arrived bulk.length (atBody bulk r) = bulk) :
    readWithin unlimited (depth + 1) r =
      .ok ⟨.ofBulk bulk, none, afterBody bulk.length (atBody bulk r)⟩ := by
  have hleft := unread_read_of_arrived (unread_atBody hunread) harrived
  rw [readWithin_bulk hbulk (unread_bulkHead hunread), readLine_eq (cr_not_mem_zeros _) hleft,
    harrived]
  rfl

theorem unread_afterBody (hunread : r.unread = bulk ++ crlf ++ rest)
    (harrived : arrived bulk.length r = bulk) : (afterBody bulk.length r).unread = rest := by
  rw [afterBody, Reader.unread_consume, unread_read_of_arrived hunread harrived, List.drop_left]

/-- Chunks that come after a bulk value are left in the source. -/
theorem suffix_afterBody {later : List GoString} (hunread : r.unread = marshalBulk bulk ++ rest)
    (harrived : arrived bulk.length (atBody bulk r) = bulk) (hlater : later <:+ r.source.chunks)
    (hrest : later.flatten.length ≤ rest.length) :
    later <:+ (afterBody bulk.length (atBody bulk r)).source.chunks := by
  have hbody := unread_atBody hunread
  have hatBody : later <:+ (atBody bulk r).source.chunks := by
    refine Reader.suffix_consume hlater ?_
    rw [hunread, marshalBulk, List.length_append, List.length_append]
    omega
  have hread : later <:+ ((atBody bulk r).read bulk.length).2.source.chunks := by
    refine Reader.suffix_read hatBody ?_
    rw [hbody, List.length_append, List.length_append]
    exact hrest.trans_lt (Nat.lt_add_of_pos_left (Nat.lt_add_left _ (by decide)))
  refine Reader.suffix_consume hread ?_
  rw [unread_read_of_arrived hbody harrived]
  simp only [List.length_append]
  omega

end Element

/-! ### The elements of a command -/

theorem marshalElements_bulks (bulks : List GoString) :
    marshalElements (bulks.map .ofBulk) = bulks.flatMap marshalBulk := by
  induction bulks with
  | nil => rfl
  | cons bulk bulks ih =>
    rw [List.map_cons, marshalElements, marshal_ofBulk, ih, List.flatMap_cons]

/-- The loop over the elements only adds to the elements read so far. -/
theorem readElements_extends {readElement : Reader UInt8 → Outcome ReadResult} {n : ℕ}
    {before : List Value} {r : Reader UInt8} {result : ReadResult}
    (hread : readElements readElement n before r = .ok result) :
    ∃ more, result.value = .ofArray (before ++ more) := by
  induction n generalizing before r with
  | zero =>
    obtain rfl := Except.ok.inj hread
    exact ⟨[], by rw [List.append_nil]⟩
  | succ n ih =>
    rw [readElements] at hread
    obtain ⟨element, _, hrest⟩ := bind_eq_ok_iff.mp hread
    cases herr : element.err with
    | some err =>
      simp only [herr] at hrest
      obtain rfl := Except.ok.inj hrest
      exact ⟨[], by rw [List.append_nil]⟩
    | none =>
      simp only [herr] at hrest
      obtain ⟨more, hmore⟩ := ih hrest
      exact ⟨element.value :: more, by rw [hmore, List.append_assoc]; rfl⟩

theorem ofArray_injective : Function.Injective Value.ofArray :=
  fun _ _ h ↦ congrArg Value.array h

theorem ofBulk_injective : Function.Injective Value.ofBulk :=
  fun _ _ h ↦ congrArg Value.bulk h

/-- If the loop reads the elements of a command, the first of them has arrived. -/
theorem arrived_of_readElements {depth : ℕ} {bulk rest : GoString} {bulks : List GoString}
    {before : List Value} {r after : Reader UInt8} (hbulk : IsInt64 bulk.length)
    (hunread : r.unread = marshalBulk bulk ++ rest)
    (hread : readElements (readWithin unlimited (depth + 1)) (bulks.length + 1) before r =
      .ok ⟨.ofArray (before ++ .ofBulk bulk :: bulks.map .ofBulk), none, after⟩) :
    arrived bulk.length (atBody bulk r) = bulk := by
  rw [readElements, readWithin_bulk hbulk (unread_bulkHead hunread)] at hread
  obtain ⟨element, helement, hrest⟩ := bind_eq_ok_iff.mp hread
  obtain ⟨⟨_, behind⟩, _, hreturn⟩ := bind_eq_ok_iff.mp helement
  obtain rfl := Except.ok.inj hreturn
  obtain ⟨more, hmore⟩ := readElements_extends hrest
  have happend := ofArray_injective hmore
  rw [List.append_assoc] at happend
  have hcons := List.append_cancel_left happend
  exact (ofBulk_injective (List.cons.inj hcons).1).symm

section Elements

variable {depth : ℕ} {bulk : GoString} {bulks : List GoString} {before : List Value}
  {rest : GoString} {r : Reader UInt8}

theorem unread_first (hunread : r.unread = marshalElements ((bulk :: bulks).map .ofBulk) ++ rest) :
    r.unread = marshalBulk bulk ++ (marshalElements (bulks.map .ofBulk) ++ rest) := by
  rw [hunread, List.map_cons, marshalElements, marshal_ofBulk, List.append_assoc]

/-- A turn of the loop on an element that arrives. -/
theorem readElements_succ (hbulk : IsInt64 bulk.length)
    (hunread : r.unread = marshalBulk bulk ++ rest)
    (harrived : arrived bulk.length (atBody bulk r) = bulk) (n : ℕ) :
    readElements (readWithin unlimited (depth + 1)) (n + 1) before r =
      readElements (readWithin unlimited (depth + 1)) n (before ++ [.ofBulk bulk])
        (afterBody bulk.length (atBody bulk r)) := by
  rw [readElements, readWithin_bulk_of_arrived hbulk hunread harrived]
  rfl

/-- The loop reads elements that arrive. -/
theorem readElements_of_arrive (hbulks : ∀ bulk ∈ bulks, IsInt64 bulk.length)
    (hunread : r.unread = marshalElements (bulks.map .ofBulk) ++ rest)
    (harrive : BodiesArrive bulks r) :
    readElements (readWithin unlimited (depth + 1)) bulks.length before r =
      .ok ⟨.ofArray (before ++ bulks.map .ofBulk), none, afterBodies bulks r⟩ := by
  induction bulks generalizing before r with
  | nil =>
    rw [List.map_nil, List.append_nil]
    rfl
  | cons bulk bulks ih =>
    have hfirst := unread_first hunread
    have htail := @ih (before ++ [.ofBulk bulk]) _
      (fun b hb ↦ hbulks b (List.mem_cons_of_mem bulk hb))
      (unread_afterBody (unread_atBody hfirst) harrive.1) harrive.2
    rw [List.append_assoc] at htail
    exact (readElements_succ (hbulks bulk List.mem_cons_self) hfirst harrive.1 _).trans htail

/-- The loop reads the elements of a command exactly if all of them arrive. -/
theorem readElements_iff (hbulks : ∀ bulk ∈ bulks, IsInt64 bulk.length)
    (hunread : r.unread = marshalElements (bulks.map .ofBulk) ++ rest) :
    (∃ after, readElements (readWithin unlimited (depth + 1)) bulks.length before r =
      .ok ⟨.ofArray (before ++ bulks.map .ofBulk), none, after⟩) ↔ BodiesArrive bulks r := by
  refine ⟨?_, fun harrive ↦ ⟨_, readElements_of_arrive hbulks hunread harrive⟩⟩
  induction bulks generalizing before r with
  | nil => exact fun _ ↦ trivial
  | cons bulk bulks ih =>
    rintro ⟨after, hread⟩
    have hbulk := hbulks bulk List.mem_cons_self
    have hfirst := unread_first hunread
    have harrived := arrived_of_readElements hbulk hfirst hread
    refine ⟨harrived, @ih (before ++ [.ofBulk bulk]) _
      (fun b hb ↦ hbulks b (List.mem_cons_of_mem bulk hb))
      (unread_afterBody (unread_atBody hfirst) harrived) ⟨after, ?_⟩⟩
    rw [← readElements_succ hbulk hfirst harrived, List.append_assoc]
    exact hread

theorem unread_afterBodies (hunread : r.unread = marshalElements (bulks.map .ofBulk) ++ rest)
    (harrive : BodiesArrive bulks r) : (afterBodies bulks r).unread = rest := by
  induction bulks generalizing r with
  | nil => exact hunread
  | cons bulk bulks ih =>
    exact ih (unread_afterBody (unread_atBody (unread_first hunread)) harrive.1) harrive.2

theorem suffix_afterBodies {later : List GoString}
    (hunread : r.unread = marshalElements (bulks.map .ofBulk) ++ rest)
    (harrive : BodiesArrive bulks r) (hlater : later <:+ r.source.chunks)
    (hrest : later.flatten.length ≤ rest.length) :
    later <:+ (afterBodies bulks r).source.chunks := by
  induction bulks generalizing r with
  | nil => exact hlater
  | cons bulk bulks ih =>
    have hfirst := unread_first hunread
    refine ih (unread_afterBody (unread_atBody hfirst) harrive.1) harrive.2 ?_
    refine suffix_afterBody hfirst harrive.1 hlater ?_
    rw [List.length_append]
    exact hrest.trans (Nat.le_add_left _ _)

end Elements

/-! ### Input that goes on -/

section Ahead

variable {bulk tail more : GoString} {bulks : List GoString} {r s : Reader UInt8}

theorem afterBody_ahead (hunread : r.unread = bulk ++ crlf ++ tail)
    (harrived : arrived bulk.length r = bulk) (h : r.Ahead more s) :
    arrived bulk.length s = bulk ∧
      (afterBody bulk.length r).Ahead more (afterBody bulk.length s) := by
  have hlength : bulk.length ≤ r.unread.length := by
    rw [hunread, List.append_assoc, List.length_append]
    exact Nat.le_add_right _ _
  obtain ⟨hgot, hafter⟩ := h.read hlength
  refine ⟨?_, ?_⟩
  · rw [arrived, hgot]
    exact harrived
  · rw [afterBody, afterBody, hgot]
    refine hafter.consume ?_
    rw [unread_read_of_arrived hunread harrived]
    exact (List.prefix_append _ tail).length_le

/-- Contents that arrive from a file arrive as well when the file goes on. -/
theorem BodiesArrive.ahead (harrive : BodiesArrive bulks r)
    (hunread : r.unread = marshalElements (bulks.map .ofBulk) ++ tail) (h : r.Ahead more s) :
    BodiesArrive bulks s ∧ (afterBodies bulks r).Ahead more (afterBodies bulks s) := by
  induction bulks generalizing r s with
  | nil => exact ⟨trivial, h⟩
  | cons bulk bulks ih =>
    have hfirst := unread_first hunread
    have hbody := unread_atBody hfirst
    have hat : (atBody bulk r).Ahead more (atBody bulk s) := by
      refine h.consume ?_
      rw [hfirst, marshalBulk, List.append_assoc, List.length_append]
      exact Nat.le_add_right _ _
    obtain ⟨hthis, hafter⟩ := afterBody_ahead hbody harrive.1 hat
    obtain ⟨hothers, hend⟩ := ih harrive.2 (unread_afterBody hbody harrive.1) hafter
    exact ⟨⟨hthis, hothers⟩, hend⟩

end Ahead

/-! ### Commands -/

/-- The reader at the first element of the command that comes next. -/
def atArray (bulks : List GoString) (r : Reader UInt8) : Reader UInt8 :=
  r.consume (marshalLine arrayByte (itoa bulks.length)).length

/-- The reader at the first element of the first command. -/
def atElements (bulks : List GoString) (source : Source UInt8) : Reader UInt8 :=
  atArray bulks (newResp source)

theorem marshal_command (bulks : List GoString) :
    (command bulks).marshal =
      arrayByte :: (itoa bulks.length ++ crlf ++ marshalElements (bulks.map .ofBulk)) := by
  rw [command, marshal_ofArray, List.length_map]
  rfl

theorem wellFormed_command {bulks : List GoString} (hcount : IsInt64 bulks.length)
    (hbulks : ∀ bulk ∈ bulks, IsInt64 bulk.length) : WellFormed (command bulks) := by
  refine .array ?_ fun v hv ↦ ?_
  · rw [List.length_map]
    exact hcount
  · obtain ⟨bulk, hbulk, rfl⟩ := List.mem_map.mp hv
    exact .bulk (hbulks bulk hbulk)

theorem unread_newResp (source : Source UInt8) : (newResp source).unread = source.content := rfl

section Command

variable {bulks : List GoString} {rest : GoString} {r : Reader UInt8} {source : Source UInt8}

theorem unread_arrayHead (hunread : r.unread = (command bulks).marshal ++ rest) :
    r.unread = arrayHead bulks ++ (marshalElements (bulks.map .ofBulk) ++ rest) := by
  rw [hunread, marshal_command]
  exact List.append_assoc (arrayHead bulks) _ rest

theorem unread_atArray (hunread : r.unread = (command bulks).marshal ++ rest) :
    (atArray bulks r).unread = marshalElements (bulks.map .ofBulk) ++ rest := by
  rw [atArray, ← arrayHead, Reader.unread_consume, unread_arrayHead hunread, List.drop_left]

theorem read_end (hunread : r.unread = []) : read r = .ok ⟨{}, some .eof, r⟩ :=
  readWithin_end hunread

/-- The command that comes next is read by the loop over its elements, also where these are not all
there. -/
theorem read_array (hcount : IsInt64 bulks.length) (hunread : r.unread = arrayHead bulks ++ rest) :
    ∃ depth, read r =
      readElements (readWithin unlimited (depth + 1)) bulks.length [] (atArray bulks r) := by
  have hfront : r.unread = arrayByte :: (itoa bulks.length ++ crlf ++ rest) := hunread
  have hadvance : r.advance.unread = itoa bulks.length ++ crlf ++ rest := by
    rw [Reader.unread_advance, hfront]
    rfl
  refine ⟨(itoa bulks.length ++ crlf ++ rest).length, ?_⟩
  rw [read, hfront, List.length_cons, readWithin_succ hfront]
  show readArray _ _ = _
  rw [readArray, readInteger_eq hcount hadvance]
  rfl

/-- A command of which every content arrives is read to its last byte. -/
theorem read_array_of_arrive (hcount : IsInt64 bulks.length)
    (hbulks : ∀ bulk ∈ bulks, IsInt64 bulk.length)
    (hunread : r.unread = (command bulks).marshal ++ rest)
    (harrive : BodiesArrive bulks (atArray bulks r)) :
    read r = .ok ⟨command bulks, none, afterBodies bulks (atArray bulks r)⟩ ∧
      (afterBodies bulks (atArray bulks r)).unread = rest := by
  obtain ⟨depth, hread⟩ := read_array hcount (unread_arrayHead hunread)
  have helements := unread_atArray hunread
  exact ⟨hread.trans (readElements_of_arrive hbulks helements harrive),
    unread_afterBodies helements harrive⟩

theorem unread_atElements (hsource : source.content = (command bulks).marshal ++ rest) :
    (atElements bulks source).unread = marshalElements (bulks.map .ofBulk) ++ rest :=
  unread_atArray hsource

end Command

/-- A command is read back from its chunks exactly if what one read makes of the content of each of
its bulk values is that content. Assumes: the numbers of bulk values and of their bytes fit in 64
bits. -/
theorem read_command_iff {bulks : List GoString} {source : Source UInt8}
    (hcount : IsInt64 bulks.length) (hbulks : ∀ bulk ∈ bulks, IsInt64 bulk.length)
    (hsource : source.content = (command bulks).marshal) :
    (∃ after, read (newResp source) = .ok ⟨command bulks, none, after⟩) ↔
      BodiesArrive bulks (atElements bulks source) := by
  have hunread : (newResp source).unread = (command bulks).marshal ++ [] := by
    rw [unread_newResp, hsource, List.append_nil]
  obtain ⟨depth, hread⟩ := read_array hcount (unread_arrayHead hunread)
  rw [hread]
  exact @readElements_iff depth bulks [] [] _ hbulks (unread_atArray hunread)

/-- The chunks can split the length of a bulk value and still bring its content at once. -/
theorem read_command_iff_header :
    ∃ after, read (newResp ⟨[text "*1\r\n$", text "5\r\nhello\r\n"], by decide⟩) =
      .ok ⟨command [text "hello"], none, after⟩ :=
  (read_command_iff (by decide) (by decide) (by decide)).mpr
    (by decide)

/-- A content in two chunks is read with zeros in place of the second. -/
theorem read_command_split :
    (⟨[text "*1\r\n$5\r\nhe", text "llo\r\n"], by decide⟩ : Source UInt8).content =
        (command [text "hello"]).marshal ∧
      read (newResp ⟨[text "*1\r\n$5\r\nhe", text "llo\r\n"], by decide⟩) =
        .ok ⟨command [text "he" ++ [0, 0, 0]], none, newResp ⟨[], by decide⟩⟩ ∧
      command [text "he" ++ [0, 0, 0]] ≠ command [text "hello"] := by
  refine ⟨by decide, by rfl, ?_⟩
  intro hcommand
  have hbulks := List.map_injective_iff.mpr ofBulk_injective (ofArray_injective hcommand)
  exact absurd hbulks (by decide)

end FluxCache.Resp
