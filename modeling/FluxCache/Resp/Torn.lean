import FluxCache.Foundation.Records
import FluxCache.Resp.Delivery

/-!
# Commands that are cut off

The input ends in the middle of a command, and all of it is in the buffer. A line that is cut off is
the end of the input (`readLine_eof`), and so is a length (`readInteger_cut`). A content that is cut
off is not: the missing bytes become zeros, the end of the line is skipped as far as it is there,
and the bulk value is returned without an error (`readWithin_bulk_cut`). The end of the input is
then seen by the next element.

So whether a command that is cut off is returned depends on its last bulk value. If the cut is in
front of the content of that value, the read ends with the end of the input (`read_cut_eof`), and if
it is in that content or in the end of the line behind it, an array is returned (`read_cut_ok`).
-/

set_option autoImplicit false
set_option relaxedAutoImplicit false

namespace FluxCache.Resp

open Foundation

/-! ### Lines -/

theorem readLineLoop_eof {bound : ℕ} {line rest : GoString} {r : Reader UInt8}
    (hline : cr ∉ (line ++ rest).dropLast) (hunread : r.unread = rest)
    (hbound : rest.length < bound) :
    ∃ after, readLineLoop bound line r = .ok (.error .eof, after) ∧ after.unread = [] := by
  induction rest generalizing bound line r with
  | nil =>
    obtain ⟨bound, rfl⟩ := Nat.exists_eq_add_of_le' (Nat.one_le_of_lt hbound)
    refine ⟨r, ?_, hunread⟩
    rw [readLineLoop, Reader.readByte_of_end hunread]
  | cons b rest ih =>
    obtain ⟨bound, rfl⟩ := Nat.exists_eq_add_of_le' (Nat.one_le_of_lt hbound)
    have hfront : cr ∉ line := by
      rw [List.dropLast_append_cons] at hline
      exact fun hmem ↦ hline (List.mem_append_left _ hmem)
    have hnext : r.advance.unread = rest := by
      rw [Reader.unread_advance, hunread]
      rfl
    rw [readLineLoop_succ hfront hunread]
    refine ih ?_ hnext (Nat.lt_of_succ_lt_succ hbound)
    rwa [List.append_assoc]

/-- A line that does not end is the end of the input. -/
theorem readLine_eof {r : Reader UInt8} (hline : cr ∉ r.unread.dropLast) :
    ∃ after, readLine r = .ok (.error .eof, after) ∧ after.unread = [] :=
  readLineLoop_eof hline rfl (Nat.lt_succ_self _)

/-- A part of a line has no carriage return before its last byte. -/
theorem cr_not_mem_cut {s : GoString} (hs : cr ∉ s) {k : ℕ} (hk : k < (s ++ crlf).length) :
    cr ∉ ((s ++ crlf).take k).dropLast := by
  have hlength : (s ++ crlf).length = s.length + 2 := List.length_append
  have hcut : ((s ++ crlf).take k).dropLast = s.take (k - 1) := by
    rw [List.dropLast_eq_take, List.length_take, List.take_take, List.take_append_of_le_length]
    · congr 1
      rw [hlength]
      omega
    · rw [hlength]
      omega
  rw [hcut]
  exact fun hmem ↦ hs (List.mem_of_mem_take hmem)

/-- A length that is cut off is the end of the input. -/
theorem readInteger_cut {source : Source UInt8} (hsource : source.content = []) (len : ℤ) {k : ℕ}
    (hk : k < (itoa len ++ crlf).length) :
    ∃ after, readInteger ⟨(itoa len ++ crlf).take k, source⟩ = .ok (.error .eof, after) := by
  have hunread : (⟨(itoa len ++ crlf).take k, source⟩ : Reader UInt8).unread =
      (itoa len ++ crlf).take k := by
    rw [Reader.unread, hsource, List.append_nil]
  have hline := cr_not_mem_cut (cr_not_mem_itoa len) hk
  rw [← hunread] at hline
  obtain ⟨after, hafter, -⟩ := readLine_eof hline
  refine ⟨after, ?_⟩
  rw [readInteger, hafter]
  rfl

/-! ### Bulk values -/

theorem length_marshalBulk (bulk : GoString) :
    (marshalBulk bulk).length = (bulkHead bulk).length + (bulk ++ crlf).length :=
  List.length_append

section Bulk

variable {depth : ℕ} {bulk : GoString} {source : Source UInt8}

theorem readWithin_bulk_buffered (hbulk : IsInt64 bulk.length) (rest : GoString)
    (source : Source UInt8) :
    readWithin unlimited (depth + 1) ⟨marshalBulk bulk ++ rest, source⟩ =
      .ok ⟨.ofBulk bulk, none, ⟨rest, source⟩⟩ := by
  have hread := readBulk_buffered hbulk rest source
  rw [← List.append_assoc] at hread
  exact hread

/-- A bulk value that is cut off before its content is the end of the input. -/
theorem readWithin_bulk_eof (hsource : source.content = []) {k : ℕ}
    (hk : k < (bulkHead bulk).length) :
    ∃ v after, readWithin unlimited (depth + 1) ⟨(marshalBulk bulk).take k, source⟩ =
      .ok ⟨v, some .eof, after⟩ := by
  cases k with
  | zero => exact ⟨_, _, readWithin_end hsource⟩
  | succ k =>
    have hcut : (marshalBulk bulk).take (k + 1) =
        bulkByte :: (itoa bulk.length ++ crlf).take k := by
      rw [marshalBulk, ← bulkHead, List.take_append_of_le_length hk.le]
      rfl
    obtain ⟨after, hafter⟩ := readInteger_cut hsource bulk.length (Nat.lt_of_succ_lt_succ hk)
    refine ⟨{ type := .bulk }, after, ?_⟩
    rw [hcut]
    show readBulk unlimited ⟨(itoa bulk.length ++ crlf).take k, source⟩ = _
    rw [readBulk, hafter]
    rfl

/-- A bulk value that is cut off in its content, or in the end of the line behind it, is returned,
and nothing is left. -/
theorem readWithin_bulk_cut (hbulk : IsInt64 bulk.length) (hsource : source.content = []) {k : ℕ}
    (hhead : (bulkHead bulk).length ≤ k) (hk : k < (marshalBulk bulk).length) :
    ∃ content after, readWithin unlimited (depth + 1) ⟨(marshalBulk bulk).take k, source⟩ =
      .ok ⟨.ofBulk content, none, after⟩ ∧ after.unread = [] := by
  obtain ⟨j, rfl⟩ := Nat.exists_eq_add_of_le hhead
  have hj : j < (bulk ++ crlf).length := by
    rw [marshalBulk, ← bulkHead, List.length_append] at hk
    exact Nat.lt_of_add_lt_add_left hk
  have hat : atBody bulk ⟨bulkHead bulk ++ (bulk ++ crlf).take j, source⟩ =
      ⟨(bulk ++ crlf).take j, source⟩ := consume_buffered (bulkHead bulk) _ source
  -- one read takes what is there of the content, which leaves at most a carriage return
  have hrest : ((⟨(bulk ++ crlf).take j, source⟩ : Reader UInt8).read bulk.length).2.unread =
      ([] ++ crlf).take (j - bulk.length) := by
    rw [Reader.unread_read_of_end hsource, List.drop_take, List.drop_left]
    rfl
  have hline : cr ∉ (([] ++ crlf).take (j - bulk.length)).dropLast := by
    refine cr_not_mem_cut List.not_mem_nil ?_
    rw [List.length_append] at hj
    have hcrlf : ([] ++ crlf).length = 2 := rfl
    have hcrlf' : crlf.length = 2 := rfl
    omega
  obtain ⟨after, hafter, hend⟩ := readLine_eof (hrest ▸ hline)
  refine ⟨arrived bulk.length ⟨(bulk ++ crlf).take j, source⟩, after, ?_, hend⟩
  rw [marshalBulk, ← bulkHead, List.take_length_add_append,
    readWithin_bulk hbulk (unread_buffered (bulkHead bulk) _ source), hat, hafter]
  rfl

end Bulk

/-! ### The elements of a command -/

theorem length_content_le {bulks : List GoString} {bulk : GoString} (hbulk : bulk ∈ bulks) :
    (bulk ++ crlf).length ≤ (bulks.flatMap marshalBulk).length := by
  have hle := length_marshal_le (List.mem_map_of_mem (f := Value.ofBulk) hbulk)
  rw [marshal_ofBulk, marshalElements_bulks, length_marshalBulk] at hle
  exact (Nat.le_add_left _ _).trans hle

section Elements

variable {depth : ℕ} {bulks : List GoString} {before : List Value} {source : Source UInt8}

/-- The loop goes through complete elements. -/
theorem readElements_front (hbulks : ∀ bulk ∈ bulks, IsInt64 bulk.length) (n : ℕ)
    (rest : GoString) :
    readElements (readWithin unlimited (depth + 1)) (bulks.length + n) before
        ⟨bulks.flatMap marshalBulk ++ rest, source⟩ =
      readElements (readWithin unlimited (depth + 1)) n (before ++ bulks.map .ofBulk)
        ⟨rest, source⟩ := by
  induction bulks generalizing before with
  | nil => rw [List.map_nil, List.append_nil, List.length_nil, Nat.zero_add]; rfl
  | cons bulk bulks ih =>
    obtain ⟨hbulk, hothers⟩ := List.forall_mem_cons.mp hbulks
    have htail := @ih (before ++ [.ofBulk bulk]) hothers
    rw [List.append_assoc] at htail
    rw [List.length_cons, Nat.add_right_comm, readElements, List.flatMap_cons, List.append_assoc,
      readWithin_bulk_buffered hbulk]
    exact htail

/-- At the end of the input the loop fails if an element is missing. -/
theorem readElements_end {r : Reader UInt8} (hunread : r.unread = []) (n : ℕ) :
    readElements (readWithin unlimited (depth + 1)) (n + 1) before r =
      .ok ⟨.ofArray before, some .eof, r⟩ := by
  rw [readElements, readWithin_end hunread]
  rfl

/-- The loop comes to the element that is cut off. -/
theorem exists_readElements_cut (hbulks : ∀ bulk ∈ bulks, IsInt64 bulk.length) {k : ℕ}
    (hk : k < (bulks.flatMap marshalBulk).length) :
    ∃ front bulk rest j, bulks = front ++ bulk :: rest ∧ j < (marshalBulk bulk).length ∧
      k = (front.flatMap marshalBulk).length + j ∧
      readElements (readWithin unlimited (depth + 1)) bulks.length before
          ⟨(bulks.flatMap marshalBulk).take k, source⟩ =
        readElements (readWithin unlimited (depth + 1)) (rest.length + 1)
          (before ++ front.map .ofBulk) ⟨(marshalBulk bulk).take j, source⟩ := by
  obtain ⟨front, bulk, rest, j, rfl, hj, hlength, htake⟩ := exists_cut marshalBulk hk
  refine ⟨front, bulk, rest, j, rfl, hj, hlength, ?_⟩
  rw [htake, List.length_append, List.length_cons]
  exact readElements_front (fun b hb ↦ hbulks b (List.mem_append_left _ hb)) _ _

variable {last : GoString}

/-- Behind the element that is cut off stands the last one, or it is the last one itself. -/
theorem last_cases {front rest : List GoString} {bulk : GoString}
    (hlast : (front ++ bulk :: rest).getLast? = some last) :
    (rest = [] ∧ last = bulk) ∨ (rest ≠ [] ∧
      (last ++ crlf).length ≤ (rest.flatMap marshalBulk).length) := by
  cases rest with
  | nil =>
    rw [List.getLast?_concat] at hlast
    exact Or.inl ⟨rfl, (Option.some.inj hlast).symm⟩
  | cons b rest =>
    rw [List.append_cons, List.getLast?_append_of_ne_nil _ (List.cons_ne_nil b rest)] at hlast
    exact Or.inr ⟨List.cons_ne_nil b rest, length_content_le (List.mem_of_getLast? hlast)⟩

theorem readElements_cut_eof (hbulks : ∀ bulk ∈ bulks, IsInt64 bulk.length)
    (hsource : source.content = []) (hlast : bulks.getLast? = some last) {k : ℕ}
    (hk : k + (last ++ crlf).length < (bulks.flatMap marshalBulk).length) :
    ∃ v after, readElements (readWithin unlimited (depth + 1)) bulks.length before
      ⟨(bulks.flatMap marshalBulk).take k, source⟩ = .ok ⟨v, some .eof, after⟩ := by
  obtain ⟨front, bulk, rest, j, rfl, hj, hlength, hread⟩ :=
    @exists_readElements_cut depth bulks before source hbulks k (by omega)
  rw [hread, readElements]
  by_cases hhead : j < (bulkHead bulk).length
  · obtain ⟨v, after, heof⟩ := @readWithin_bulk_eof depth bulk source hsource j hhead
    rw [heof]
    exact ⟨_, after, rfl⟩
  · obtain ⟨content, after, hcut, hend⟩ := @readWithin_bulk_cut depth bulk source
      (hbulks bulk (by simp)) hsource j (Nat.le_of_not_lt hhead) hj
    rcases last_cases hlast with ⟨rfl, rfl⟩ | ⟨hrest, -⟩
    · have hsplit : ((front ++ [last]).flatMap marshalBulk).length =
          (front.flatMap marshalBulk).length +
            ((bulkHead last).length + (last ++ crlf).length) := by
        rw [List.flatMap_append, List.length_append, List.flatMap_singleton, length_marshalBulk]
      omega
    · obtain ⟨n, hn⟩ := Nat.exists_eq_succ_of_ne_zero (List.length_pos_of_ne_nil hrest).ne'
      rw [hcut, hn]
      exact ⟨_, after, readElements_end hend n⟩

theorem readElements_cut_ok (hbulks : ∀ bulk ∈ bulks, IsInt64 bulk.length)
    (hsource : source.content = []) (hlast : bulks.getLast? = some last) {k : ℕ}
    (hk : k < (bulks.flatMap marshalBulk).length)
    (hbody : (bulks.flatMap marshalBulk).length ≤ k + (last ++ crlf).length) :
    ∃ more after, more ≠ [] ∧ readElements (readWithin unlimited (depth + 1)) bulks.length before
      ⟨(bulks.flatMap marshalBulk).take k, source⟩ = .ok ⟨.ofArray (before ++ more), none, after⟩ ∧
        after.unread = [] := by
  obtain ⟨front, bulk, rest, j, rfl, hj, hlength, hread⟩ :=
    @exists_readElements_cut depth bulks before source hbulks k hk
  rw [List.flatMap_append, List.length_append, List.flatMap_cons, List.length_append,
    hlength] at hbody
  rcases last_cases hlast with ⟨rfl, rfl⟩ | ⟨-, hrest⟩
  · have hhead : (bulkHead last).length ≤ j := by
      rw [length_marshalBulk, List.flatMap_nil, List.length_nil] at hbody
      omega
    obtain ⟨content, after, hcut, hend⟩ := @readWithin_bulk_cut depth last source
      (hbulks last (by simp)) hsource j hhead hj
    refine ⟨front.map .ofBulk ++ [.ofBulk content], after, by simp, ?_, hend⟩
    rw [hread, readElements, hcut, ← List.append_assoc]
    rfl
  · omega

end Elements

/-! ### Commands -/

section Command

variable {bulks : List GoString} {last : GoString} {source : Source UInt8}

theorem marshal_command_eq (bulks : List GoString) :
    (command bulks).marshal = arrayHead bulks ++ bulks.flatMap marshalBulk := by
  rw [marshal_command, marshalElements_bulks]
  rfl

/-- A command that is cut off behind its length is read by the loop over its elements. -/
theorem read_cut_elements (hcount : IsInt64 bulks.length) (source : Source UInt8) (k : ℕ) :
    ∃ depth, read ⟨arrayHead bulks ++ (bulks.flatMap marshalBulk).take k, source⟩ =
      readElements (readWithin unlimited (depth + 1)) bulks.length []
        ⟨(bulks.flatMap marshalBulk).take k, source⟩ := by
  obtain ⟨depth, hread⟩ := read_array hcount (unread_buffered (arrayHead bulks) _ source)
  rw [atArray, ← arrayHead, consume_buffered] at hread
  exact ⟨depth, hread⟩

/-- A command that is cut off in its length is the end of the input. -/
theorem read_cut_head (hsource : source.content = []) {k : ℕ} (hk : k < (arrayHead bulks).length) :
    ∃ v after, read ⟨(arrayHead bulks).take k, source⟩ = .ok ⟨v, some .eof, after⟩ := by
  cases k with
  | zero => exact ⟨_, _, read_end hsource⟩
  | succ k =>
    obtain ⟨after, hafter⟩ := readInteger_cut hsource bulks.length (Nat.lt_of_succ_lt_succ hk)
    refine ⟨{ type := .array }, after, ?_⟩
    show readArray _ ⟨(itoa bulks.length ++ crlf).take k, source⟩ = _
    rw [readArray, hafter]
    rfl

/-- A command that is cut off before the content of its last bulk value is the end of the input. -/
theorem read_cut_eof (hcount : IsInt64 bulks.length) (hbulks : ∀ bulk ∈ bulks, IsInt64 bulk.length)
    (hsource : source.content = []) (hlast : bulks.getLast? = some last) {k : ℕ}
    (hk : k + (last ++ crlf).length < (command bulks).marshal.length) :
    ∃ v after, read ⟨(command bulks).marshal.take k, source⟩ = .ok ⟨v, some .eof, after⟩ := by
  rw [marshal_command_eq] at hk ⊢
  by_cases hhead : k < (arrayHead bulks).length
  · rw [List.take_append_of_le_length hhead.le]
    exact read_cut_head hsource hhead
  · obtain ⟨j, rfl⟩ := Nat.exists_eq_add_of_le (Nat.le_of_not_lt hhead)
    rw [List.take_length_add_append]
    obtain ⟨depth, hread⟩ := read_cut_elements hcount source j
    rw [hread]
    have hlength : (arrayHead bulks ++ bulks.flatMap marshalBulk).length =
        (arrayHead bulks).length + (bulks.flatMap marshalBulk).length := List.length_append
    exact readElements_cut_eof hbulks hsource hlast (by omega)

/-- A command that is cut off behind the length of its last bulk value is returned as an array, and
nothing is left. -/
theorem read_cut_ok (hcount : IsInt64 bulks.length) (hbulks : ∀ bulk ∈ bulks, IsInt64 bulk.length)
    (hsource : source.content = []) (hlast : bulks.getLast? = some last) {k : ℕ}
    (hk : k < (command bulks).marshal.length)
    (hbody : (command bulks).marshal.length ≤ k + (last ++ crlf).length) :
    ∃ more after, more ≠ [] ∧ read ⟨(command bulks).marshal.take k, source⟩ =
      .ok ⟨.ofArray more, none, after⟩ ∧ after.unread = [] := by
  rw [marshal_command_eq] at hk hbody ⊢
  have htail : (last ++ crlf).length ≤ (bulks.flatMap marshalBulk).length :=
    length_content_le (List.mem_of_getLast? hlast)
  have hlength : (arrayHead bulks ++ bulks.flatMap marshalBulk).length =
      (arrayHead bulks).length + (bulks.flatMap marshalBulk).length := List.length_append
  obtain ⟨j, rfl⟩ : ∃ j, k = (arrayHead bulks).length + j :=
    Nat.exists_eq_add_of_le (by omega)
  rw [List.take_length_add_append]
  obtain ⟨depth, hread⟩ := read_cut_elements hcount source j
  rw [hread]
  exact @readElements_cut_ok depth bulks [] source last hbulks hsource hlast j (by omega) (by omega)

end Command

end FluxCache.Resp
