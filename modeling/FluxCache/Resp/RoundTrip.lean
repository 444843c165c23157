import FluxCache.Resp.Reader

/-!
# Reading back what was written

Lines, numbers and type bytes are read back however they arrive (`readLine_eq`, `readInteger_eq`,
`readWithin_succ`), since they are read byte by byte. The content of a bulk value is read at once:
`readBulk_eq` says what comes of it for any arrival. When all of it is in the buffer it is read in
full, and so is every `WellFormed` value, to its last byte.
-/

set_option autoImplicit false
set_option relaxedAutoImplicit false

namespace FluxCache.Resp

open Foundation

/-! ### Lines and numbers, however they arrive -/

theorem lineEnds_append_iff {line : GoString} {b : UInt8} :
    LineEnds (line ++ [b]) ↔ line.getLast? = some cr := by
  unfold LineEnds
  rcases List.eq_nil_or_concat line with rfl | ⟨front, last, rfl⟩
  · simp
  · simp

theorem not_lineEnds_append {line : GoString} {b : UInt8} (hline : cr ∉ line) :
    ¬ LineEnds (line ++ [b]) := by
  intro hends
  exact hline (List.mem_of_getLast? (lineEnds_append_iff.mp hends))

/-- A turn of the loop on a line without a carriage return. -/
theorem readLineLoop_succ {bound : ℕ} {line rest : GoString} {b : UInt8} {r : Reader UInt8}
    (hline : cr ∉ line) (hunread : r.unread = b :: rest) :
    readLineLoop (bound + 1) line r = readLineLoop bound (line ++ [b]) r.advance := by
  rw [readLineLoop, Reader.readByte_eq hunread]
  exact if_neg (not_lineEnds_append hline)

/-- The turn of the loop after a carriage return ends the line. -/
theorem readLineLoop_end {bound : ℕ} {line rest : GoString} {b : UInt8} {r : Reader UInt8}
    (hunread : r.unread = b :: rest) :
    readLineLoop (bound + 1) (line ++ [cr]) r = .ok (.ok line, r.advance) := by
  have hends : LineEnds (line ++ [cr] ++ [b]) := lineEnds_append_iff.mpr (by simp)
  rw [readLineLoop, Reader.readByte_eq hunread]
  simp only [if_pos hends]
  simp

theorem readLineLoop_eq {bound : ℕ} {line s rest : GoString} {b : UInt8} {r : Reader UInt8}
    (hline : cr ∉ line) (hs : cr ∉ s) (hunread : r.unread = s ++ cr :: b :: rest)
    (hbound : s.length + 2 ≤ bound) :
    readLineLoop bound line r = .ok (.ok (line ++ s), r.consume (s.length + 2)) := by
  induction s generalizing bound line r with
  | nil =>
    obtain ⟨bound, rfl⟩ := Nat.exists_eq_add_of_le' hbound
    have hnext : r.advance.unread = b :: rest := by
      rw [Reader.unread_advance, hunread]
      rfl
    rw [List.append_nil]
    calc readLineLoop (bound + 2) line r
        = readLineLoop (bound + 1) (line ++ [cr]) r.advance := readLineLoop_succ hline hunread
      _ = .ok (.ok line, r.advance.advance) := readLineLoop_end hnext
  | cons c s ih =>
    obtain ⟨hc, hs⟩ := not_or.mp (List.mem_cons.not.mp hs)
    obtain ⟨bound, rfl⟩ := Nat.exists_eq_add_of_le' hbound
    have hnext : r.advance.unread = s ++ cr :: b :: rest := by
      rw [Reader.unread_advance, hunread]
      rfl
    have hline' : cr ∉ line ++ [c] := by simp [hline, hc]
    calc readLineLoop (bound + ((c :: s).length + 2)) line r
        = readLineLoop (bound + (s.length + 2)) (line ++ [c]) r.advance :=
          readLineLoop_succ hline hunread
      _ = .ok (.ok (line ++ [c] ++ s), r.advance.consume (s.length + 2)) :=
          ih hline' hs hnext (Nat.le_add_left _ _)
      _ = .ok (.ok (line ++ c :: s), r.consume ((c :: s).length + 2)) := by
          rw [List.append_assoc]
          rfl

/-- A line is read up to the byte after its first carriage return. -/
theorem readLine_cut {s rest : GoString} {b : UInt8} {r : Reader UInt8} (hs : cr ∉ s)
    (hunread : r.unread = s ++ cr :: b :: rest) :
    readLine r = .ok (.ok s, r.consume (s.length + 2)) := by
  have hbound : s.length + 2 ≤ r.unread.length + 1 := by
    rw [hunread, List.length_append, List.length_cons, List.length_cons]
    omega
  exact readLineLoop_eq List.not_mem_nil hs hunread hbound

theorem readLine_eq {s rest : GoString} {r : Reader UInt8} (hs : cr ∉ s)
    (hunread : r.unread = s ++ crlf ++ rest) :
    readLine r = .ok (.ok s, r.consume (s ++ crlf).length) := by
  have hsplit : r.unread = s ++ cr :: 10 :: rest := by simpa [crlf] using hunread
  rw [readLine_cut hs hsplit, List.length_append]
  rfl

theorem readInteger_eq {n : ℤ} {rest : GoString} {r : Reader UInt8} (hn : IsInt64 n)
    (hunread : r.unread = itoa n ++ crlf ++ rest) :
    readInteger r = .ok (.ok n, r.consume (itoa n ++ crlf).length) := by
  rw [readInteger, readLine_eq (cr_not_mem_itoa n) hunread]
  show (.ok (Except.mapError ReadError.number (parseInt (itoa n)), _) : Outcome _) = _
  rw [parseInt_itoa hn.1 hn.2]
  rfl

/-! ### Type bytes and bodies -/

theorem readWithin_succ {depth : ℕ} {typeByte : UInt8} {rest : GoString} {r : Reader UInt8}
    (hunread : r.unread = typeByte :: rest) :
    readWithin unlimited (depth + 1) r =
      readTyped unlimited (readWithin unlimited depth) typeByte r.advance := by
  rw [readWithin, Reader.readByte_eq hunread]

theorem readWithin_end {depth : ℕ} {r : Reader UInt8} (hunread : r.unread = []) :
    readWithin unlimited (depth + 1) r = .ok ⟨{}, some .eof, r⟩ := by
  rw [readWithin, Reader.readByte_of_end hunread]
  rfl

/-- What one read makes of the content of a bulk value: the bytes it gave, and zeros for those that
it did not give. -/
def arrived (len : ℕ) (r : Reader UInt8) : GoString :=
  (r.read len).1 ++ List.replicate (len - (r.read len).1.length) 0

/-- A bulk value is what one read makes of its content, whatever is then skipped. -/
theorem readBulk_eq {len : ℕ} {rest : GoString} {r : Reader UInt8} (hlen : IsInt64 len)
    (hunread : r.unread = itoa len ++ crlf ++ rest) :
    readBulk unlimited r = (do
      let (_, after) ← readLine ((r.consume (itoa len ++ crlf).length).read len).2
      return ⟨.ofBulk (arrived len (r.consume (itoa len ++ crlf).length)), none, after⟩) := by
  have hnull : ¬ (len : ℤ) = -1 := by omega
  have hmake : makeBytes unlimited len = .ok (List.replicate len 0) := by
    rw [makeBytes, if_neg (by omega), Int.toNat_natCast]
    rfl
  rw [readBulk, readInteger_eq hlen hunread]
  simp only [bind, Except.bind, if_neg hnull, hmake, List.length_replicate, List.drop_replicate]
  rfl

/-! ### Reading from the buffer -/

theorem consume_buffered (s rest : GoString) (source : Source UInt8) :
    (⟨s ++ rest, source⟩ : Reader UInt8).consume s.length = ⟨rest, source⟩ := by
  rw [Reader.consume_of_le (by simp), List.drop_left]

theorem unread_buffered (s rest : GoString) (source : Source UInt8) :
    (⟨s ++ rest, source⟩ : Reader UInt8).unread = s ++ (rest ++ source.content) :=
  List.append_assoc s rest source.content

theorem readLine_buffered {s : GoString} (hs : cr ∉ s) (rest : GoString) (source : Source UInt8) :
    readLine ⟨s ++ crlf ++ rest, source⟩ = .ok (.ok s, ⟨rest, source⟩) := by
  rw [readLine_eq hs (unread_buffered (s ++ crlf) rest source), consume_buffered]

theorem readInteger_buffered {n : ℤ} (hn : IsInt64 n) (rest : GoString) (source : Source UInt8) :
    readInteger ⟨itoa n ++ crlf ++ rest, source⟩ = .ok (.ok n, ⟨rest, source⟩) := by
  rw [readInteger_eq hn (unread_buffered (itoa n ++ crlf) rest source), consume_buffered]

theorem readText_buffered (value : GoString → Value) {s : GoString} (hs : cr ∉ s)
    (rest : GoString) (source : Source UInt8) :
    readText value ⟨s ++ crlf ++ rest, source⟩ = .ok ⟨value s, none, ⟨rest, source⟩⟩ := by
  rw [readText, readLine_buffered hs]
  rfl

theorem readIntegerValue_buffered {n : ℤ} (hn : IsInt64 n) (rest : GoString)
    (source : Source UInt8) :
    readIntegerValue ⟨itoa n ++ crlf ++ rest, source⟩ =
      .ok ⟨.ofInteger n, none, ⟨rest, source⟩⟩ := by
  rw [readIntegerValue, readInteger_buffered hn]
  rfl

theorem read_buffered (s rest : GoString) (source : Source UInt8) :
    (⟨s ++ rest, source⟩ : Reader UInt8).read s.length = (s, ⟨rest, source⟩) := by
  rw [Reader.read_of_le (by simp), List.take_left, List.drop_left]

theorem readBulk_buffered {bulk : GoString} (hbulk : IsInt64 bulk.length) (rest : GoString)
    (source : Source UInt8) :
    readBulk unlimited ⟨itoa bulk.length ++ crlf ++ (bulk ++ crlf ++ rest), source⟩ =
      .ok ⟨.ofBulk bulk, none, ⟨rest, source⟩⟩ := by
  have hline := @readLine_buffered [] List.not_mem_nil rest source
  rw [readBulk_eq hbulk (unread_buffered _ _ source), consume_buffered, arrived,
    List.append_assoc bulk, read_buffered]
  rw [List.nil_append] at hline
  simp only [hline, bind, Except.bind, Nat.sub_self, List.replicate_zero, List.append_nil]
  rfl

/-- The null value is the length `-1`. -/
theorem readBulk_null (rest : GoString) (source : Source UInt8) :
    readBulk unlimited ⟨itoa (-1) ++ crlf ++ rest, source⟩ =
      .ok ⟨.ofNull, none, ⟨rest, source⟩⟩ := by
  rw [readBulk, readInteger_buffered (by decide)]
  rfl

/-- The loop over the elements reads an array of values that are read one by one. -/
theorem readElements_buffered {readElement : Reader UInt8 → Outcome ReadResult}
    {array : List Value} (rest : GoString) (source : Source UInt8) (before : List Value)
    (helements : ∀ v ∈ array, ∀ rest', readElement ⟨v.marshal ++ rest', source⟩ =
      .ok ⟨v, none, ⟨rest', source⟩⟩) :
    readElements readElement array.length before ⟨marshalElements array ++ rest, source⟩ =
      .ok ⟨.ofArray (before ++ array), none, ⟨rest, source⟩⟩ := by
  induction array generalizing before with
  | nil =>
    rw [List.append_nil]
    rfl
  | cons v array ih =>
    have htail := ih (before ++ [v]) fun w hw ↦ helements w (List.mem_cons_of_mem v hw)
    rw [List.length_cons, readElements, marshalElements, List.append_assoc,
      helements v List.mem_cons_self]
    simp only [bind, Except.bind]
    rw [htail, List.append_assoc]
    rfl

theorem readArray_buffered {readElement : Reader UInt8 → Outcome ReadResult}
    {array : List Value} (hlength : IsInt64 array.length) (rest : GoString)
    (source : Source UInt8)
    (helements : ∀ v ∈ array, ∀ rest', readElement ⟨v.marshal ++ rest', source⟩ =
      .ok ⟨v, none, ⟨rest', source⟩⟩) :
    readArray readElement
        ⟨itoa array.length ++ crlf ++ (marshalElements array ++ rest), source⟩ =
      .ok ⟨.ofArray array, none, ⟨rest, source⟩⟩ := by
  rw [readArray, readInteger_buffered hlength]
  simp only [bind, Except.bind, Int.toNat_natCast]
  exact readElements_buffered rest source [] helements

/-- A value whose wire format starts with a type byte is read by the function of that byte. -/
theorem readWithin_buffered (typeByte : UInt8) (s rest : GoString) (source : Source UInt8)
    {depth : ℕ} (hdepth : (typeByte :: s).length ≤ depth) :
    ∃ inner, s.length ≤ inner ∧ readWithin unlimited depth ⟨typeByte :: s ++ rest, source⟩ =
      readTyped unlimited (readWithin unlimited inner) typeByte ⟨s ++ rest, source⟩ := by
  obtain ⟨extra, rfl⟩ := Nat.exists_eq_add_of_le' hdepth
  exact ⟨extra + s.length, Nat.le_add_left _ _, readWithin_succ rfl⟩

/-- Every well-formed value in the buffer is read, with a bound for every level of it. -/
theorem readWithin_marshal {v : Value} (hv : WellFormed v) (source : Source UInt8) :
    ∀ depth rest, v.marshal.length ≤ depth →
      readWithin unlimited depth ⟨v.marshal ++ rest, source⟩ = .ok ⟨v, none, ⟨rest, source⟩⟩ := by
  induction hv with
  | @string str hstr =>
    intro depth rest hdepth
    obtain ⟨_, _, hread⟩ := readWithin_buffered stringByte (str ++ crlf) rest source hdepth
    exact hread.trans (readText_buffered .ofString hstr rest source)
  | @error str hstr =>
    intro depth rest hdepth
    obtain ⟨_, _, hread⟩ := readWithin_buffered errorByte (str ++ crlf) rest source hdepth
    exact hread.trans (readText_buffered .ofError hstr rest source)
  | @integer num hnum =>
    intro depth rest hdepth
    obtain ⟨_, _, hread⟩ := readWithin_buffered integerByte (itoa num ++ crlf) rest source hdepth
    exact hread.trans (readIntegerValue_buffered hnum rest source)
  | null =>
    intro depth rest hdepth
    obtain ⟨_, _, hread⟩ := readWithin_buffered bulkByte (itoa (-1) ++ crlf) rest source hdepth
    exact hread.trans (readBulk_null rest source)
  | @bulk bulk hbulk =>
    intro depth rest hdepth
    obtain ⟨_, _, hread⟩ := readWithin_buffered bulkByte
      (itoa bulk.length ++ crlf ++ (bulk ++ crlf)) rest source hdepth
    refine hread.trans ?_
    rw [List.append_assoc]
    exact readBulk_buffered hbulk rest source
  | @array array hlength helements ih =>
    intro depth rest hdepth
    rw [marshal_ofArray] at hdepth ⊢
    obtain ⟨inner, hinner, hread⟩ := readWithin_buffered arrayByte
      (itoa array.length ++ crlf ++ marshalElements array) rest source hdepth
    refine hread.trans ?_
    rw [List.append_assoc]
    refine readArray_buffered hlength rest source fun v hmem rest' ↦ ih v hmem inner rest' ?_
    have hle := length_marshal_le hmem
    rw [List.length_append] at hinner
    omega

/-- Reading undoes writing: a well-formed value in the buffer is returned without an error, and
exactly what follows it stays unread. -/
theorem read_marshal {v : Value} (hv : WellFormed v) (rest : GoString) (source : Source UInt8) :
    read ⟨v.marshal ++ rest, source⟩ = .ok ⟨v, none, ⟨rest, source⟩⟩ := by
  refine readWithin_marshal hv source _ rest ?_
  rw [unread_buffered, List.length_append]
  omega

/-- A string is read up to its first carriage return. -/
theorem read_string_cut {line rest : GoString} {b : UInt8} {r : Reader UInt8} (hline : cr ∉ line)
    (hunread : r.unread = stringByte :: (line ++ cr :: b :: rest)) :
    ∃ after, read r = .ok ⟨.ofString line, none, after⟩ := by
  have hnext : r.advance.unread = line ++ cr :: b :: rest := by
    rw [Reader.unread_advance, hunread]
    rfl
  refine ⟨r.advance.consume (line.length + 2), ?_⟩
  rw [read, readWithin_succ hunread]
  show readText .ofString r.advance = _
  rw [readText, readLine_cut hline hnext]
  rfl

/-- A string is read back exactly if it contains no carriage return. -/
theorem read_string_iff (str : GoString) :
    (∀ rest source, read ⟨(Value.ofString str).marshal ++ rest, source⟩ =
        .ok ⟨.ofString str, none, ⟨rest, source⟩⟩) ↔ cr ∉ str := by
  refine ⟨fun hread hmem ↦ ?_, fun hstr rest source ↦ read_marshal (.string hstr) rest source⟩
  obtain ⟨line, tail, rfl, hline⟩ := List.eq_append_cons_of_mem hmem
  obtain ⟨b, rest, hrest⟩ : ∃ b rest, tail ++ crlf = b :: rest :=
    List.exists_cons_of_ne_nil (List.append_ne_nil_of_right_ne_nil _ (List.cons_ne_nil _ _))
  have hwire : (Value.ofString (line ++ cr :: tail)).marshal =
      stringByte :: (line ++ cr :: b :: rest) := by
    rw [Value.ofString, Value.marshal, marshalString, marshalLine, List.append_assoc,
      List.cons_append, hrest]
  obtain ⟨after, hcut⟩ := @read_string_cut line (rest ++ (Source.ofChunks []).content) b
    ⟨(Value.ofString (line ++ cr :: tail)).marshal ++ [], .ofChunks []⟩ hline (by
      rw [unread_buffered, hwire]
      simp)
  have hvalue := congrArg ReadResult.value (Except.ok.inj (hcut.symm.trans (hread [] _)))
  have hlength := congrArg (fun v : Value ↦ v.str.length) hvalue
  simp [Value.ofString] at hlength

/-- A chunk that fits in the buffer is read as if it were in the buffer already. -/
theorem read_newResp {source : Source UInt8} {chunk : GoString} {chunks : List GoString}
    (hchunks : source.chunks = chunk :: chunks) (hfits : chunk.length ≤ Reader.bufferSize) :
    ∃ after : Source UInt8, after.chunks = chunks ∧
      read (newResp source) = read ⟨chunk, after⟩ := by
  obtain ⟨after, hafter, hbyte⟩ := Reader.readByte_new hchunks hfits
  have hunread : (newResp source).unread = (⟨chunk, after⟩ : Reader UInt8).unread := by
    rw [Reader.unread, Reader.unread, Source.content, Source.content, hafter, newResp, Reader.new,
      hchunks]
    rfl
  have hne : chunk ≠ [] := source.nonempty chunk (by rw [hchunks]; exact List.mem_cons_self)
  obtain ⟨b, bs, rfl⟩ := List.exists_cons_of_ne_nil hne
  refine ⟨after, hafter, ?_⟩
  rw [read, read, hunread, readWithin, readWithin, newResp, hbyte]
  rfl

/-- An array with a bulk value that contains the end of a line, the null value and an array. -/
theorem read_marshal_nested :
    read ⟨(Value.ofArray [.ofBulk (text "$\r\n"), .ofNull, .ofArray [.ofInteger (-7)]]).marshal ++
        text "+OK\r\n", ⟨[], by simp⟩⟩ =
      .ok ⟨.ofArray [.ofBulk (text "$\r\n"), .ofNull, .ofArray [.ofInteger (-7)]], none,
        ⟨text "+OK\r\n", ⟨[], by simp⟩⟩⟩ := by
  refine read_marshal (.array (by decide) ?_) _ _
  intro v hv
  simp only [List.mem_cons, List.not_mem_nil, or_false] at hv
  rcases hv with rfl | rfl | rfl
  · exact .bulk (by decide)
  · exact .null
  · refine .array (by decide) fun v hv ↦ ?_
    rw [List.mem_singleton.mp hv]
    exact .integer (by decide)

end FluxCache.Resp
