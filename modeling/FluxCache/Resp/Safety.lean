import FluxCache.Foundation.FileReader
import FluxCache.Resp.RoundTrip

/-!
# What a stream asks of the machine

The reader allocates the content of a bulk value from the length in its header, before any of it has
arrived, and calls itself for every level of nested arrays. A stream that cannot be answered is a
panic: a length that is negative, but for -1, one for which there is no memory, or arrays that are
nested deeper than the stack is. `Limits` are those of a machine, and `readOn` is `Read` on it.

`demands` are the slices and the calls that a `Read` asks for, in their order. What it never comes
to, since the stream ends or an earlier number is malformed, does not count. Every function of the
reader meets one of two cases (`Answers`): the machine grants its demands, and then it returns what
it returns without limits, or it stops at a demand that is refused. It never runs out of another
bound, as every array takes a byte and every line ends with the stream.
-/

set_option autoImplicit false
set_option relaxedAutoImplicit false

namespace FluxCache.Resp

open Foundation

/-! ### Lines and numbers -/

/-- The loop of `readLine` ends at the latest with the stream. -/
theorem exists_readLineLoop {bound : ℕ} {line : GoString} {r : Reader UInt8}
    (hbound : r.unread.length < bound) :
    ∃ result, readLineLoop bound line r = .ok result ∧
      result.2.unread.length ≤ r.unread.length := by
  induction bound generalizing line r with
  | zero => exact absurd hbound (Nat.not_lt_zero _)
  | succ bound ih =>
    rcases r.readByte_spec with ⟨hnone, -⟩ | ⟨b, r', hsome, hcons⟩
    · refine ⟨(.error .eof, r), ?_, le_rfl⟩
      rw [readLineLoop, hnone]
    · rw [hcons, List.length_cons] at hbound ⊢
      rw [readLineLoop, hsome]
      by_cases hends : LineEnds (line ++ [b])
      · exact ⟨_, if_pos hends, Nat.le_succ _⟩
      · simp only [if_neg hends]
        obtain ⟨result, hresult, hle⟩ := @ih (line ++ [b]) r' (by omega)
        exact ⟨result, hresult, hle.trans (Nat.le_succ _)⟩

theorem exists_readLine (r : Reader UInt8) :
    ∃ result, readLine r = .ok result ∧ result.2.unread.length ≤ r.unread.length :=
  exists_readLineLoop (Nat.lt_succ_self _)

theorem exists_readInteger (r : Reader UInt8) :
    ∃ n after, readInteger r = .ok (n, after) ∧ after.unread.length ≤ r.unread.length := by
  obtain ⟨⟨line, after⟩, hline, hle⟩ := exists_readLine r
  refine ⟨line >>= fun line ↦ (parseInt line).mapError .number, after, ?_, hle⟩
  rw [readInteger, hline]
  rfl

/-! ### Limits -/

/-- What a machine gives to a `Read`: the slices that it allocates, none of them of more than 2^48
bytes, and the number of nested calls that the stack holds. The memory for what has arrived, lines
and values, is always there. -/
structure Limits where
  allocates : ℕ → Bool
  stack : ℕ
  allocates_le : ∀ n, allocates n = true → n ≤ 2 ^ 48

/-- `Resp.Read` on a machine with limits. A bound that is exhausted is a stack that overflows. -/
def readOn (limits : Limits) (r : Reader UInt8) : Outcome ReadResult :=
  readWithin limits.allocates limits.stack r

/-- What a `Read` asks for: a slice for the content of a bulk value, and a call inside others. -/
inductive Demand
  | slice (len : ℤ)
  | call (level : ℕ)
  deriving DecidableEq

/-- The machine grants a demand. -/
def Limits.Grants (limits : Limits) : Demand → Prop
  | .slice len => 0 ≤ len ∧ limits.allocates len.toNat = true
  | .call level => level < limits.stack

/-! ### The demands of a stream -/

/-- The demands of the elements of an array. The elements after one that fails are not reached. -/
def elementDemands (readElement : Reader UInt8 → Outcome ReadResult)
    (demands : Reader UInt8 → List Demand) : ℕ → Reader UInt8 → List Demand
  | 0, _ => []
  | n + 1, r =>
    demands r ++
      match readElement r with
      | .ok ⟨_, none, after⟩ => elementDemands readElement demands n after
      | _ => []

/-- The demands of a value, after its type byte. The length -1 asks for nothing. -/
def typedDemands (readElement : Reader UInt8 → Outcome ReadResult)
    (demands : Reader UInt8 → List Demand) (typeByte : UInt8) (r : Reader UInt8) : List Demand :=
  match readInteger r with
  | .ok (.ok len, after) =>
    if typeByte = arrayByte then elementDemands readElement demands len.toNat after
    else if typeByte = bulkByte ∧ len ≠ -1 then [.slice len]
    else []
  | _ => []

/-- The demands of a call at a level, for values with fewer than `depth` further levels. -/
def demandsWithin : ℕ → ℕ → Reader UInt8 → List Demand
  | 0, _, _ => []
  | depth + 1, level, r =>
    .call level ::
      match r.readByte with
      | none => []
      | some (typeByte, r) =>
        typedDemands (readWithin unlimited depth) (demandsWithin depth (level + 1)) typeByte r

/-- The slices and the calls that `Read` asks for. -/
def demands (r : Reader UInt8) : List Demand := demandsWithin (r.unread.length + 1) 0 r

/-! ### The two cases -/

section Answers

variable {limits : Limits}

/-- A reading function with limits and the same without: all demands are granted and both return the
same, or a demand is refused and the first one stops. -/
inductive Answers (limits : Limits) (r : Reader UInt8) :
    Outcome ReadResult → Outcome ReadResult → List Demand → Prop
  | returns {result : ReadResult} {demands : List Demand}
      (granted : ∀ demand ∈ demands, limits.Grants demand)
      (unread : result.reader.unread.length ≤ r.unread.length) :
      Answers limits r (.ok result) (.ok result) demands
  | stops {fault : Fault} {outcome : Outcome ReadResult} {demands : List Demand} {demand : Demand}
      (mem : demand ∈ demands) (refused : ¬ limits.Grants demand) :
      Answers limits r (.error fault) outcome demands

theorem Answers.mono {r r' : Reader UInt8} {limited outcome : Outcome ReadResult}
    {demands : List Demand} (h : Answers limits r' limited outcome demands)
    (hle : r'.unread.length ≤ r.unread.length) : Answers limits r limited outcome demands := by
  cases h with
  | returns granted unread => exact .returns granted (unread.trans hle)
  | stops mem refused => exact .stops mem refused

theorem Answers.cons {r : Reader UInt8} {limited outcome : Outcome ReadResult}
    {demands : List Demand} (h : Answers limits r limited outcome demands) {demand : Demand}
    (hgrants : limits.Grants demand) : Answers limits r limited outcome (demand :: demands) := by
  cases h with
  | returns granted unread => exact .returns (List.forall_mem_cons.mpr ⟨hgrants, granted⟩) unread
  | stops mem refused => exact .stops (List.mem_cons_of_mem _ mem) refused

/-- Values that ask for nothing. -/
theorem answers_readText (value : GoString → Value) (r : Reader UInt8) :
    Answers limits r (readText value r) (readText value r) [] := by
  obtain ⟨⟨line, after⟩, hline, hle⟩ := exists_readLine r
  rw [readText, hline]
  cases line with
  | error err => exact .returns (List.forall_mem_nil _) hle
  | ok line => exact .returns (List.forall_mem_nil _) hle

theorem answers_readIntegerValue (r : Reader UInt8) :
    Answers limits r (readIntegerValue r) (readIntegerValue r) [] := by
  obtain ⟨n, after, hn, hle⟩ := exists_readInteger r
  rw [readIntegerValue, hn]
  cases n with
  | error err => exact .returns (List.forall_mem_nil _) hle
  | ok n => exact .returns (List.forall_mem_nil _) hle

/-- A bulk value stops at a length that is refused, and returns otherwise, whatever has arrived of
its content. -/
theorem answers_readBulk {r after : Reader UInt8} {len : ℤ}
    (hlen : readInteger r = .ok (.ok len, after))
    (hle : after.unread.length ≤ r.unread.length) :
    Answers limits r (readBulk limits.allocates r) (readBulk unlimited r)
      (if len ≠ -1 then [.slice len] else []) := by
  rw [readBulk, readBulk, hlen]
  by_cases hnull : len = -1
  · subst hnull
    exact .returns (List.forall_mem_nil _) hle
  · rw [if_pos hnull]
    by_cases hnegative : len < 0
    · simp only [ok_bind, if_neg hnull, makeBytes, if_pos hnegative]
      exact .stops (List.mem_singleton_self _) fun hgrants ↦ absurd hgrants.1 (by omega)
    · by_cases hmemory : limits.allocates len.toNat = true
      · obtain ⟨⟨line, last⟩, hline, hlast⟩ := exists_readLine (after.read len.toNat).2
        have hcontent := congrArg List.length (after.read_append_unread len.toNat)
        rw [List.length_append] at hcontent
        have hunread : last.unread.length ≤ r.unread.length := by
          have hrest : last.unread.length ≤ (after.read len.toNat).2.unread.length := hlast
          omega
        simp only [ok_bind, if_neg hnull, makeBytes, if_neg hnegative, if_pos hmemory, unlimited,
          if_pos, List.length_replicate, hline]
        exact .returns (List.forall_mem_singleton.mpr ⟨by omega, hmemory⟩) hunread
      · simp only [ok_bind, if_neg hnull, makeBytes, if_neg hnegative, if_neg hmemory]
        exact .stops (List.mem_singleton_self _) fun hgrants ↦ hmemory hgrants.2

/-- The elements of an array, read one after the other. Assumes: every element meets one of the two
cases. -/
theorem answers_readElements {limited readElement : Reader UInt8 → Outcome ReadResult}
    {demands : Reader UInt8 → List Demand} {r : Reader UInt8}
    (helement : ∀ next : Reader UInt8, next.unread.length ≤ r.unread.length →
      Answers limits next (limited next) (readElement next) (demands next))
    (n : ℕ) (array : List Value) :
    Answers limits r (readElements limited n array r) (readElements readElement n array r)
      (elementDemands readElement demands n r) := by
  induction n generalizing array r with
  | zero => exact .returns (List.forall_mem_nil _) le_rfl
  | succ n ih =>
    have hfirst := helement r le_rfl
    rw [readElements, readElements, elementDemands]
    generalize limited r = outcome at hfirst
    generalize readElement r = outcome' at hfirst
    generalize demands r = first at hfirst
    cases hfirst with
    | stops mem refused => exact .stops (List.mem_append_left _ mem) refused
    | @returns result _ granted unread =>
      obtain ⟨element, err, next⟩ := result
      cases err with
      | some err =>
        rw [List.append_nil]
        exact .returns granted unread
      | none =>
        have hrest := ih (fun other hother ↦ helement other (hother.trans unread))
          (array ++ [element])
        have hrest' := hrest.mono unread
        show Answers limits r (readElements limited n (array ++ [element]) next)
          (readElements readElement n (array ++ [element]) next)
          (first ++ elementDemands readElement demands n next)
        generalize readElements limited n (array ++ [element]) next = outcome at hrest'
        generalize readElements readElement n (array ++ [element]) next = outcome' at hrest'
        generalize elementDemands readElement demands n next = rest at hrest'
        cases hrest' with
        | returns granted' unread' =>
          exact .returns (List.forall_mem_append.mpr ⟨granted, granted'⟩) unread'
        | stops mem refused => exact .stops (List.mem_append_right _ mem) refused

theorem answers_readTyped {limited readElement : Reader UInt8 → Outcome ReadResult}
    {demands : Reader UInt8 → List Demand} {r : Reader UInt8}
    (helement : ∀ next : Reader UInt8, next.unread.length ≤ r.unread.length →
      Answers limits next (limited next) (readElement next) (demands next))
    (typeByte : UInt8) :
    Answers limits r (readTyped limits.allocates limited typeByte r)
      (readTyped unlimited readElement typeByte r)
      (typedDemands readElement demands typeByte r) := by
  obtain ⟨n, after, hn, hle⟩ := exists_readInteger r
  have hnone : typeByte ≠ arrayByte → typeByte ≠ bulkByte →
      typedDemands readElement demands typeByte r = [] := by
    intro harray hbulk
    rw [typedDemands, hn]
    cases n with
    | error err => rfl
    | ok len => simp only [if_neg harray, hbulk, false_and, if_false]
  unfold readTyped
  by_cases harray : typeByte = arrayByte
  · rw [if_pos harray, if_pos harray, typedDemands, readArray, readArray, hn]
    cases n with
    | error err => exact .returns (List.forall_mem_nil _) hle
    | ok len =>
      simp only [if_pos harray]
      exact (answers_readElements (fun next hnext ↦ helement next (hnext.trans hle)) _ []).mono hle
  · rw [if_neg harray, if_neg harray]
    by_cases hbulk : typeByte = bulkByte
    · rw [if_pos hbulk, if_pos hbulk, typedDemands, hn]
      cases n with
      | error err =>
        rw [readBulk, readBulk, hn]
        exact .returns (List.forall_mem_nil _) hle
      | ok len =>
        simp only [hbulk, true_and]
        exact answers_readBulk hn hle
    · rw [if_neg hbulk, if_neg hbulk, hnone harray hbulk]
      split
      · exact answers_readText _ r
      · split
        · exact answers_readText _ r
        · split
          · exact answers_readIntegerValue r
          · exact .returns (List.forall_mem_nil _) le_rfl

/-- A bound above the unread bytes is never exhausted: every level of arrays has taken a byte. -/
theorem answers_readWithin {depth level : ℕ} {r : Reader UInt8} (hdepth : r.unread.length < depth) :
    Answers limits r (readWithin limits.allocates (limits.stack - level) r)
      (readWithin unlimited depth r) (demandsWithin depth level r) := by
  induction depth generalizing level r with
  | zero => exact absurd hdepth (Nat.not_lt_zero _)
  | succ depth ih =>
    by_cases hstack : level < limits.stack
    · have hlevel : limits.stack - level = limits.stack - (level + 1) + 1 := by omega
      rw [hlevel, readWithin, readWithin, demandsWithin]
      have hcall : limits.Grants (.call level) := hstack
      rcases r.readByte_spec with ⟨hnone, -⟩ | ⟨b, next, hsome, hcons⟩
      · rw [hnone]
        exact .returns (List.forall_mem_singleton.mpr hcall) le_rfl
      · rw [hcons, List.length_cons] at hdepth
        rw [hsome]
        refine ((answers_readTyped (fun other hother ↦ ih (by omega)) b).mono ?_).cons hcall
        rw [hcons]
        exact Nat.le_succ _
    · have hzero : limits.stack - level = 0 := by omega
      rw [hzero, readWithin, demandsWithin]
      exact .stops List.mem_cons_self hstack

end Answers

theorem answers_readOn (limits : Limits) (r : Reader UInt8) :
    Answers limits r (readOn limits r) (read r) (demands r) :=
  @answers_readWithin limits _ 0 r (Nat.lt_succ_self _)

/-- On every machine and every stream, however it arrives, `Read` returns a value or an error
exactly if the machine grants all that the stream asks for: no bulk header that `Read` comes to, at
whatever depth of arrays, has a negative length other than -1 or one for which there is no memory,
and the arrays are not nested deeper than the stack is. What it returns does not depend on the
machine. -/
theorem read_returns_iff (limits : Limits) (r : Reader UInt8) :
    ((∃ result, readOn limits r = .ok result) ↔ ∀ demand ∈ demands r, limits.Grants demand) ∧
      ∀ result, readOn limits r = .ok result → read r = .ok result := by
  have hread := answers_readOn limits r
  generalize readOn limits r = limited at hread ⊢
  generalize read r = outcome at hread ⊢
  generalize demands r = demands at hread ⊢
  cases hread with
  | @returns result _ granted unread =>
    exact ⟨⟨fun _ ↦ granted, fun _ ↦ ⟨result, rfl⟩⟩, fun _ hresult ↦ hresult⟩
  | @stops fault _ _ demand mem refused =>
    refine ⟨⟨?_, fun hgranted ↦ absurd (hgranted demand mem) refused⟩, ?_⟩
    · rintro ⟨result, hresult⟩
      cases hresult
    · intro result hresult
      cases hresult

/-! ### Streams that are not answered -/

/-- Arrays of one element inside each other. -/
def nested (n : ℕ) : GoString := (List.replicate n (text "*1\r\n")).flatten

/-- Arrays that are nested as deep as the stack is overflow it. -/
theorem readWithin_nested (allocates : ℕ → Bool) {n : ℕ} {r : Reader UInt8} {rest : GoString}
    (hunread : r.unread = nested n ++ rest) :
    readWithin allocates n r = .error .exhausted := by
  induction n generalizing r with
  | zero => rfl
  | succ n ih =>
    have hfirst : r.unread = arrayByte :: (itoa 1 ++ crlf ++ (nested n ++ rest)) := by
      rw [hunread, nested, List.replicate_succ, List.flatten_cons, List.append_assoc]
      rfl
    have hlength : r.advance.unread = itoa 1 ++ crlf ++ (nested n ++ rest) := by
      rw [Reader.unread_advance, hfirst, List.tail_cons]
    have helements : (r.advance.consume (itoa 1 ++ crlf).length).unread = nested n ++ rest := by
      rw [Reader.unread_consume, hlength, List.drop_left]
    rw [readWithin, Reader.readByte_eq hfirst]
    show readArray (readWithin allocates n) r.advance = _
    rw [readArray, readInteger_eq (by decide) hlength]
    show readElements (readWithin allocates n) 1 [] _ = _
    rw [readElements, ih helements]
    rfl

/-- A stream that asks for what no machine grants. -/
theorem not_returns {r : Reader UInt8} {demand : Demand} (hmem : demand ∈ demands r)
    (hrefused : ∀ limits : Limits, ¬ limits.Grants demand) :
    ¬ ∃ limits result, readOn limits r = .ok result := by
  rintro ⟨limits, result, hresult⟩
  have hread := answers_readOn limits r
  rw [hresult] at hread
  generalize read r = outcome at hread
  cases hread with
  | returns granted unread => exact hrefused limits (granted demand hmem)

/-- On no machine does `Read` return for a bulk header with the length -2, alone or inside two
arrays, for one with the largest length that is accepted, or for arrays that are nested as deep as
the stack is. -/
theorem read_never_returns :
    (¬ ∃ limits result, readOn limits (newResp (.ofChunks [text "$-2\r\n"])) = .ok result) ∧
      (¬ ∃ limits result, readOn limits
        (newResp (.ofChunks [text "*1\r\n*2\r\n:7\r\n$-2\r\n"])) = .ok result) ∧
      (¬ ∃ limits result, readOn limits
        (newResp (.ofChunks [text "$9223372036854775807\r\n"])) = .ok result) ∧
      ¬ ∃ limits result, readOn limits
        (newResp (.ofChunks [nested limits.stack])) = .ok result := by
  have hnegative : ∀ limits : Limits, ¬ limits.Grants (.slice (-2)) := fun limits hgrants ↦
    absurd hgrants.1 (by decide)
  have hlarge : ∀ limits : Limits, ¬ limits.Grants (.slice 9223372036854775807) :=
    fun limits hgrants ↦ absurd (limits.allocates_le _ hgrants.2) (by decide)
  refine ⟨@not_returns _ (.slice (-2)) (by decide) hnegative,
    @not_returns _ (.slice (-2)) (by decide) hnegative,
    @not_returns _ (.slice 9223372036854775807) (by decide) hlarge, ?_⟩
  rintro ⟨limits, result, hresult⟩
  have hunread : (newResp (.ofChunks [nested limits.stack])).unread =
      nested limits.stack ++ [] := by
    rw [List.append_nil]
    exact Source.content_file (nested limits.stack)
  rw [readOn, readWithin_nested limits.allocates hunread] at hresult
  cases hresult

end FluxCache.Resp
