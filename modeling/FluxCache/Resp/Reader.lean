import FluxCache.Foundation.Bufio
import FluxCache.Resp.Value

/-!
# Reading values from a connection

The functions of the protocol reader over a buffered reader. A line ends with the first byte after a
carriage return, whatever that byte is (`readLine`). The content of a bulk value is asked for with a
single read, whose count is not looked at: what did not arrive stays zero, and the rest of the line
is then skipped (`readBulk`). The elements of an array are read one after the other until one of
them fails (`readArray`).

`readWithin` bounds the nesting of arrays and `readLineLoop` the length of a line. `read` takes a
bound that the unread bytes cannot exceed, as every array and every turn of the loop takes a byte,
and all the memory that it asks for. What becomes of a `Read` whose memory and stack have limits is
the subject of `FluxCache.Resp.Safety`.
-/

set_option autoImplicit false
set_option relaxedAutoImplicit false

namespace FluxCache.Resp

open Foundation

/-- The errors of the reader. -/
inductive ReadError
  | eof
  | number (err : NumError)
  deriving DecidableEq, Repr

/-- What a call of the reader returns, and the buffered reader after it. -/
structure ReadResult where
  value : Value
  err : Option ReadError
  reader : Reader UInt8

/-! ### Lines -/

/-- The condition on which the loop of `readLine` ends. -/
def LineEnds (bytes : GoString) : Prop := 2 ≤ bytes.length ∧ bytes[bytes.length - 2]? = some cr

instance decidableLineEnds (bytes : GoString) : Decidable (LineEnds bytes) := instDecidableAnd

/-- The loop of `readLine`, with the line read so far. -/
def readLineLoop : ℕ → GoString → Reader UInt8 →
    Outcome (Except ReadError GoString × Reader UInt8)
  | 0, _, _ => .error .exhausted
  | bound + 1, line, r =>
    match r.readByte with
    | none => .ok (.error .eof, r)
    | some (b, r) =>
      let line := line ++ [b]
      if LineEnds line then .ok (.ok (line.take (line.length - 2)), r)
      else readLineLoop bound line r

/-- `readLine`. -/
def readLine (r : Reader UInt8) : Outcome (Except ReadError GoString × Reader UInt8) :=
  readLineLoop (r.unread.length + 1) [] r

/-- `readInteger`. -/
def readInteger (r : Reader UInt8) : Outcome (Except ReadError ℤ × Reader UInt8) := do
  let (line, r) ← readLine r
  return (line >>= fun line ↦ (parseInt line).mapError .number, r)

/-! ### Values -/

/-- A value that is a line of text, or the error of reading the line. -/
def readText (value : GoString → Value) (r : Reader UInt8) : Outcome ReadResult := do
  let (line, r) ← readLine r
  match line with
  | .error err => return ⟨{}, some err, r⟩
  | .ok line => return ⟨value line, none, r⟩

/-- `readSimpleString`. -/
def readSimpleString (r : Reader UInt8) : Outcome ReadResult := readText .ofString r

/-- `readError`. -/
def readError (r : Reader UInt8) : Outcome ReadResult := readText .ofError r

/-- `readIntegerValue`. -/
def readIntegerValue (r : Reader UInt8) : Outcome ReadResult := do
  let (n, r) ← readInteger r
  match n with
  | .error err => return ⟨{}, some err, r⟩
  | .ok n => return ⟨.ofInteger n, none, r⟩

/-- A slice of zero bytes. A negative length is a fault, and so is one that is not allocated. -/
def makeBytes (allocates : ℕ → Bool) (len : ℤ) : Outcome GoString :=
  if len < 0 then .error .negativeLength
  else if allocates len.toNat then .ok (List.replicate len.toNat 0)
  else .error .outOfMemory

/-- `readBulk`: the bytes that one read gives stand at the front of the slice. -/
def readBulk (allocates : ℕ → Bool) (r : Reader UInt8) : Outcome ReadResult := do
  let (len, r) ← readInteger r
  match len with
  | .error err => return ⟨{ type := .bulk }, some err, r⟩
  | .ok len =>
    if len = -1 then return ⟨.ofNull, none, r⟩
    let bulk ← makeBytes allocates len
    let (got, r) := r.read bulk.length
    let (_, r) ← readLine r
    return ⟨.ofBulk (got ++ bulk.drop got.length), none, r⟩

/-- The loop of `readArray`, with the elements read so far. -/
def readElements (readElement : Reader UInt8 → Outcome ReadResult) :
    ℕ → List Value → Reader UInt8 → Outcome ReadResult
  | 0, array, r => return ⟨.ofArray array, none, r⟩
  | n + 1, array, r => do
    let element ← readElement r
    match element.err with
    | some err => return ⟨.ofArray array, some err, element.reader⟩
    | none => readElements readElement n (array ++ [element.value]) element.reader

/-- `readArray`. A negative length makes no turn of the loop. -/
def readArray (readElement : Reader UInt8 → Outcome ReadResult) (r : Reader UInt8) :
    Outcome ReadResult := do
  let (len, r) ← readInteger r
  match len with
  | .error err => return ⟨{ type := .array }, some err, r⟩
  | .ok len => readElements readElement len.toNat [] r

/-- The switch of `Resp.Read` on the type byte. -/
def readTyped (allocates : ℕ → Bool) (readElement : Reader UInt8 → Outcome ReadResult)
    (typeByte : UInt8) (r : Reader UInt8) : Outcome ReadResult :=
  if typeByte = arrayByte then readArray readElement r
  else if typeByte = bulkByte then readBulk allocates r
  else if typeByte = stringByte then readSimpleString r
  else if typeByte = errorByte then readError r
  else if typeByte = integerByte then readIntegerValue r
  else return ⟨{}, none, r⟩

/-- `Resp.Read`, for values with fewer than `depth` levels. -/
def readWithin (allocates : ℕ → Bool) : ℕ → Reader UInt8 → Outcome ReadResult
  | 0, _ => .error .exhausted
  | depth + 1, r =>
    match r.readByte with
    | none => return ⟨{}, some .eof, r⟩
    | some (typeByte, r) => readTyped allocates (readWithin allocates depth) typeByte r

/-- Memory for slices of every length. -/
def unlimited : ℕ → Bool := fun _ ↦ true

/-- `Resp.Read`. -/
def read (r : Reader UInt8) : Outcome ReadResult := readWithin unlimited (r.unread.length + 1) r

/-- `NewResp`. -/
def newResp (source : Source UInt8) : Reader UInt8 := Reader.new source

end FluxCache.Resp
