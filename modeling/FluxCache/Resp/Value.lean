import FluxCache.Foundation.Decimal

/-!
# Values of the wire protocol

A `Value` has a type and one field for each kind of content, and `Value.marshal` writes it in the
wire format. The fields that do not belong to the type of a value are not written. A `WellFormed`
value has only the field of its type set; its lines contain no carriage return, and its numbers and
lengths are 64-bit integers. Of such a value nothing is lost on the wire.
-/

set_option autoImplicit false
set_option relaxedAutoImplicit false

namespace FluxCache.Resp

open Foundation

/-! ### Values -/

/-- The types of values, with the empty type of the zero value. -/
inductive ValueType
  | empty
  | array
  | bulk
  | string
  | null
  | error
  | integer
  deriving DecidableEq, Repr

/-- A value of the protocol. -/
structure Value where
  type : ValueType := .empty
  str : GoString := []
  num : ℤ := 0
  bulk : GoString := []
  array : List Value := []

namespace Value

/-- The string value of a line. -/
def ofString (str : GoString) : Value := { type := .string, str := str }

/-- The error value of a line. -/
def ofError (str : GoString) : Value := { type := .error, str := str }

/-- The value of an integer. -/
def ofInteger (num : ℤ) : Value := { type := .integer, num := num }

/-- The null value. -/
def ofNull : Value := { type := .null }

/-- The bulk value of a string. -/
def ofBulk (bulk : GoString) : Value := { type := .bulk, bulk := bulk }

/-- The array of a list of values. -/
def ofArray (array : List Value) : Value := { type := .array, array := array }

end Value

/-! ### The wire format -/

def stringByte : UInt8 := 43
def errorByte : UInt8 := 45
def integerByte : UInt8 := 58
def bulkByte : UInt8 := 36
def arrayByte : UInt8 := 42

/-- The carriage return. -/
def cr : UInt8 := 13

/-- The end of a line. -/
def crlf : GoString := [cr, 10]

/-- A type byte, a line and its end. -/
def marshalLine (typeByte : UInt8) (line : GoString) : GoString := typeByte :: (line ++ crlf)

/-- `marshalString`. -/
def marshalString (str : GoString) : GoString := marshalLine stringByte str

/-- `marshallError`. -/
def marshallError (str : GoString) : GoString := marshalLine errorByte str

/-- `marshalInteger`. -/
def marshalInteger (num : ℤ) : GoString := marshalLine integerByte (itoa num)

/-- `marshallNull`. -/
def marshallNull : GoString := text "$-1\r\n"

/-- `marshalBulk`: the length in a line, then the content and the end of a line. -/
def marshalBulk (bulk : GoString) : GoString :=
  marshalLine bulkByte (itoa bulk.length) ++ (bulk ++ crlf)

mutual

/-- `Value.Marshal`. -/
def Value.marshal : Value → GoString
  | ⟨.array, _, _, _, array⟩ => marshalLine arrayByte (itoa array.length) ++ marshalElements array
  | ⟨.bulk, _, _, bulk, _⟩ => marshalBulk bulk
  | ⟨.string, str, _, _, _⟩ => marshalString str
  | ⟨.null, _, _, _, _⟩ => marshallNull
  | ⟨.error, str, _, _, _⟩ => marshallError str
  | ⟨.integer, _, num, _, _⟩ => marshalInteger num
  | ⟨.empty, _, _, _, _⟩ => []

/-- The loop of `marshalArray`. -/
def marshalElements : List Value → GoString
  | [] => []
  | v :: vs => v.marshal ++ marshalElements vs

end

/-- The bounds of a 64-bit integer. -/
def IsInt64 (n : ℤ) : Prop := -2 ^ 63 ≤ n ∧ n < 2 ^ 63

instance (n : ℤ) : Decidable (IsInt64 n) :=
  inferInstanceAs (Decidable (-2 ^ 63 ≤ n ∧ n < 2 ^ 63))

/-- The values that survive the wire: only the field of the type is set, lines have no carriage
return, and numbers and lengths fit in 64 bits. -/
inductive WellFormed : Value → Prop
  | string {str : GoString} (hstr : cr ∉ str) : WellFormed (.ofString str)
  | error {str : GoString} (hstr : cr ∉ str) : WellFormed (.ofError str)
  | integer {num : ℤ} (hnum : IsInt64 num) : WellFormed (.ofInteger num)
  | null : WellFormed .ofNull
  | bulk {bulk : GoString} (hbulk : IsInt64 bulk.length) : WellFormed (.ofBulk bulk)
  | array {array : List Value} (hlength : IsInt64 array.length)
      (helements : ∀ v ∈ array, WellFormed v) : WellFormed (.ofArray array)

/-! ### Lines and lengths -/

theorem cr_not_mem_itoa (n : ℤ) : cr ∉ itoa n := by
  intro hmem
  rcases isDigit_of_mem_itoa hmem with hminus | hdigit
  · exact absurd hminus (by decide)
  · exact absurd hdigit.1 (by decide)

theorem marshal_ofArray (array : List Value) :
    (Value.ofArray array).marshal =
      marshalLine arrayByte (itoa array.length) ++ marshalElements array := by
  rw [Value.ofArray, Value.marshal]

theorem marshal_ofBulk (bulk : GoString) : (Value.ofBulk bulk).marshal = marshalBulk bulk := by
  rw [Value.ofBulk, Value.marshal]

/-- An element takes no more room than all the elements. -/
theorem length_marshal_le {v : Value} {array : List Value} (hv : v ∈ array) :
    v.marshal.length ≤ (marshalElements array).length := by
  induction array with
  | nil => exact absurd hv List.not_mem_nil
  | cons w array ih =>
    rw [marshalElements, List.length_append]
    rcases List.mem_cons.mp hv with rfl | hv
    · exact Nat.le_add_right _ _
    · exact (ih hv).trans (Nat.le_add_left _ _)

end FluxCache.Resp
