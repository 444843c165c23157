import FluxCache.Foundation.Runtime

/-!
# Files

An open file has its bytes and an offset that every call moves. A write overwrites what follows the
offset and extends the file where it reaches past the end (`File.write`), so at the end of the file
it appends (`File.bytes_write_atEnd`). A file that was opened and never read is overwritten from its
start (`File.Overwritten`). Writes succeed completely, and a file has no other writer.
-/

set_option autoImplicit false
set_option relaxedAutoImplicit false

namespace FluxCache.Foundation

/-- An open file. -/
structure File where
  bytes : GoString
  offset : ℕ
  deriving DecidableEq

namespace File

/-- `os.OpenFile` without `O_APPEND` and without `O_TRUNC`. -/
def openFile (bytes : GoString) : File := ⟨bytes, 0⟩

/-- `File.Write`. Between the end of the file and an offset behind it come zeros. -/
def write (file : File) (data : GoString) : File :=
  if data = [] then file
  else
    ⟨file.bytes.take file.offset ++ List.replicate (file.offset - file.bytes.length) 0 ++ data ++
        file.bytes.drop (file.offset + data.length),
      file.offset + data.length⟩

/-- `File.Seek` to the start. -/
def seekStart (file : File) : File := { file with offset := 0 }

/-- `File.Seek` to the end. -/
def seekEnd (file : File) : File := { file with offset := file.bytes.length }

/-- `io.ReadAll`. -/
def readAll (file : File) : GoString × File :=
  (file.bytes.drop file.offset, { file with offset := max file.offset file.bytes.length })

/-- The offset is the end of the file. -/
def AtEnd (file : File) : Prop := file.offset = file.bytes.length

theorem atEnd_seekEnd (file : File) : file.seekEnd.AtEnd := rfl

theorem readAll_seekStart (file : File) : file.seekStart.readAll = (file.bytes, file.seekEnd) := by
  rw [readAll, seekStart, seekEnd, List.drop_zero, Nat.zero_max]

theorem bytes_write_atEnd {file : File} (h : file.AtEnd) (data : GoString) :
    (file.write data).bytes = file.bytes ++ data := by
  unfold AtEnd at h
  unfold write
  by_cases hdata : data = []
  · rw [if_pos hdata, hdata, List.append_nil]
  · rw [if_neg hdata, h, List.take_length, Nat.sub_self, List.replicate_zero, List.append_nil,
      List.drop_eq_nil_of_le (Nat.le_add_right ..), List.append_nil]

theorem AtEnd.write {file : File} (h : file.AtEnd) (data : GoString) : (file.write data).AtEnd := by
  have hbytes := bytes_write_atEnd h data
  unfold AtEnd at h ⊢
  rw [hbytes, List.length_append, ← h, File.write]
  by_cases hdata : data = []
  · rw [if_pos hdata, hdata, List.length_nil, Nat.add_zero]
  · rw [if_neg hdata]

/-- The file had some bytes when it was opened, and since then `data` was written to it. -/
structure Overwritten (file : File) (bytes data : GoString) : Prop where
  offset : file.offset = data.length
  bytes : file.bytes = data ++ bytes.drop data.length

theorem overwritten_openFile (bytes : GoString) : (openFile bytes).Overwritten bytes [] :=
  ⟨rfl, rfl⟩

theorem Overwritten.write {file : File} {bytes data : GoString} (h : file.Overwritten bytes data)
    (more : GoString) : (file.write more).Overwritten bytes (data ++ more) := by
  unfold File.write
  by_cases hmore : more = []
  · rw [if_pos hmore, hmore, List.append_nil]
    exact h
  · have hlength : file.offset - file.bytes.length = 0 := by
      rw [h.offset, h.bytes, List.length_append]
      omega
    rw [if_neg hmore, hlength, h.offset, h.bytes, List.take_left, List.replicate_zero,
      List.append_nil, List.drop_length_add_append, List.drop_drop]
    refine ⟨?_, ?_⟩
    · rw [List.length_append]
    · rw [List.length_append]

end File

end FluxCache.Foundation
