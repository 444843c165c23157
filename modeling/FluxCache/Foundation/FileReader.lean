import FluxCache.Foundation.Bufio

/-!
# Readers of a file

A file is a source with one chunk: a read gives as much as it is asked for, up to the end
(`Source.read_file`) and up to the most that one read gives (`Reader.read_file_large`). A reader of
a file and a reader of the same file with more behind it give the same as long as the first one has
not come to its end. `Reader.Ahead` relates the two: the longer file has more in its source, or what
it has more has reached the buffer already. One element (`Ahead.advance`) and one read
(`Ahead.read`) keep the relation.
-/

set_option autoImplicit false
set_option relaxedAutoImplicit false

namespace FluxCache.Foundation

variable {α : Type*}

/-- The source of a file. -/
def Source.file (content : List α) : Source α := .ofChunks [content]

namespace Source

theorem chunks_file {content : List α} (hcontent : content ≠ []) :
    (file content).chunks = [content] :=
  chunks_ofChunks (List.forall_mem_singleton.mpr hcontent)

@[simp] theorem content_file (bytes : List α) : (file bytes).content = bytes := by
  by_cases hbytes : bytes = []
  · rw [hbytes]
    rfl
  · rw [content, chunks_file hbytes, List.flatten_singleton]

theorem read_file (bytes : List α) (max : ℕ) :
    (file bytes).read max = (bytes.take max, file (bytes.drop max)) := by
  by_cases hbytes : bytes = []
  · rw [hbytes, List.take_nil, List.drop_nil]
    rfl
  · have hsource : file bytes = ⟨[bytes], List.forall_mem_singleton.mpr hbytes⟩ :=
      Source.ext (chunks_file hbytes)
    rw [hsource, read]
    by_cases hmax : bytes.length ≤ max
    · rw [dif_pos hmax, List.take_of_length_le hmax, List.drop_eq_nil_of_le hmax]
      rfl
    · have hrest : bytes.drop max ≠ [] := fun hnil ↦ hmax (List.drop_eq_nil_iff.mp hnil)
      rw [dif_neg hmax]
      exact congrArg (Prod.mk _) (Source.ext (chunks_file hrest).symm)

end Source

namespace Reader

variable {rest : List α} {r s : Reader α}

/-- The second reader reads the file of the first with `rest` behind it. -/
inductive Ahead (rest : List α) : Reader α → Reader α → Prop
  | source (buffered bytes : List α) :
    Ahead rest ⟨buffered, .file bytes⟩ ⟨buffered, .file (bytes ++ rest)⟩
  | buffer (buffered : List α) {more later : List α} (hrest : more ++ later = rest) :
    Ahead rest ⟨buffered, .file []⟩ ⟨buffered ++ more, .file later⟩

/-- A read of the source that fills the buffer, or passes it by. -/
theorem ahead_fill (bytes : List α) (max : ℕ) :
    Ahead rest ⟨bytes.take max, .file (bytes.drop max)⟩
      ⟨(bytes ++ rest).take max, .file ((bytes ++ rest).drop max)⟩ := by
  by_cases hmax : max ≤ bytes.length
  · rw [List.take_append_of_le_length hmax, List.drop_append_of_le_length hmax]
    exact .source _ _
  · have hall := Nat.le_of_not_le hmax
    rw [List.take_of_length_le hall, List.drop_eq_nil_of_le hall, List.take_append,
      List.drop_append, List.take_of_length_le hall, List.drop_eq_nil_of_le hall]
    exact .buffer _ (List.take_append_drop _ _)

/-- What both have in the buffer is the same. -/
theorem Ahead.drop (h : Ahead rest r s) {n : ℕ} (hn : n ≤ r.buffered.length) :
    s.buffered.take n = r.buffered.take n ∧
      Ahead rest ⟨r.buffered.drop n, r.source⟩ ⟨s.buffered.drop n, s.source⟩ := by
  cases h with
  | source buffered bytes => exact ⟨rfl, .source _ _⟩
  | buffer buffered hrest =>
    refine ⟨List.take_append_of_le_length hn, ?_⟩
    show Ahead rest _ ⟨(buffered ++ _).drop n, _⟩
    rw [List.drop_append_of_le_length hn]
    exact .buffer _ hrest

theorem advance_of_ne_nil (h : r.buffered ≠ []) :
    r.advance = ⟨r.buffered.drop 1, r.source⟩ :=
  consume_of_le (List.length_pos_of_ne_nil h)

/-- An empty buffer is filled first. -/
theorem advance_file {bytes : List α} (hbytes : bytes ≠ []) :
    (⟨[], .file bytes⟩ : Reader α).advance =
      ⟨(bytes.take bufferSize).drop 1, .file (bytes.drop bufferSize)⟩ := by
  have hne : bytes.take bufferSize ≠ [] := by
    intro hnil
    rcases List.take_eq_nil_iff.mp hnil with hzero | hempty
    · exact absurd hzero (by decide)
    · exact hbytes hempty
  obtain ⟨b, front, hfront⟩ := List.exists_cons_of_ne_nil hne
  rw [advance, readByte, Source.read_file, hfront]
  rfl

/-- One element that the shorter file still has keeps the relation. -/
theorem Ahead.advance (h : Ahead rest r s) (hunread : r.unread ≠ []) :
    Ahead rest r.advance s.advance := by
  by_cases hempty : r.buffered = []
  · cases h with
    | source buffered bytes =>
      obtain rfl : buffered = [] := hempty
      rw [unread, List.nil_append, Source.content_file] at hunread
      have hlonger : bytes ++ rest ≠ [] := List.append_ne_nil_of_left_ne_nil hunread rest
      rw [advance_file hunread, advance_file hlonger]
      refine ((ahead_fill bytes bufferSize).drop ?_).2
      rw [List.length_take]
      exact Nat.le_min.mpr ⟨by decide, List.length_pos_of_ne_nil hunread⟩
    | buffer buffered hrest =>
      obtain rfl : buffered = [] := hempty
      exact absurd rfl hunread
  · have hlonger : s.buffered ≠ [] := by
      cases h with
      | source buffered bytes => exact hempty
      | buffer buffered hrest => exact List.append_ne_nil_of_left_ne_nil hempty _
    rw [advance_of_ne_nil hempty, advance_of_ne_nil hlonger]
    exact (h.drop (List.length_pos_of_ne_nil hempty)).2

theorem Ahead.consume (h : Ahead rest r s) {m : ℕ} (hm : m ≤ r.unread.length) :
    Ahead rest (r.consume m) (s.consume m) := by
  induction m generalizing r s with
  | zero => exact h
  | succ m ih =>
    have hunread : r.unread ≠ [] := List.ne_nil_of_length_pos (Nat.zero_lt_of_lt hm)
    rw [consume_succ, consume_succ]
    refine ih (h.advance hunread) ?_
    rw [unread_advance, List.length_tail]
    exact Nat.le_sub_one_of_lt hm

theorem read_file_large {n : ℕ} (hn : bufferSize ≤ n) (bytes : List α) :
    (⟨[], .file bytes⟩ : Reader α).read n =
      (bytes.take (min n maxRW), ⟨[], .file (bytes.drop (min n maxRW))⟩) := by
  have hzero : n ≠ 0 := by
    rintro rfl
    exact absurd hn (by decide)
  rw [read, if_neg hzero, if_pos rfl, if_pos hn, Source.read_file]

theorem read_file_small {n : ℕ} (hzero : n ≠ 0) (hn : ¬ bufferSize ≤ n) (bytes : List α) :
    (⟨[], .file bytes⟩ : Reader α).read n =
      ((bytes.take bufferSize).take n,
        ⟨(bytes.take bufferSize).drop n, .file (bytes.drop bufferSize)⟩) := by
  rw [read, if_neg hzero, if_pos rfl, if_neg hn, Source.read_file]

/-- One read of elements that the shorter file still has gives the same and keeps the relation. -/
theorem Ahead.read (h : Ahead rest r s) {n : ℕ} (hn : n ≤ r.unread.length) :
    (s.read n).1 = (r.read n).1 ∧ Ahead rest (r.read n).2 (s.read n).2 := by
  by_cases hzero : n = 0
  · rw [Reader.read, if_pos hzero, Reader.read, if_pos hzero]
    exact ⟨rfl, h⟩
  · cases h with
    | source buffered bytes =>
      by_cases hempty : buffered = []
      · subst hempty
        rw [unread, List.nil_append, Source.content_file] at hn
        by_cases hlarge : bufferSize ≤ n
        · have hgot : min n maxRW ≤ bytes.length := (Nat.min_le_left n maxRW).trans hn
          rw [read_file_large hlarge, read_file_large hlarge, List.take_append_of_le_length hgot,
            List.drop_append_of_le_length hgot]
          exact ⟨rfl, .source _ _⟩
        · rw [read_file_small hzero hlarge, read_file_small hzero hlarge]
          refine (ahead_fill bytes bufferSize).drop ?_
          rw [List.length_take]
          exact Nat.le_min.mpr ⟨Nat.le_of_not_le hlarge, hn⟩
      · rw [Reader.read, if_neg hzero, if_neg hempty, Reader.read, if_neg hzero, if_neg hempty]
        exact ⟨rfl, .source _ _⟩
    | @buffer buffered more later hrest =>
      rw [unread, Source.content_file, List.append_nil] at hn
      have hlonger : n ≤ (buffered ++ more).length := by
        rw [List.length_append]
        exact Nat.le_add_right_of_le hn
      rw [read_of_le hn, read_of_le hlonger]
      exact (Ahead.buffer buffered hrest).drop hn

end Reader

end FluxCache.Foundation
