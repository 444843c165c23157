import FluxCache.Foundation.Records
import FluxCache.Foundation.Runtime
import Mathlib.Logic.Function.Iterate
import Mathlib.Tactic.Common

/-!
# Buffered readers

A source delivers its elements in nonempty chunks and then ends. A buffered reader holds what it has
taken from the source and not given out. `Reader.readByte` gives one element and asks the source
when the buffer is empty. `Reader.read` gives at most as many elements as are asked for, and asks
the source at most once, so that it can give fewer. Of the source one read takes at most `maxRW`.

Neither loses or reorders anything: what is unread is the buffer followed by what the source has
still to deliver (`Reader.readByte_eq`, `Reader.read_append_unread`).
-/

set_option autoImplicit false
set_option relaxedAutoImplicit false

namespace FluxCache.Foundation

variable {α : Type*}

/-- A source that delivers chunks and then ends. -/
@[ext]
structure Source (α : Type*) where
  chunks : List (List α)
  nonempty : ∀ chunk ∈ chunks, chunk ≠ []

namespace Source

/-- Everything that the source has still to deliver. -/
def content (source : Source α) : List α := source.chunks.flatten

/-- The source of a list of chunks, of which the empty ones are not delivered. -/
def ofChunks (chunks : List (List α)) : Source α :=
  ⟨chunks.filter fun chunk ↦ !chunk.isEmpty, fun chunk hchunk hnil ↦ by simp [hnil] at hchunk⟩

theorem chunks_ofChunks {chunks : List (List α)} (h : ∀ chunk ∈ chunks, chunk ≠ []) :
    (ofChunks chunks).chunks = chunks := by
  refine List.filter_eq_self.mpr fun chunk hchunk ↦ ?_
  simpa using h chunk hchunk

theorem length_chunks_le (source : Source α) : source.chunks.length ≤ source.content.length := by
  have hle := length_le_length_flatMap id source.nonempty
  rwa [List.flatMap_id] at hle

/-- A source that has ended has no chunks. -/
theorem eq_of_content_nil {source other : Source α} (hsource : source.content = [])
    (hother : other.content = []) : source = other := by
  have hnil {source : Source α} (h : source.content = []) : source.chunks = [] := by
    have hle := source.length_chunks_le
    rw [h] at hle
    exact List.eq_nil_of_length_eq_zero (Nat.le_zero.mp hle)
  exact Source.ext ((hnil hsource).trans (hnil hother).symm)

/-- One read of at most `max` elements: the first chunk, as far as it fits. Nothing is delivered at
the end of the source. -/
def read (source : Source α) (max : ℕ) : List α × Source α :=
  match source with
  | ⟨[], nonempty⟩ => ([], ⟨[], nonempty⟩)
  | ⟨chunk :: chunks, nonempty⟩ =>
    if hfits : chunk.length ≤ max then
      (chunk, ⟨chunks, fun c hc ↦ nonempty c (List.mem_cons_of_mem _ hc)⟩)
    else
      (chunk.take max, ⟨chunk.drop max :: chunks, by
        intro c hc
        rcases List.mem_cons.mp hc with rfl | hc
        · intro hnil
          exact hfits (List.drop_eq_nil_iff.mp hnil)
        · exact nonempty c (List.mem_cons_of_mem _ hc)⟩)

theorem read_append_content (source : Source α) (max : ℕ) :
    (source.read max).1 ++ (source.read max).2.content = source.content := by
  obtain ⟨_ | ⟨chunk, chunks⟩, nonempty⟩ := source
  · rfl
  · unfold read
    by_cases hfits : chunk.length ≤ max
    · simp [hfits, content]
    · simp only [hfits, dite_false, content, List.flatten_cons]
      rw [← List.append_assoc, List.take_append_drop]

/-- A read delivers nothing only at the end. -/
theorem read_ne_nil {source : Source α} {max : ℕ} (hmax : 0 < max)
    (hcontent : source.content ≠ []) :
    (source.read max).1 ≠ [] := by
  obtain ⟨_ | ⟨chunk, chunks⟩, nonempty⟩ := source
  · exact absurd rfl hcontent
  · have hchunk : chunk ≠ [] := nonempty chunk List.mem_cons_self
    unfold read
    by_cases hfits : chunk.length ≤ max
    · simpa [hfits] using hchunk
    · simp [hfits, hchunk, Nat.pos_iff_ne_zero.mp hmax]

/-- A read takes nothing from the chunks after the first. -/
theorem suffix_read {source : Source α} {later : List (List α)} {first : List α}
    {chunks : List (List α)} (hchunks : source.chunks = first :: chunks)
    (hlater : later <:+ chunks) (max : ℕ) : later <:+ (source.read max).2.chunks := by
  obtain ⟨_, nonempty⟩ := source
  subst hchunks
  unfold read
  by_cases hfits : first.length ≤ max
  · simpa only [hfits, dite_true] using hlater
  · simpa only [hfits, dite_false] using hlater.trans (List.suffix_cons _ _)

end Source

/-- A buffered reader. -/
@[ext]
structure Reader (α : Type*) where
  buffered : List α
  source : Source α

namespace Reader

/-- The size of the buffer. -/
def bufferSize : ℕ := 4096

/-- A reader that has read nothing. -/
def new (source : Source α) : Reader α := ⟨[], source⟩

/-- Everything that the reader has still to give. -/
def unread (r : Reader α) : List α := r.buffered ++ r.source.content

/-- Gives one element, after a read of the source if the buffer is empty. -/
def readByte (r : Reader α) : Option (α × Reader α) :=
  match r.buffered with
  | b :: rest => some (b, ⟨rest, r.source⟩)
  | [] =>
    match r.source.read bufferSize with
    | ([], _) => none
    | (b :: rest, source) => some (b, ⟨rest, source⟩)

/-- Gives at most `n` elements. An empty buffer is passed by when at least a buffer is asked for. -/
def read (r : Reader α) (n : ℕ) : List α × Reader α :=
  if n = 0 then ([], r)
  else if r.buffered = [] then
    if bufferSize ≤ n then
      let (got, source) := r.source.read (min n maxRW)
      (got, ⟨[], source⟩)
    else
      let (got, source) := r.source.read bufferSize
      (got.take n, ⟨got.drop n, source⟩)
  else (r.buffered.take n, ⟨r.buffered.drop n, r.source⟩)

/-- The reader after one more element, if there is one. -/
def advance (r : Reader α) : Reader α := (r.readByte.map Prod.snd).getD r

/-- The reader after `m` more elements. -/
def consume (m : ℕ) (r : Reader α) : Reader α := advance^[m] r

/-! ### Single elements -/

theorem readByte_spec (r : Reader α) :
    (r.readByte = none ∧ r.unread = []) ∨
      ∃ b r', r.readByte = some (b, r') ∧ r.unread = b :: r'.unread := by
  obtain ⟨_ | ⟨b, rest⟩, source⟩ := r
  · have hcontent := source.read_append_content bufferSize
    cases hread : source.read bufferSize with
    | mk got after =>
      rw [hread] at hcontent
      cases got with
      | nil =>
        have hend : source.content = [] := by
          by_contra hne
          exact Source.read_ne_nil (by decide) hne (congrArg Prod.fst hread)
        exact Or.inl ⟨by simp [readByte, hread], by simp [unread, hend]⟩
      | cons b rest =>
        exact Or.inr ⟨b, ⟨rest, after⟩, by simp [readByte, hread], hcontent.symm⟩
  · exact Or.inr ⟨b, ⟨rest, source⟩, rfl, rfl⟩

/-- The first unread element is given. -/
theorem readByte_eq {r : Reader α} {b : α} {rest : List α} (hunread : r.unread = b :: rest) :
    r.readByte = some (b, r.advance) := by
  rcases r.readByte_spec with ⟨_, hnil⟩ | ⟨b', r', hsome, hcons⟩
  · exact absurd (hunread.symm.trans hnil) (List.cons_ne_nil _ _)
  · obtain ⟨rfl, _⟩ := List.cons.inj (hunread.symm.trans hcons)
    rw [advance, hsome]
    rfl

theorem readByte_of_end {r : Reader α} (hunread : r.unread = []) : r.readByte = none := by
  rcases r.readByte_spec with ⟨hnone, _⟩ | ⟨b, r', _, hcons⟩
  · exact hnone
  · exact absurd (hcons.symm.trans hunread) (List.cons_ne_nil _ _)

theorem unread_advance (r : Reader α) : r.advance.unread = r.unread.tail := by
  unfold advance
  rcases r.readByte_spec with ⟨hnone, hnil⟩ | ⟨b, r', hsome, hcons⟩
  · simp [hnone, hnil]
  · simp [hsome, hcons]

theorem consume_succ (m : ℕ) (r : Reader α) : r.consume (m + 1) = r.advance.consume m := rfl

theorem unread_consume (m : ℕ) (r : Reader α) : (r.consume m).unread = r.unread.drop m := by
  induction m generalizing r with
  | zero => rfl
  | succ m ih => rw [consume_succ, ih, unread_advance, List.drop_tail]

/-- While the buffer lasts the source is not read. -/
theorem consume_of_le {m : ℕ} {r : Reader α} (hm : m ≤ r.buffered.length) :
    r.consume m = ⟨r.buffered.drop m, r.source⟩ := by
  induction m generalizing r with
  | zero => rfl
  | succ m ih =>
    obtain ⟨_ | ⟨b, rest⟩, source⟩ := r
    · exact absurd hm (Nat.not_succ_le_zero m)
    · have hadvance : (⟨b :: rest, source⟩ : Reader α).advance = ⟨rest, source⟩ := rfl
      rw [consume_succ, hadvance, ih (Nat.le_of_succ_le_succ hm)]
      rfl

/-! ### Several elements -/

theorem read_append_unread (r : Reader α) (n : ℕ) :
    (r.read n).1 ++ (r.read n).2.unread = r.unread := by
  unfold read
  by_cases hn : n = 0
  · simp [hn]
  · by_cases hempty : r.buffered = []
    · by_cases hlarge : bufferSize ≤ n
      · simpa [hn, hempty, hlarge, unread] using
          r.source.read_append_content (min n maxRW)
      · simpa [hn, hempty, hlarge, unread, ← List.append_assoc] using
          r.source.read_append_content bufferSize
    · simp [hn, hempty, unread, ← List.append_assoc]

/-- What is buffered is given in full. -/
theorem read_of_le {n : ℕ} {r : Reader α} (hn : n ≤ r.buffered.length) :
    r.read n = (r.buffered.take n, ⟨r.buffered.drop n, r.source⟩) := by
  unfold read
  by_cases hzero : n = 0
  · simp [hzero]
  · have hne : r.buffered ≠ [] := by
      intro hnil
      rw [hnil] at hn
      exact hzero (Nat.le_zero.mp hn)
    rw [if_neg hzero, if_neg hne]

/-- When the source has ended, one read leaves what it does not give in the buffer. -/
theorem unread_read_of_end {r : Reader α} (hend : r.source.content = []) (n : ℕ) :
    (r.read n).2.unread = r.buffered.drop n := by
  have hunread : r.unread = r.buffered := by rw [unread, hend, List.append_nil]
  by_cases hn : n ≤ r.buffered.length
  · rw [read_of_le hn, unread, hend, List.append_nil]
  · have hdrop : r.buffered.drop n = [] := List.drop_eq_nil_of_le (Nat.le_of_not_le hn)
    by_cases hempty : r.buffered = []
    · have happend := r.read_append_unread n
      rw [hunread, hempty] at happend
      rw [hdrop, (List.append_eq_nil_iff.mp happend).2]
    · have hzero : n ≠ 0 := fun hzero ↦ hn (hzero ▸ Nat.zero_le _)
      rw [read, if_neg hzero, if_neg hempty, unread, hend, List.append_nil]

/-! ### Chunks that are not yet asked for -/

/-- A chunk that fits in the buffer is taken as a whole. -/
theorem readByte_new {source : Source α} {chunk : List α} {chunks : List (List α)}
    (hchunks : source.chunks = chunk :: chunks) (hfits : chunk.length ≤ bufferSize) :
    ∃ after : Source α, after.chunks = chunks ∧
      (new source).readByte = (⟨chunk, after⟩ : Reader α).readByte := by
  obtain ⟨_, nonempty⟩ := source
  subst hchunks
  obtain ⟨b, rest, rfl⟩ := List.exists_cons_of_ne_nil (nonempty chunk List.mem_cons_self)
  refine ⟨⟨chunks, fun c hc ↦ nonempty c (List.mem_cons_of_mem _ hc)⟩, rfl, ?_⟩
  have hfits' : rest.length + 1 ≤ bufferSize := hfits
  simp [readByte, new, Source.read, hfits']

/-- Assumes: more is unread than the chunks at the end. The source has a chunk before them, or the
buffer is not empty. -/
theorem exists_earlier_chunk {r : Reader α} {later : List (List α)}
    (hlater : later <:+ r.source.chunks) (hmore : later.flatten.length < r.unread.length)
    (hempty : r.buffered = []) :
    ∃ first chunks, r.source.chunks = first :: chunks ∧ later <:+ chunks := by
  obtain ⟨front, hfront⟩ := hlater
  cases front with
  | nil =>
    rw [unread, hempty, List.nil_append, Source.content, ← hfront, List.nil_append] at hmore
    exact absurd hmore (Nat.lt_irrefl _)
  | cons first front => exact ⟨first, front ++ later, hfront.symm, front, rfl⟩

theorem suffix_advance {r : Reader α} {later : List (List α)}
    (hlater : later <:+ r.source.chunks) (hmore : later.flatten.length < r.unread.length) :
    later <:+ r.advance.source.chunks := by
  cases hbuffered : r.buffered with
  | nil =>
    obtain ⟨first, chunks, hchunks, hrest⟩ := exists_earlier_chunk hlater hmore hbuffered
    have hread := Source.suffix_read hchunks hrest bufferSize
    unfold advance readByte
    rw [hbuffered]
    revert hread
    obtain ⟨got, after⟩ := r.source.read bufferSize
    cases got with
    | nil => exact fun _ ↦ hlater
    | cons b rest => exact id
  | cons b rest =>
    unfold advance readByte
    rw [hbuffered]
    exact hlater

/-- What is read byte by byte before the chunks at the end leaves them in the source. -/
theorem suffix_consume {m : ℕ} {r : Reader α} {later : List (List α)}
    (hlater : later <:+ r.source.chunks) (hmore : later.flatten.length + m ≤ r.unread.length) :
    later <:+ (r.consume m).source.chunks := by
  induction m generalizing r with
  | zero => exact hlater
  | succ m ih =>
    rw [consume_succ]
    refine ih (suffix_advance hlater (by omega)) ?_
    rw [unread_advance, List.length_tail]
    omega

/-- One read before the chunks at the end leaves them in the source. -/
theorem suffix_read {n : ℕ} {r : Reader α} {later : List (List α)}
    (hlater : later <:+ r.source.chunks) (hmore : later.flatten.length < r.unread.length) :
    later <:+ (r.read n).2.source.chunks := by
  unfold read
  by_cases hn : n = 0
  · rw [if_pos hn]
    exact hlater
  · rw [if_neg hn]
    by_cases hempty : r.buffered = []
    · obtain ⟨first, chunks, hchunks, hrest⟩ := exists_earlier_chunk hlater hmore hempty
      rw [if_pos hempty]
      by_cases hlarge : bufferSize ≤ n
      · rw [if_pos hlarge]
        exact Source.suffix_read hchunks hrest (min n maxRW)
      · rw [if_neg hlarge]
        exact Source.suffix_read hchunks hrest bufferSize
    · rw [if_neg hempty]
      exact hlater

/-- A reader that has read up to the chunks at the end has nothing else in its source. -/
theorem chunks_eq_of_suffix {r : Reader α} {later : List (List α)}
    (hlater : later <:+ r.source.chunks) (hunread : r.unread.length = later.flatten.length) :
    r.source.chunks = later := by
  obtain ⟨front, hfront⟩ := hlater
  cases front with
  | nil => exact hfront.symm
  | cons first front =>
    have hfirst : first ≠ [] := r.source.nonempty first (by rw [← hfront]; exact List.mem_cons_self)
    have hpos := List.length_pos_of_ne_nil hfirst
    rw [unread, Source.content, ← hfront, List.length_append, List.cons_append, List.flatten_cons,
      List.length_append, List.flatten_append, List.length_append] at hunread
    omega

end Reader

end FluxCache.Foundation
