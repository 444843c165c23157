import FluxCache.Foundation.PaddedRead

/-!
# Files that end early

A crash leaves some first bytes of a file. What does a program that reads with the readers of
`FluxCache.Foundation.PaddedRead` make of them? The answer grows byte by byte, and this module
describes one byte.

A reader is `Tight` if it reads the same of a longer input unless it has used its input up, and then
takes the next byte or leaves just that byte. A reader that passes items on is `Gradual` if it never
takes back all items when a byte is added, and if the first items that it passes on are of a kind
given in advance. Both are kept when readers are put one after another (`Tight.bind`,
`Gradual.bind`, `Gradual.seq`). So a gradual reader passes on nothing of a file, or of some part of
it the first items (`Gradual.exists_first`), and nothing of the parts of a file of which it passes
on nothing (`Gradual.silent_of_isPrefix`).
-/

set_option autoImplicit false
set_option relaxedAutoImplicit false

namespace FluxCache.Foundation

/-! ### One more byte -/

/-- A reader that reads the same of a longer input unless it has used its input up. -/
structure Tight {α : Type} (read : GoString → α × GoString) : Prop where
  nil : (read []).2 = []
  steady : ∀ input b, (read input).2 ≠ [] →
    read (input ++ [b]) = ((read input).1, (read input).2 ++ [b])
  used : ∀ input b, (read input).2 = [] →
    (read (input ++ [b])).2 = [] ∨ (read (input ++ [b])).2 = [b]

/-- A tight reader that passes items on: nothing of an empty input, something of a longer input if
something of a shorter one, and first of all items of a given kind. -/
structure Gradual {β : Type} (First : List β → Prop) (read : GoString → List β × GoString) : Prop
    extends Tight read where
  silent : (read []).1 = []
  keep : ∀ input b, (read input).2 = [] → (read input).1 ≠ [] → (read (input ++ [b])).1 ≠ []
  first : ∀ input b, (read input).2 = [] → (read input).1 = [] →
    (read (input ++ [b])).1 = [] ∨
      First (read (input ++ [b])).1 ∧ (read (input ++ [b])).2 = []

section Compose

variable {α β γ : Type} {First : List β → Prop}

theorem Tight.map {read : GoString → α × GoString} (h : Tight read) (f : α → γ) :
    Tight fun input ↦ (f (read input).1, (read input).2) where
  nil := h.nil
  steady := fun input b hrest ↦ by rw [h.steady input b hrest]
  used := h.used

/-- A reader after another. -/
theorem Tight.bind {read : GoString → α × GoString} (h : Tight read)
    {next : α → GoString → γ × GoString} (hnext : ∀ input, Tight (next (read input).1)) :
    Tight fun input ↦ next (read input).1 (read input).2 where
  nil := by
    rw [h.nil]
    exact (hnext []).nil
  steady := by
    intro input b hrest
    have hleft : (read input).2 ≠ [] := by
      intro hnil
      rw [hnil] at hrest
      exact hrest (hnext input).nil
    rw [h.steady input b hleft]
    exact (hnext input).steady _ b hrest
  used := by
    intro input b hrest
    by_cases hleft : (read input).2 = []
    · rcases h.used input b hleft with hafter | hafter
      · rw [hafter]
        exact .inl (hnext (input ++ [b])).nil
      · rw [hafter]
        exact (hnext (input ++ [b])).used [] b (hnext (input ++ [b])).nil
    · rw [h.steady input b hleft]
      exact (hnext input).used _ b hrest

/-- A gradual reader after a tight one. -/
theorem Gradual.bind {read : GoString → α × GoString} (h : Tight read)
    {next : α → GoString → List β × GoString}
    (hnext : ∀ input, Gradual First (next (read input).1)) :
    Gradual First fun input ↦ next (read input).1 (read input).2 where
  toTight := h.bind fun input ↦ (hnext input).toTight
  silent := by
    rw [h.nil]
    exact (hnext []).silent
  keep := by
    intro input b hrest hitems
    have hleft : (read input).2 ≠ [] := by
      intro hnil
      rw [hnil] at hitems
      exact hitems (hnext input).silent
    rw [h.steady input b hleft]
    exact (hnext input).keep _ b hrest hitems
  first := by
    intro input b hrest hitems
    have hafter := hnext (input ++ [b])
    by_cases hleft : (read input).2 = []
    · rcases h.used input b hleft with hused | hused
      · rw [hused]
        exact .inl hafter.silent
      · rw [hused]
        exact hafter.first [] b hafter.nil hafter.silent
    · rw [h.steady input b hleft]
      exact (hnext input).first _ b hrest hitems

/-- A gradual reader after another, with the items of both. -/
theorem Gradual.seq {read next : GoString → List β × GoString} (h : Gradual First read)
    (hnext : Gradual First next) :
    Gradual First fun input ↦
      ((read input).1 ++ (next (read input).2).1, (next (read input).2).2) where
  toTight := @Tight.bind _ _ read h.toTight
    (fun items rest ↦ (items ++ (next rest).1, (next rest).2))
    fun input ↦ hnext.toTight.map ((read input).1 ++ ·)
  silent := by rw [h.silent, h.nil, hnext.silent, List.append_nil]
  keep := by
    intro input b hrest hitems
    by_cases hleft : (read input).2 = []
    · rw [hleft, hnext.silent, List.append_nil] at hitems
      exact List.append_ne_nil_of_left_ne_nil (h.keep input b hleft hitems) _
    · rw [h.steady input b hleft]
      intro hnil
      obtain ⟨hfirst, hsecond⟩ := List.append_eq_nil_iff.mp hnil
      rw [hfirst, List.nil_append] at hitems
      exact hnext.keep _ b hrest hitems hsecond
  first := by
    intro input b hrest hitems
    obtain ⟨hfirst, hsecond⟩ := List.append_eq_nil_iff.mp hitems
    by_cases hleft : (read input).2 = []
    · rcases h.first input b hleft hfirst with hnone | ⟨hsome, hafter⟩
      · rw [hnone, List.nil_append]
        rcases h.used input b hleft with hafter | hafter
        · rw [hafter]
          exact .inl hnext.silent
        · rw [hafter]
          exact hnext.first [] b hnext.nil hnext.silent
      · rw [hafter, hnext.silent, List.append_nil]
        exact .inr ⟨hsome, hnext.nil⟩
    · rw [h.steady input b hleft, hfirst, List.nil_append]
      exact hnext.first _ b hrest hsecond

/-- A reader of nothing. -/
theorem gradual_none : Gradual First fun input ↦ ([], input) where
  nil := rfl
  steady := fun _ _ _ ↦ rfl
  used := by
    intro input b hrest
    have hnil : input = [] := hrest
    rw [hnil]
    exact .inr rfl
  silent := rfl
  keep := fun _ _ _ hitems ↦ absurd rfl hitems
  first := fun _ _ _ _ ↦ .inl rfl

/-- A reader that takes all of its input. -/
theorem Gradual.ofItems {items : GoString → List β} (silent : items [] = [])
    (keep : ∀ input b, items input ≠ [] → items (input ++ [b]) ≠ [])
    (first : ∀ input b, items input = [] →
      items (input ++ [b]) = [] ∨ First (items (input ++ [b]))) :
    Gradual First fun input ↦ (items input, []) where
  nil := rfl
  steady := fun _ _ hrest ↦ absurd rfl hrest
  used := fun _ _ _ ↦ .inl rfl
  silent := silent
  keep := fun input b _ hitems ↦ keep input b hitems
  first := fun input b _ hitems ↦ (first input b hitems).imp_right fun h ↦ ⟨h, rfl⟩

/-! ### Parts of a file -/

section Parts

variable {read : GoString → List β × GoString} (h : Gradual First read)

include h

theorem Gradual.keep_append (input : GoString) (b : UInt8) (hitems : (read input).1 ≠ []) :
    (read (input ++ [b])).1 ≠ [] := by
  by_cases hleft : (read input).2 = []
  · exact h.keep input b hleft hitems
  · rw [h.steady input b hleft]
    exact hitems

/-- Where nothing is passed on of a file, nothing is of its parts. -/
theorem Gradual.silent_of_isPrefix {part file : GoString} (hpart : part <+: file)
    (hfile : (read file).1 = []) : (read part).1 = [] := by
  induction file using List.reverseRecOn with
  | nil =>
    rw [List.prefix_nil.mp hpart]
    exact h.silent
  | append_singleton file b ih =>
    rcases List.prefix_concat_iff.mp hpart with rfl | hshorter
    · exact hfile
    · refine ih hshorter ?_
      by_contra hitems
      exact h.keep_append file b hitems hfile

/-- Where something is passed on of a file, only the first items are of some part of it. -/
theorem Gradual.exists_first {file : GoString} (hfile : (read file).1 ≠ []) :
    ∃ part, part <+: file ∧ First (read part).1 := by
  induction file using List.reverseRecOn with
  | nil => exact absurd h.silent hfile
  | append_singleton file b ih =>
    by_cases hshorter : (read file).1 = []
    · by_cases hleft : (read file).2 = []
      · rcases h.first file b hleft hshorter with hnone | ⟨hfirst, -⟩
        · exact absurd hnone hfile
        · exact ⟨file ++ [b], List.prefix_rfl, hfirst⟩
      · rw [h.steady file b hleft] at hfile
        exact absurd hshorter hfile
    · obtain ⟨part, hpart, hfirst⟩ := ih hshorter
      exact ⟨part, hpart.trans (List.prefix_append file [b]), hfirst⟩

end Parts

end Compose

/-! ### Reads into a buffer -/

theorem length_padded (n : ℕ) (input : GoString) : (padded n input).length = n := by
  rw [padded, List.length_append, List.length_take, length_zeros]
  omega

theorem length_fill (n : ℕ) (input : GoString) : (fill n input).1.length = n :=
  length_padded n _

theorem fill_zero (input : GoString) : fill 0 input = ([], input) :=
  Prod.ext (List.length_eq_zero_iff.mp (length_fill 0 input)) (by rw [fill, Nat.zero_min]; rfl)

theorem padded_of_le {n : ℕ} {input : GoString} (hlength : n ≤ input.length) (more : GoString) :
    padded n (input ++ more) = padded n input := by
  rw [padded, padded, List.take_append_of_le_length hlength, List.length_append]
  congr 2
  omega

/-- A read that does not come to the end of its input gets the same of a longer one. -/
theorem fill_append {n : ℕ} {input : GoString} (hlength : min n maxRW ≤ input.length)
    (more : GoString) : fill n (input ++ more) = ((fill n input).1, (fill n input).2 ++ more) := by
  rw [fill, fill, List.drop_append_of_le_length hlength]
  by_cases hn : n ≤ maxRW
  · rw [Nat.min_eq_left hn] at hlength
    rw [padded_take hn, padded_take hn, padded_of_le hlength]
  · rw [Nat.min_eq_right (Nat.le_of_not_le hn)] at hlength
    rw [List.take_append_of_le_length hlength]

theorem tight_fill (n : ℕ) : Tight (fill n) where
  nil := List.drop_nil
  steady := by
    intro input b hrest
    refine fill_append ?_ [b]
    by_contra hshort
    exact hrest (List.drop_of_length_le (Nat.le_of_not_le hshort))
  used := by
    intro input b hrest
    have hlength := List.drop_eq_nil_iff.mp hrest
    by_cases hall : input.length = min n maxRW
    · exact .inr (List.drop_left' hall)
    · refine .inl (List.drop_of_length_le ?_)
      rw [List.length_append, List.length_singleton]
      omega

/-- A byte more does not make the number at the front of the input smaller. -/
theorem ofBytes_padded_le (n : ℕ) (input : GoString) (b : UInt8) :
    ofBytes (padded n input) ≤ ofBytes (padded n (input ++ [b])) := by
  by_cases hlength : n ≤ input.length
  · rw [padded_of_le hlength]
  · obtain ⟨k, hk⟩ : ∃ k, n - input.length = k + 1 := ⟨n - input.length - 1, by omega⟩
    have hbefore : padded n input = input ++ ([0] ++ zeros k) := by
      rw [padded, List.take_of_length_le (by omega), hk]
      rfl
    have hafter : padded n (input ++ [b]) = input ++ ([b] ++ zeros k) := by
      have hmissing : n - (input ++ [b]).length = k := by
        rw [List.length_append, List.length_singleton]
        omega
      rw [padded, hmissing, List.take_of_length_le, List.append_assoc]
      rw [List.length_append, List.length_singleton]
      omega
    rw [hbefore, hafter, ofBytes_append, ofBytes_append input, ofBytes_append, ofBytes_append [b]]
    simp only [List.length_append, List.length_singleton]
    refine Nat.add_le_add_left (Nat.add_le_add_right (Nat.mul_le_mul_right _ ?_) _) _
    exact Nat.zero_le _

/-- A gradual reader after a read into a buffer. -/
theorem Gradual.afterRead {β : Type} {First : List β → Prop} {n : ℕ}
    {next : GoString → GoString → List β × GoString} (hnext : ∀ buf, Gradual First (next buf)) :
    Gradual First fun input ↦ (readInto n input).elim ([], []) fun p ↦ next p.1 p.2 := by
  have hsame : (fun input ↦ (readInto n input).elim ([], []) fun p ↦ next p.1 p.2) =
      fun input ↦ next (fill n input).1 (fill n input).2 := by
    funext input
    by_cases hnil : input = []
    · rw [hnil, (tight_fill n).nil]
      exact Prod.ext (hnext _).silent.symm (hnext _).nil.symm
    · rw [readInto, if_neg hnil]
      rfl
  rw [hsame]
  exact Gradual.bind (tight_fill n) fun input ↦ hnext (fill n input).1

/-- A gradual reader after a number. -/
theorem Gradual.afterNumber {β : Type} {First : List β → Prop} {width : ℕ}
    {next : ℕ → GoString → List β × GoString} (hnext : ∀ n, Gradual First (next n)) :
    Gradual First fun input ↦ (readNumber width input).elim ([], []) fun p ↦ next p.1 p.2 := by
  have hsame : (fun input ↦ (readNumber width input).elim ([], []) fun p ↦ next p.1 p.2) =
      fun input ↦ (readInto width input).elim ([], []) fun p ↦ next (ofBytes p.1) p.2 := by
    funext input
    rw [readNumber]
    cases readInto width input <;> rfl
  rw [hsame]
  exact Gradual.afterRead fun buf ↦ hnext (ofBytes buf)

/-! ### Strings -/

section Blocks

variable {width : ℕ} (hwidth : width ≤ maxRW)

include hwidth

/-- An input without a byte after the length. -/
theorem readBlock_short {input : GoString} (hshort : input.length ≤ width) :
    readBlock width input = ([], []) := by
  by_cases hnil : input = []
  · rw [hnil]
    rfl
  · rw [readBlock, readNumber, readInto, if_neg hnil, fill_of_le hwidth,
      List.drop_of_length_le hshort]
    simp only [Option.map_some, Prod.map_apply, id]
    split <;> rfl

/-- An input with a byte after the length. -/
theorem readBlock_long {head content : GoString} (hhead : head.length = width)
    (hcontent : content ≠ []) :
    readBlock width (head ++ content) = fill (ofBytes head) content := by
  have hne : head ++ content ≠ [] := List.append_ne_nil_of_right_ne_nil head hcontent
  rw [readBlock, readNumber, readInto, if_neg hne, fill_of_le hwidth, padded_append hhead,
    List.drop_left' hhead]
  simp only [Option.map_some, Prod.map_apply, id, readInto, if_neg hcontent]
  by_cases hzero : ofBytes head = 0
  · rw [if_pos hzero, hzero, fill_zero]
  · rw [if_neg hzero]

omit hwidth in
/-- An input is too short for a byte after the length, or has one. -/
theorem short_or_long (width : ℕ) (input : GoString) :
    input.length ≤ width ∨
      ∃ head content, head.length = width ∧ content ≠ [] ∧ input = head ++ content := by
  by_cases hshort : input.length ≤ width
  · exact .inl hshort
  · refine .inr ⟨input.take width, input.drop width, ?_, ?_, (List.take_append_drop _ _).symm⟩
    · exact List.length_take_of_le (Nat.le_of_not_le hshort)
    · exact fun hnil ↦ hshort (List.drop_eq_nil_iff.mp hnil)

/-- A string that is found empty is empty, however long it may be. -/
theorem eq_nil_of_readBlock_block {s rest : GoString} (hs : s.length < 256 ^ width)
    (hempty : (readBlock width (block width s ++ rest)).1 = []) : s = [] := by
  by_contra hne
  rw [block, List.append_assoc, readBlock_long hwidth (length_toBytes width s.length)
    (List.append_ne_nil_of_left_ne_nil hne rest), ofBytes_toBytes, Nat.mod_eq_of_lt hs] at hempty
  have hlength := length_fill s.length (s ++ rest)
  rw [hempty] at hlength
  exact hne (List.length_eq_zero_iff.mp hlength.symm)

/-- The first byte of the content. -/
theorem readBlock_one {head : GoString} (hhead : head.length = width) (b : UInt8) :
    readBlock width (head ++ [b]) = ([], [b]) ∨
      ∃ n, readBlock width (head ++ [b]) = (b :: zeros n, []) := by
  rw [readBlock_long hwidth hhead (List.cons_ne_nil b [])]
  cases hn : ofBytes head with
  | zero => exact .inl (fill_zero [b])
  | succ n =>
    have hone : 1 ≤ maxRW := by decide
    have hfront : [b].length ≤ min (n + 1) maxRW := Nat.le_min.mpr ⟨Nat.le_add_left 1 n, hone⟩
    have hfill := fill_append_zeros hfront 0
    rw [Nat.zero_sub] at hfill
    exact .inr ⟨n, hfill⟩

theorem tight_readBlock : Tight (readBlock width) where
  nil := by rw [@readBlock_short width hwidth [] (Nat.zero_le width)]
  steady := by
    intro input b hrest
    rcases short_or_long width input with hshort | ⟨head, content, hhead, hcontent, rfl⟩
    · rw [readBlock_short hwidth hshort] at hrest
      exact absurd rfl hrest
    · have hmore : content ++ [b] ≠ [] := List.append_ne_nil_of_left_ne_nil hcontent [b]
      rw [readBlock_long hwidth hhead hcontent] at hrest ⊢
      rw [List.append_assoc, readBlock_long hwidth hhead hmore]
      exact (tight_fill (ofBytes head)).steady content b hrest
  used := by
    intro input b hrest
    rcases short_or_long width input with hshort | ⟨head, content, hhead, hcontent, rfl⟩
    · rcases hshort.lt_or_eq with hlt | heq
      · rw [readBlock_short hwidth (by rw [List.length_append]; exact hlt)]
        exact .inl rfl
      · rcases readBlock_one hwidth heq b with hone | ⟨n, hone⟩
        · rw [hone]
          exact .inr rfl
        · rw [hone]
          exact .inl rfl
    · have hmore : content ++ [b] ≠ [] := List.append_ne_nil_of_left_ne_nil hcontent [b]
      rw [readBlock_long hwidth hhead hcontent] at hrest
      rw [List.append_assoc, readBlock_long hwidth hhead hmore]
      exact (tight_fill (ofBytes head)).used content b hrest

/-- A string that was empty becomes, if anything, its first byte and zeros. -/
theorem readBlock_first_byte {input : GoString} (b : UInt8)
    (hrest : (readBlock width input).2 = []) (hempty : (readBlock width input).1 = []) :
    (readBlock width (input ++ [b])).1 = [] ∨
      ∃ n, readBlock width (input ++ [b]) = (b :: zeros n, []) := by
  rcases short_or_long width input with hshort | ⟨head, content, hhead, hcontent, rfl⟩
  · rcases hshort.lt_or_eq with hlt | heq
    · rw [readBlock_short hwidth (by rw [List.length_append]; exact hlt)]
      exact .inl rfl
    · rcases readBlock_one hwidth heq b with hone | hone
      · rw [hone]
        exact .inl rfl
      · exact .inr hone
  · rw [readBlock_long hwidth hhead hcontent] at hrest hempty
    have hzero : ofBytes head = 0 := by
      rw [← length_fill (ofBytes head) content]
      exact List.length_eq_zero_iff.mpr hempty
    rw [hzero] at hrest
    exact absurd hrest hcontent

/-- A string that was not empty does not become empty. -/
theorem readBlock_ne_nil {input : GoString} (b : UInt8) (hsome : (readBlock width input).1 ≠ []) :
    (readBlock width (input ++ [b])).1 ≠ [] := by
  rcases short_or_long width input with hshort | ⟨head, content, hhead, hcontent, rfl⟩
  · rw [readBlock_short hwidth hshort] at hsome
    exact absurd rfl hsome
  · have hmore : content ++ [b] ≠ [] := List.append_ne_nil_of_left_ne_nil hcontent [b]
    rw [readBlock_long hwidth hhead hcontent] at hsome
    rw [List.append_assoc, readBlock_long hwidth hhead hmore]
    intro hnil
    have hlength : (fill (ofBytes head) (content ++ [b])).1.length = 0 :=
      List.length_eq_zero_iff.mpr hnil
    rw [length_fill, ← length_fill (ofBytes head) content] at hlength
    exact hsome (List.length_eq_zero_iff.mp hlength)

end Blocks

end FluxCache.Foundation
