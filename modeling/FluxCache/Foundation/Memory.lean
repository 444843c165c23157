import FluxCache.Foundation.Runtime
import Mathlib.Logic.Function.Basic

/-!
# Memory and linked lists

A `Memory` holds one cell for every pointer and the number of pointers handed out so far. A new
cell takes the next pointer, so a pointer below `used` is never handed out again. Since a pointer
that is not nil always names a live cell, reading is total; nil is `none` in an `Option`.

`Linked next chain` says that following `next` runs through exactly the pointers of `chain` and
then stops. It is kept by a change of `next` away from the chain (`Linked.congr`), by linking a new
pointer after a member (`Linked.insert_after`) and by unlinking the successor of a member
(`Linked.unlink_after`). The loop that follows `next` and collects what it meets returns the chain
(`follow_eq`).
-/

set_option autoImplicit false
set_option relaxedAutoImplicit false

namespace FluxCache.Foundation

/-- The name of a cell. -/
abbrev Pointer := ℕ

/-- Cells addressed by pointers; the pointers below `used` have been handed out. -/
structure Memory (α : Type) where
  cell : Pointer → α
  used : ℕ

namespace Memory

variable {α : Type}

/-- Overwrite the cell of a pointer. -/
def write (memory : Memory α) (p : Pointer) (a : α) : Memory α :=
  { memory with cell := Function.update memory.cell p a }

/-- A memory with one more cell, named by the old `used`. -/
def alloc (memory : Memory α) (a : α) : Memory α where
  cell := Function.update memory.cell memory.used a
  used := memory.used + 1

@[simp] theorem used_write (memory : Memory α) (p : Pointer) (a : α) :
    (memory.write p a).used = memory.used := rfl

@[simp] theorem used_alloc (memory : Memory α) (a : α) :
    (memory.alloc a).used = memory.used + 1 := rfl

@[simp] theorem cell_write_self (memory : Memory α) (p : Pointer) (a : α) :
    (memory.write p a).cell p = a := by
  simp only [write, Function.update_self]

theorem cell_write_of_ne (memory : Memory α) {p q : Pointer} (a : α) (h : q ≠ p) :
    (memory.write p a).cell q = memory.cell q := by
  simp only [write, Function.update_of_ne h]

theorem write_cell_self (memory : Memory α) (p : Pointer) :
    memory.write p (memory.cell p) = memory := by
  rw [write, Function.update_eq_self]

@[simp] theorem cell_alloc_used (memory : Memory α) (a : α) :
    (memory.alloc a).cell memory.used = a := by
  simp only [alloc, Function.update_self]

theorem cell_alloc_of_lt (memory : Memory α) {q : Pointer} (a : α) (h : q < memory.used) :
    (memory.alloc a).cell q = memory.cell q := by
  simp only [alloc, Function.update_of_ne (Nat.ne_of_lt h)]

end Memory

section Linked

variable {α : Type}

/-- Following `next` from the first member runs through exactly the members of the chain. -/
def Linked (next : α → Option α) : List α → Prop
  | [] => True
  | [a] => next a = none
  | a :: b :: rest => next a = some b ∧ Linked next (b :: rest)

theorem Linked.tail {next : α → Option α} {a : α} {rest : List α}
    (h : Linked next (a :: rest)) : Linked next rest := by
  cases rest with
  | nil => exact trivial
  | cons b rest => exact h.2

/-- The part of a chain from a member on is a chain. -/
theorem Linked.suffix {next : α → Option α} (front : List α) {back : List α}
    (h : Linked next (front ++ back)) : Linked next back := by
  induction front with
  | nil => exact h
  | cons a front ih => exact ih h.tail

/-- Assumes: two successor functions that agree on the members of a chain. -/
theorem Linked.congr {next next' : α → Option α} {chain : List α} (h : Linked next chain)
    (hagree : ∀ a ∈ chain, next' a = next a) : Linked next' chain := by
  induction chain with
  | nil => exact trivial
  | cons a rest ih =>
    cases rest with
    | nil => exact (hagree a (List.mem_singleton.mpr rfl)).trans h
    | cons b rest =>
      exact ⟨(hagree a List.mem_cons_self).trans h.1,
        ih h.2 fun c hc ↦ hagree c (List.mem_cons_of_mem a hc)⟩

/-- The successor of a member is the head of what follows it. -/
theorem Linked.next_eq {next : α → Option α} {front back : List α} {a : α}
    (h : Linked next (front ++ a :: back)) : next a = back.head? := by
  have hsuffix := h.suffix front
  cases back with
  | nil => exact hsuffix
  | cons b back => exact hsuffix.1

/-- The members met by following `next`. -/
def follow (next : α → Option α) : ℕ → Option α → Outcome (List α)
  | _, none => .ok []
  | 0, some _ => .error .exhausted
  | steps + 1, some p => do
    let rest ← follow next steps (next p)
    pure (p :: rest)

/-- Following `next` through a chain visits its members. -/
theorem follow_eq {next : α → Option α} {steps : ℕ} {chain : List α}
    (hlinked : Linked next chain) (hlength : chain.length ≤ steps) :
    follow next steps chain.head? = .ok chain := by
  induction chain generalizing steps with
  | nil =>
    rw [List.head?_nil]
    cases steps with
    | zero => rfl
    | succ steps => rfl
  | cons p rest ih =>
    obtain ⟨steps, rfl⟩ := Nat.exists_eq_succ_of_ne_zero
      (Nat.ne_of_gt (Nat.lt_of_lt_of_le (Nat.zero_lt_succ _) hlength))
    have hnext : next p = rest.head? :=
      Linked.next_eq (show Linked next ([] ++ p :: rest) from hlinked)
    rw [List.head?_cons, follow, hnext, ih hlinked.tail (Nat.le_of_succ_le_succ hlength)]
    rfl

/-- A list of different pointers in use is no longer than the number of pointers in use. -/
theorem length_le_of_nodup {pointers : List Pointer} {used : ℕ} (hnodup : pointers.Nodup)
    (hlt : ∀ p ∈ pointers, p < used) : pointers.length ≤ used := by
  rw [← List.length_range (n := used)]
  exact (List.subperm_of_subset hnodup fun p hp ↦ List.mem_range.mpr (hlt p hp)).length_le

/-- The part of a chain behind `a` can be exchanged. Assumes: two successor functions that agree on
the members before `a`. -/
theorem Linked.exchange {next next' : α → Option α} {front back back' : List α} {a : α}
    (h : Linked next (front ++ a :: back)) (hagree : ∀ b ∈ front, next' b = next b)
    (hback : Linked next' (a :: back')) : Linked next' (front ++ a :: back') := by
  induction front with
  | nil => exact hback
  | cons c front ih =>
    have htail := ih h.tail fun b hb ↦ hagree b (List.mem_cons_of_mem c hb)
    have hc : next' c = next c := hagree c List.mem_cons_self
    cases front with
    | nil => exact ⟨hc.trans h.1, htail⟩
    | cons d front => exact ⟨hc.trans h.1, htail⟩

/-- A pointer can be put in front of a chain that its successor starts. -/
theorem Linked.cons {next : α → Option α} {chain : List α} {a : α} (h : Linked next chain)
    (ha : next a = chain.head?) : Linked next (a :: chain) := by
  cases chain with
  | nil => exact ha
  | cons b rest => exact ⟨ha, h⟩

/-- Assumes: a chain without repetition, a new pointer outside it, and a successor function in
which the new pointer takes over the successor of `a` and becomes the successor of `a`, and which
is otherwise unchanged on the chain. The new pointer is linked after `a`. -/
theorem Linked.insert_after {next next' : α → Option α} {front back : List α} {a new : α}
    (h : Linked next (front ++ a :: back)) (hnodup : (front ++ a :: back).Nodup)
    (hnew : next' new = next a) (ha : next' a = some new)
    (hagree : ∀ b ∈ front ++ a :: back, b ≠ a → next' b = next b) :
    Linked next' (front ++ a :: new :: back) := by
  have hnotMem := (List.nodup_cons.mp (List.nodup_middle.mp hnodup)).1
  have hne {b : α} (hb : b ∈ front ++ back) : b ≠ a := fun heq ↦ hnotMem (heq ▸ hb)
  have hback : Linked next' back := (h.suffix front).tail.congr fun b hb ↦
    hagree b (by simp [hb]) (hne (List.mem_append_right front hb))
  refine h.exchange (fun b hb ↦ ?_) ((hback.cons (hnew.trans h.next_eq)).cons ha)
  exact hagree b (List.mem_append_left _ hb) (hne (List.mem_append_left back hb))

/-- Assumes: a chain without repetition in which `b` follows `a`, and a successor function in which
`a` takes over the successor of `b` and which is otherwise unchanged on the chain. The pointer `b`
is unlinked. -/
theorem Linked.unlink_after {next next' : α → Option α} {front back : List α} {a b : α}
    (h : Linked next (front ++ a :: b :: back)) (hnodup : (front ++ a :: b :: back).Nodup)
    (ha : next' a = next b)
    (hagree : ∀ c ∈ front ++ a :: b :: back, c ≠ a → next' c = next c) :
    Linked next' (front ++ a :: back) := by
  have hnotMem := (List.nodup_cons.mp (List.nodup_middle.mp hnodup)).1
  have hne {c : α} (hc : c ∈ front ++ b :: back) : c ≠ a := fun heq ↦ hnotMem (heq ▸ hc)
  have htail : Linked next (b :: back) := (h.suffix front).tail
  have hback : Linked next' back := htail.tail.congr fun c hc ↦
    hagree c (by simp [hc]) (hne (by simp [hc]))
  have hb : next b = back.head? := Linked.next_eq (show Linked next ([] ++ b :: back) from htail)
  refine h.exchange (fun c hc ↦ ?_) (hback.cons (ha.trans hb))
  exact hagree c (List.mem_append_left _ hc) (hne (List.mem_append_left _ hc))

end Linked

end FluxCache.Foundation
