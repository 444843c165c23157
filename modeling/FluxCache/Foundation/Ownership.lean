import FluxCache.Foundation.Memory

/-!
# Cells that belong to threads

An assignment of owners gives some cells of a memory to a thread; the others belong to nobody. `Held
memory owner holder p` says that the cell of `p` is in use and belongs to `holder`, which is `none`
for nobody. A thread may add cells, write its own ones and give them away, and then the memory
`Evolves` for it: every other cell keeps its content and its owner (`Held.evolves`). So what a
thread knows about its own cells, and about cells that belong to nobody, stays true while the others
run.
-/

set_option autoImplicit false
set_option relaxedAutoImplicit false

namespace FluxCache.Foundation

namespace Memory

variable {ι α : Type} {i : ι} {memory memory' : Memory α} {owner owner' : Pointer → Option ι}
  {holder : Option ι} {p q : Pointer}

/-- The cell of a pointer is in use and belongs to a thread, or to nobody. -/
def Held (memory : Memory α) (owner : Pointer → Option ι) (holder : Option ι)
    (p : Pointer) : Prop :=
  p < memory.used ∧ owner p = holder

/-- A thread has changed only its own cells. -/
structure Evolves (i : ι) (memory : Memory α) (owner : Pointer → Option ι) (memory' : Memory α)
    (owner' : Pointer → Option ι) : Prop where
  used_le : memory.used ≤ memory'.used
  cell_eq : ∀ p, p < memory.used → owner p ≠ some i → memory'.cell p = memory.cell p
  owner_eq : ∀ p, p < memory.used → owner p ≠ some i → owner' p = owner p

/-- The owners after all cells of a thread have been given away. -/
def released [DecidableEq ι] (i : ι) (owner : Pointer → Option ι) (p : Pointer) : Option ι :=
  if owner p = some i then none else owner p

theorem Held.evolves (h : memory.Held owner holder p)
    (hevolves : Evolves i memory owner memory' owner') (hholder : holder ≠ some i) :
    memory'.Held owner' holder p := by
  have hother : owner p ≠ some i := by
    rw [h.2]
    exact hholder
  refine ⟨h.1.trans_le hevolves.used_le, ?_⟩
  rw [hevolves.owner_eq p h.1 hother, h.2]

theorem Held.cell_eq (h : memory.Held owner holder p)
    (hevolves : Evolves i memory owner memory' owner') (hholder : holder ≠ some i) :
    memory'.cell p = memory.cell p := by
  refine hevolves.cell_eq p h.1 ?_
  rw [h.2]
  exact hholder

theorem Evolves.refl (i : ι) (memory : Memory α) (owner : Pointer → Option ι) :
    Evolves i memory owner memory owner :=
  ⟨le_rfl, fun _ _ _ ↦ rfl, fun _ _ _ ↦ rfl⟩

/-! ### A new cell -/

theorem evolves_alloc (i : ι) (memory : Memory α) (owner : Pointer → Option ι) (a : α) :
    Evolves i memory owner (memory.alloc a) (Function.update owner memory.used (some i)) :=
  ⟨Nat.le_succ _, fun _ hp _ ↦ memory.cell_alloc_of_lt a hp,
    fun _ hp _ ↦ Function.update_of_ne (Nat.ne_of_lt hp) _ _⟩

theorem held_alloc_used (i : ι) (memory : Memory α) (owner : Pointer → Option ι) (a : α) :
    (memory.alloc a).Held (Function.update owner memory.used (some i)) (some i) memory.used :=
  ⟨Nat.lt_succ_self _, Function.update_self ..⟩

theorem Held.alloc (h : memory.Held owner holder p) (i : ι) (a : α) :
    (memory.alloc a).Held (Function.update owner memory.used (some i)) holder p := by
  refine ⟨Nat.lt_succ_of_lt h.1, ?_⟩
  rw [Function.update_of_ne (Nat.ne_of_lt h.1), h.2]

theorem Held.cell_alloc (h : memory.Held owner holder p) (a : α) :
    (memory.alloc a).cell p = memory.cell p :=
  memory.cell_alloc_of_lt a h.1

/-! ### A write to an own cell -/

theorem evolves_write (h : memory.Held owner (some i) p) (a : α) :
    Evolves i memory owner (memory.write p a) owner := by
  refine ⟨le_rfl, fun q _ hq ↦ memory.cell_write_of_ne a ?_, fun _ _ _ ↦ rfl⟩
  rintro rfl
  exact hq h.2

/-! ### Cells given away -/

theorem evolves_released [DecidableEq ι] (i : ι) (memory : Memory α) (owner : Pointer → Option ι) :
    Evolves i memory owner memory (released i owner) :=
  ⟨le_rfl, fun _ _ _ ↦ rfl, fun _ _ hp ↦ if_neg hp⟩

theorem Held.released [DecidableEq ι] (h : memory.Held owner (some i) p) :
    memory.Held (released i owner) none p :=
  ⟨h.1, if_pos h.2⟩

end Memory

end FluxCache.Foundation
