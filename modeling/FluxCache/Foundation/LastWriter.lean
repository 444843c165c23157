import Mathlib.Order.Bounds.Basic

/-!
# Last writer wins

A register holds at most one value with the time at which it was written. A write that is offered to
it replaces an older one (`offer`), and a register is combined with another by offering it what the
other holds (`combine`).

What a register has seen is a set of writes. It holds one of the latest of them, and nothing if
there are none (`Latest`). Both operations keep this (`Latest.offer`, `Latest.combine`), and where
no two writes have the same time, only one content of the register is possible (`Latest.unique`):
then the order of the operations does not matter. Without this assumption two registers that are
combined with each other can keep different values of the same time, and only then do they differ
(`value_combine_comm_iff`).
-/

set_option autoImplicit false
set_option relaxedAutoImplicit false

namespace FluxCache.Foundation

/-- A value with the time at which it was written. -/
@[ext] structure Stamped (V T : Type*) where
  value : V
  ts : T
  deriving DecidableEq

variable {V T : Type*} [LinearOrder T]

/-- What a register holds after a write has been offered to it. -/
def offer (held : Option (Stamped V T)) (w : Stamped V T) : Option (Stamped V T) :=
  match held with
  | none => some w
  | some old => if old.ts < w.ts then some w else some old

/-- What a register holds after it has been combined with another. -/
def combine (held other : Option (Stamped V T)) : Option (Stamped V T) :=
  other.elim held (offer held)

theorem offer_eq_or (held : Option (Stamped V T)) (w : Stamped V T) :
    offer held w = some w ∨ offer held w = held := by
  cases held with
  | none => exact Or.inl rfl
  | some old =>
    unfold offer
    by_cases hnewer : old.ts < w.ts
    · exact Or.inl (if_pos hnewer)
    · exact Or.inr (if_neg hnewer)

/-- What is held after an offer is as late as the write and as what was held. -/
theorem exists_offer_eq (held : Option (Stamped V T)) (w : Stamped V T) :
    ∃ top, offer held w = some top ∧ w.ts ≤ top.ts ∧ ∀ old ∈ held, old.ts ≤ top.ts := by
  cases held with
  | none => exact ⟨w, rfl, le_refl _, nofun⟩
  | some old =>
    unfold offer
    by_cases hnewer : old.ts < w.ts
    · refine ⟨w, if_pos hnewer, le_refl _, fun _ hold ↦ ?_⟩
      obtain rfl := Option.some.inj hold
      exact le_of_lt hnewer
    · refine ⟨old, if_neg hnewer, not_lt.mp hnewer, fun _ hold ↦ ?_⟩
      obtain rfl := Option.some.inj hold
      exact le_refl _

/-! ### Registers under `combine` -/

theorem combine_none_left (held : Option (Stamped V T)) : combine none held = held := by
  cases held with
  | none => rfl
  | some w => rfl

/-- Of several writes of the same time the leftmost is kept, however they are bracketed. -/
theorem combine_assoc (first second third : Option (Stamped V T)) :
    combine (combine first second) third = combine first (combine second third) := by
  cases third with
  | none => rfl
  | some w =>
    cases second with
    | none => rfl
    | some v =>
      cases first with
      | none =>
        rw [combine_none_left, combine_none_left]
      | some u =>
        simp only [combine, Option.elim_some, offer]
        by_cases huv : u.ts < v.ts
        · by_cases hvw : v.ts < w.ts
          · simp [huv, hvw, offer, huv.trans hvw]
          · simp [huv, hvw, offer]
        · by_cases hvw : v.ts < w.ts
          · simp [huv, hvw, offer]
          · have huw : ¬ u.ts < w.ts := not_lt.mpr ((not_lt.mp hvw).trans (not_lt.mp huv))
            simp [huv, hvw, huw, offer]

theorem combine_self (held : Option (Stamped V T)) : combine held held = held := by
  cases held with
  | none => rfl
  | some w => exact if_neg (lt_irrefl w.ts)

theorem combine_eq_or (held other : Option (Stamped V T)) :
    combine held other = held ∨ combine held other = other := by
  cases other with
  | none => exact Or.inl rfl
  | some w => exact (offer_eq_or held w).symm

/-- What is not later than a write does not replace it. -/
theorem combine_eq_left {top : Stamped V T} {other : Option (Stamped V T)}
    (hother : ∀ w, other = some w → w.ts ≤ top.ts) : combine (some top) other = some top := by
  cases other with
  | none => rfl
  | some w => exact if_neg (not_lt.mpr (hother w rfl))

/-- What is held never gets older. -/
theorem exists_combine_eq {held : Option (Stamped V T)} {old : Stamped V T}
    (hheld : held = some old) (other : Option (Stamped V T)) :
    ∃ top, combine held other = some top ∧ old.ts ≤ top.ts := by
  cases other with
  | none => exact ⟨old, hheld, le_refl _⟩
  | some w =>
    obtain ⟨top, htop, -, hold⟩ := exists_offer_eq held w
    exact ⟨top, htop, hold old hheld⟩

/-- A time bounds what two registers hold together exactly if it bounds both. -/
theorem combine_le_iff {held other : Option (Stamped V T)} {t : T} :
    (∀ top, combine held other = some top → top.ts ≤ t) ↔
      (∀ v, held = some v → v.ts ≤ t) ∧ ∀ w, other = some w → w.ts ≤ t := by
  constructor
  · intro hle
    refine ⟨fun v hv ↦ ?_, fun w hw ↦ ?_⟩
    · obtain ⟨top, htop, hold⟩ := exists_combine_eq hv other
      exact hold.trans (hle top htop)
    · rw [hw] at hle
      obtain ⟨top, htop, hnew, -⟩ := exists_offer_eq held w
      exact hnew.trans (hle top htop)
  · rintro ⟨hheld, hother⟩ top htop
    rcases combine_eq_or held other with heq | heq
    · exact hheld top (heq.symm.trans htop)
    · exact hother top (heq.symm.trans htop)

/-! ### The latest of a set of writes -/

/-- What is held is one of the latest writes, or nothing if there are none. -/
structure Latest (writes : Set (Stamped V T)) (held : Option (Stamped V T)) : Prop where
  mem : ∀ w, held = some w → w ∈ writes
  newest : ∀ w ∈ writes, ∃ top, held = some top ∧ w.ts ≤ top.ts

section Latest

variable {writes others : Set (Stamped V T)} {held other : Option (Stamped V T)}

theorem latest_empty : Latest (∅ : Set (Stamped V T)) none := ⟨nofun, nofun⟩

theorem Latest.offer (h : Latest writes held) (w : Stamped V T) :
    Latest (insert w writes) (offer held w) where
  mem := fun top htop ↦ by
    rcases offer_eq_or held w with hoffer | hoffer
    · rw [hoffer] at htop
      exact Or.inl (Option.some.inj htop).symm
    · rw [hoffer] at htop
      exact Or.inr (h.mem top htop)
  newest := fun x hx ↦ by
    obtain ⟨top, htop, hw, hold⟩ := exists_offer_eq held w
    refine ⟨top, htop, ?_⟩
    rcases hx with rfl | hx
    · exact hw
    · obtain ⟨old, hheld, hle⟩ := h.newest x hx
      exact hle.trans (hold old hheld)

theorem Latest.combine (h : Latest writes held) (hother : Latest others other) :
    Latest (writes ∪ others) (combine held other) := by
  cases other with
  | none =>
    have hnone : others = ∅ := by
      refine Set.eq_empty_iff_forall_notMem.mpr fun w hw ↦ ?_
      obtain ⟨top, htop, -⟩ := hother.newest w hw
      exact absurd htop nofun
    rw [hnone, Set.union_empty]
    exact h
  | some w =>
    have hoffer := h.offer w
    refine ⟨fun top htop ↦ ?_, fun x hx ↦ ?_⟩
    · rcases hoffer.mem top htop with rfl | hmem
      · exact Or.inr (hother.mem top rfl)
      · exact Or.inl hmem
    · rcases hx with hx | hx
      · exact hoffer.newest x (Or.inr hx)
      · obtain ⟨last, hlast, hle⟩ := hother.newest x hx
        obtain rfl := Option.some.inj hlast
        obtain ⟨top, htop, hw⟩ := hoffer.newest w (Or.inl rfl)
        exact ⟨top, htop, hle.trans hw⟩

/-- Assumes: no two writes have the same time. -/
theorem Latest.unique (hwrites : ∀ w ∈ writes, ∀ w' ∈ writes, w.ts = w'.ts → w = w')
    (h : Latest writes held) (hother : Latest writes other) : held = other := by
  cases held with
  | none =>
    cases other with
    | none => rfl
    | some w =>
      obtain ⟨top, htop, -⟩ := h.newest w (hother.mem w rfl)
      exact absurd htop nofun
  | some w =>
    obtain ⟨w', hw', hle⟩ := hother.newest w (h.mem w rfl)
    obtain ⟨top, htop, hge⟩ := h.newest w' (hother.mem w' hw')
    obtain rfl := Option.some.inj htop
    rw [hw', hwrites w (h.mem w rfl) w' (hother.mem w' hw') (le_antisymm hle hge)]

end Latest

/-! ### Two registers that are combined with each other -/

/-- Two registers that are combined with each other have the same value exactly if they do not hold
different values of the same time. -/
theorem value_combine_comm_iff {held other : Option (Stamped V T)} :
    (combine held other).map Stamped.value = (combine other held).map Stamped.value ↔
      ∀ v ∈ held, ∀ w ∈ other, v.ts = w.ts → v.value = w.value := by
  cases held with
  | none => cases other <;> simp [combine, offer]
  | some v =>
    cases other with
    | none => simp [combine, offer]
    | some w =>
      rcases lt_trichotomy v.ts w.ts with hlt | heq | hgt
      · simp [combine, offer, hlt, not_lt_of_gt hlt, hlt.ne]
      · simp [combine, offer, heq]
      · simp [combine, offer, hgt, not_lt_of_gt hgt, hgt.ne']

end FluxCache.Foundation
