import FluxCache.Store.Backend
import FluxCache.Store.TTL

/-!
# Deadlines and eviction over stores that answer alike

The store with deadlines looks at the store inside only through its calls. So two of them with the
same deadlines, tracked keys, policy and limit over stores that answer alike (`Related`) stay so
under every call, and return the same replies: the policy is asked the same questions, finds the
same keys and evicts the same ones.
-/

set_option autoImplicit false
set_option relaxedAutoImplicit false

namespace FluxCache.Store.TTLStore

open FluxCache.Foundation

variable {σ τ : Type}

/-- The two stores differ only in the stores inside, and these are related. -/
def Related (R : σ → τ → Prop) (t : TTLStore σ) (u : TTLStore τ) : Prop :=
  ∃ inner, R t.inner inner ∧ u = t.around inner

/-- Two results agree: the replies are the same and the stores are related. -/
def Agree {ρ : Type} (R : σ → τ → Prop) (a : ρ × TTLStore σ) (b : ρ × TTLStore τ) : Prop :=
  a.1 = b.1 ∧ Related R a.2 b.2

/-- Replies that are translated alike. -/
theorem Agree.map {ρ ρ' : Type} {R : σ → τ → Prop} {a : ρ × TTLStore σ} {b : ρ × TTLStore τ}
    (h : Agree R a b) (f : ρ → ρ') : Agree R (a.map f id) (b.map f id) :=
  ⟨congrArg f h.1, h.2⟩

section Bookkeeping

variable {R : σ → τ → Prop} {t : TTLStore σ} {u : TTLStore τ} {env : Environment}

theorem Related.requests (h : Related R t u) (requests : ℕ → ℕ) :
    Related R { t with requests := requests t.requests }
      { u with requests := requests u.requests } := by
  obtain ⟨m, hm, rfl⟩ := h
  exact ⟨m, hm, rfl⟩

theorem Related.track (h : Related R t u) (key : GoString) :
    Related R (t.track env key) (u.track env key) := by
  obtain ⟨m, hm, rfl⟩ := h
  exact ⟨m, hm, rfl⟩

theorem Related.record (h : Related R t u) (key : GoString) :
    Related R (t.record env key) (u.record env key) := by
  obtain ⟨m, hm, rfl⟩ := h
  exact ⟨m, hm, rfl⟩

theorem Related.removeKey (h : Related R t u) (key : GoString) :
    Related R (t.removeKey key) (u.removeKey key) := by
  obtain ⟨m, hm, rfl⟩ := h
  exact ⟨m, hm, rfl⟩

theorem Related.setDeadline (h : Related R t u) (key : GoString) (ttl : Duration) :
    Related R (t.setDeadline env key ttl) (u.setDeadline env key ttl) := by
  obtain ⟨m, hm, rfl⟩ := h
  exact ⟨m, hm, rfl⟩

theorem Related.isPast (h : Related R t u) (env : Environment) (deadline : Option Time) :
    Agree R (t.isPast env deadline) (u.isPast env deadline) := by
  obtain ⟨m, hm, rfl⟩ := h
  cases deadline with
  | none => exact ⟨rfl, m, hm, rfl⟩
  | some exp => exact ⟨rfl, m, hm, rfl⟩

theorem Related.ttl (h : Related R t u) (key : GoString) :
    Agree R (t.ttl env key) (u.ttl env key) := by
  obtain ⟨m, hm, rfl⟩ := h
  have hlookup : (t.around m).expireAt.lookup key = t.expireAt.lookup key := rfl
  rw [TTLStore.ttl, TTLStore.ttl, hlookup]
  cases t.expireAt.lookup key with
  | none => exact ⟨rfl, m, hm, rfl⟩
  | some exp => exact ⟨rfl, m, hm, rfl⟩

/-- A step for every key of a list. -/
theorem Related.foldl {f : TTLStore σ → GoString → TTLStore σ}
    {g : TTLStore τ → GoString → TTLStore τ}
    (hstep : ∀ {t u}, Related R t u → ∀ key, Related R (f t key) (g u key)) (h : Related R t u)
    (keys : List GoString) : Related R (keys.foldl f t) (keys.foldl g u) := by
  induction keys generalizing t u with
  | nil => exact h
  | cons key keys ih => exact ih (hstep h key)

end Bookkeeping

variable [StoreInterface σ] [StoreInterface τ] {R : σ → τ → Prop} {t : TTLStore σ}
  {u : TTLStore τ} {env : Environment}

section Calls

variable (hR : AnswersAlike R)
include hR

theorem Related.del (h : Related R t u) (key : GoString) : Related R (t.del key) (u.del key) := by
  obtain ⟨m, hm, rfl⟩ := h
  exact ⟨_, hR.del hm key, rfl⟩

theorem Related.writeInner (h : Related R t u) (w : Write) :
    Related R (t.writeInner w) (u.writeInner w) := by
  obtain ⟨m, hm, rfl⟩ := h
  exact ⟨_, hR.write hm w, rfl⟩

/-- The policy is asked the same questions and drops the same key. -/
theorem Related.evictIfNeeded (h : Related R t u) :
    Related R (t.evictIfNeeded env) (u.evictIfNeeded env) := by
  obtain ⟨m, hm, rfl⟩ := h
  have hcandidates : ((t.around m).candidates env).1 = (t.candidates env).1 := rfl
  unfold TTLStore.evictIfNeeded
  by_cases hshould : t.shouldEvict = true
  · have hshould' : (t.around m).shouldEvict = true := hshould
    rw [if_pos hshould, if_pos hshould']
    by_cases hempty : (t.candidates env).1 = []
    · simp only [hcandidates, if_pos hempty]
      exact ⟨m, hm, rfl⟩
    · simp only [hcandidates, if_neg hempty]
      have hkey : ((((t.around m).candidates env).2).chooseKey env (t.candidates env).1).1 =
        ((t.candidates env).2.chooseKey env (t.candidates env).1).1 := rfl
      simp only [hkey]
      by_cases hnone : ((t.candidates env).2.chooseKey env (t.candidates env).1).1 = []
      · rw [if_pos hnone, if_pos hnone]
        exact ⟨m, hm, rfl⟩
      · rw [if_neg hnone, if_neg hnone]
        have hchosen : Related R ((t.candidates env).2.chooseKey env (t.candidates env).1).2
          (((t.around m).candidates env).2.chooseKey env (t.candidates env).1).2 := ⟨m, hm, rfl⟩
        exact hchosen.del hR _
  · have hshould' : ¬(t.around m).shouldEvict = true := hshould
    rw [if_neg hshould, if_neg hshould']
    exact ⟨m, hm, rfl⟩

theorem Related.write (h : Related R t u) (w : Write) :
    Related R (t.write env w) (u.write env w) :=
  ((h.writeInner hR w).track w.key).evictIfNeeded hR

theorem Related.setWithTTL (h : Related R t u) (key value : GoString) (ttl : Duration) :
    Related R (t.setWithTTL env key value ttl) (u.setWithTTL env key value ttl) :=
  (h.setDeadline key ttl).write hR (.set key value)

theorem Related.read (h : Related R t u) (env : Environment) (r : Read) :
    Agree R (t.read env r) (u.read env r) := by
  have hdeadline : u.expireAt = t.expireAt := by
    obtain ⟨m, -, rfl⟩ := h
    rfl
  obtain ⟨hsame, hrest⟩ := h.isPast env (t.expireAt.lookup r.key)
  unfold TTLStore.read
  rw [hdeadline]
  simp only [← hsame]
  by_cases hexpired : (t.isPast env (t.expireAt.lookup r.key)).1 = true
  · simp only [if_pos hexpired]
    exact ⟨rfl, hrest.del hR r.key⟩
  · simp only [if_neg hexpired]
    refine ⟨?_, hrest.record r.key⟩
    obtain ⟨m, hm, hu⟩ := hrest
    rw [hu]
    exact hR.answer hm r

theorem Related.expire (h : Related R t u) (key : GoString) (ttl : Duration) :
    Agree R (t.expire env key ttl) (u.expire env key ttl) := by
  have hfound : StoreInterface.get u.inner key = StoreInterface.get t.inner key := by
    obtain ⟨m, hm, rfl⟩ := h
    exact (Reply.value.inj (hR.answer hm (.get key))).symm
  unfold TTLStore.expire
  rw [hfound]
  by_cases hget : (StoreInterface.get t.inner key).2 = true
  · rw [if_pos hget, if_pos hget]
    exact ⟨rfl, h.setDeadline key ttl⟩
  · rw [if_neg hget, if_neg hget]
    exact ⟨rfl, h⟩

theorem Related.dropExpired (h : Related R t u) (key : GoString) :
    Related R (t.dropExpired key) (u.dropExpired key) := by
  obtain ⟨m, hm, rfl⟩ := h
  exact ⟨_, hR.del hm key, rfl⟩

theorem Related.sweep (h : Related R t u) : Related R (t.sweep env) (u.sweep env) := by
  have hexpired : u.expiredKeys env = t.expiredKeys env := by
    obtain ⟨m, -, rfl⟩ := h
    rfl
  have hrequests : u.requests = t.requests := by
    obtain ⟨m, -, rfl⟩ := h
    rfl
  have hremoved := Related.foldl (fun h key ↦ h.removeKey key) h (t.expiredKeys env)
  have hcollected : Related R (t.collectExpired env).2 (u.collectExpired env).2 := by
    unfold collectExpired
    rw [hexpired, hrequests]
    obtain ⟨m, hm, hu⟩ := hremoved
    rw [hu]
    exact ⟨m, hm, rfl⟩
  show Related R ((t.expiredKeys env).foldl TTLStore.dropExpired (t.collectExpired env).2)
    ((u.expiredKeys env).foldl TTLStore.dropExpired (u.collectExpired env).2)
  rw [hexpired]
  exact Related.foldl (fun h key ↦ h.dropExpired hR key) hcollected _

/-- Every call returns the same reply and keeps the two stores related. -/
theorem Related.call (h : Related R t u) (c : Call) : Agree R (t.call env c) (u.call env c) := by
  match c with
  | .write (.set key value) => exact ⟨rfl, h.write hR _⟩
  | .write (.hset hash key value) => exact ⟨rfl, h.write hR _⟩
  | .setWithTTL key value ttl => exact ⟨rfl, h.setWithTTL hR key value ttl⟩
  | .read (.get key) => exact h.read hR env _
  | .read (.hget hash key) => exact h.read hR env _
  | .read (.hgetAll hash) => exact h.read hR env _
  | .del key => exact ⟨rfl, h.del hR key⟩
  | .expire key ttl => exact (h.expire hR key ttl).map Reply.flag
  | .ttl key => exact (h.ttl key).map Reply.duration
  | .sweep => exact ⟨rfl, h.sweep hR⟩

end Calls

end FluxCache.Store.TTLStore
