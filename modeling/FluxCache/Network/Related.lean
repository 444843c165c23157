import FluxCache.Network.Backends

/-!
# Transports over related states

A connection looks at the state that the handlers act on only through the handlers and the call for
writes. So two transports with the same password, over states that are related, whose handlers give
the same replies and keep the relation (`Transport.Related`), write the same replies on every
connection and stop for the same faults, whatever arrives there (`Transport.Related.handleConn`).
-/

set_option autoImplicit false
set_option relaxedAutoImplicit false

namespace FluxCache.Network

open Foundation Resp

variable {ω ω' : Type} {R : ω → ω' → Prop}

/-- The handlers give the same reply from related states and leave related states. -/
def HandlersAgree (R : ω → ω' → Prop) (f : HandlerFunc ω) (g : HandlerFunc ω') : Prop :=
  ∀ args {s t}, R s t → (f args s).1 = (g args t).1 ∧ R (f args s).2 (g args t).2

/-- The calls for writes leave related states. -/
def WritesAgree (R : ω → ω' → Prop) (f : WriteFunc ω) (g : WriteFunc ω') : Prop :=
  ∀ command args {s t}, R s t → R (f command args s) (g command args t)

/-- The transports have the same password and commands, and their handlers and calls for writes
agree. -/
structure Transport.Related (R : ω → ω' → Prop) (T : Transport ω) (T' : Transport ω') : Prop where
  password : T.password = T'.password
  handlers : ∀ command, Option.Rel (HandlersAgree R) (T.handlers.lookup command)
    (T'.handlers.lookup command)
  onWrite : Option.Rel (WritesAgree R) T.onWrite T'.onWrite

/-- The sessions differ only in the states, and these are related. -/
structure Session.Related (R : ω → ω' → Prop) (s : Session ω) (t : Session ω') : Prop where
  authenticated : s.authenticated = t.authenticated
  replies : s.replies = t.replies
  calls : s.calls = t.calls
  world : R s.world t.world

/-- What is seen of a session from outside. -/
def Session.seen (s : Session ω) : Bool × List Value × List (GoString × List Value) :=
  (s.authenticated, s.replies, s.calls)

theorem Session.Related.seen_eq {s : Session ω} {t : Session ω'} (h : s.Related R t) :
    s.seen = t.seen := by
  rw [Session.seen, Session.seen, h.authenticated, h.replies, h.calls]

/-- Lookups in tables with the same commands whose handlers agree. -/
theorem rel_lookup {V W : Type} {P : V → W → Prop} {l : List (Σ _ : GoString, V)}
    {l' : List (Σ _ : GoString, W)}
    (h : List.Forall₂ (fun a b ↦ a.1 = b.1 ∧ P a.2 b.2) l l') (key : GoString) :
    Option.Rel P (l.toFinmap.lookup key) (l'.toFinmap.lookup key) := by
  rw [Finmap.dlookup_list_toFinmap, Finmap.dlookup_list_toFinmap]
  induction h with
  | nil => exact Option.Rel.none
  | @cons a b l l' hab _ ih =>
    obtain ⟨k, v⟩ := a
    obtain ⟨k', w⟩ := b
    obtain ⟨rfl, hvw⟩ := hab
    by_cases hkey : key = k
    · rw [hkey, List.dlookup_cons_eq, List.dlookup_cons_eq]
      exact Option.Rel.some hvw
    · rw [List.dlookup_cons_ne _ _ hkey, List.dlookup_cons_ne _ _ hkey]
      exact ih

section Serve

variable {T : Transport ω} {T' : Transport ω'} {s : Session ω} {t : Session ω'}

theorem Session.Related.authenticate (h : s.Related R t) (hT : T.Related R T')
    (command : GoString) (args : List Value) :
    (authenticate T command args s).Related R (authenticate T' command args t) := by
  unfold Network.authenticate
  rw [← hT.password]
  by_cases hcommand : command = text "AUTH"
  · rw [if_pos hcommand, if_pos hcommand]
    by_cases hpassword : (args.head?.any fun password ↦ password.bulk = T.password) = true
    · rw [if_pos hpassword, if_pos hpassword]
      exact ⟨rfl, by simp only [h.replies], h.calls, h.world⟩
    · rw [if_neg hpassword, if_neg hpassword]
      exact ⟨h.authenticated, by simp only [h.replies], h.calls, h.world⟩
  · rw [if_neg hcommand, if_neg hcommand]
    exact ⟨h.authenticated, by simp only [h.replies], h.calls, h.world⟩

theorem rel_written (hT : T.Related R T') (command : GoString) (args : List Value) {w : ω}
    {w' : ω'} (hw : R w w') :
    R (written T.onWrite command args w) (written T'.onWrite command args w') := by
  have honWrite := hT.onWrite
  generalize T.onWrite = found at honWrite
  generalize T'.onWrite = found' at honWrite
  cases honWrite with
  | none => exact hw
  | some hagree => exact hagree command args hw

theorem execute_of_lookup {handler : HandlerFunc ω} {command : GoString}
    (hlookup : T.handlers.lookup command = some handler) (args : List Value) :
    execute T command args s =
      { s with
        replies := s.replies ++ [(handler args (written T.onWrite command args s.world)).1]
        calls := s.calls ++ [(command, args)]
        world := (handler args (written T.onWrite command args s.world)).2 } := by
  rw [execute, hlookup]

theorem Session.Related.execute (h : s.Related R t) (hT : T.Related R T') (command : GoString)
    (args : List Value) : (execute T command args s).Related R (execute T' command args t) := by
  have hhandler := hT.handlers command
  generalize hlookup : T.handlers.lookup command = found at hhandler
  generalize hlookup' : T'.handlers.lookup command = found' at hhandler
  cases hhandler with
  | none =>
    rw [Network.execute, hlookup, Network.execute, hlookup']
    exact h
  | some hagree =>
    obtain ⟨hreply, hworld⟩ := hagree args (rel_written hT command args h.world)
    rw [execute_of_lookup hlookup, execute_of_lookup hlookup']
    refine ⟨h.authenticated, ?_, congrArg (· ++ [(command, args)]) h.calls, hworld⟩
    rw [h.replies, hreply]

/-- One turn of the loop. -/
theorem Session.Related.serve (h : s.Related R t) (hT : T.Related R T')
    (mapUpper : GoString → GoString) (value : Value) :
    (serve mapUpper T value s).Related R (serve mapUpper T' value t) := by
  unfold Network.serve
  split
  · rw [h.authenticated]
    by_cases hauth : t.authenticated = true
    · simp only [if_pos hauth]
      exact h.execute hT _ _
    · simp only [if_neg hauth]
      exact h.authenticate hT _ _
  · exact h

/-- The loop ends in related sessions or stops for the same fault. -/
theorem Transport.Related.handleConn (hT : T.Related R T') (mapUpper : GoString → GoString)
    (conn : Source UInt8) {w : ω} {w' : ω'} (hw : R w w') :
    (∃ s t, Network.handleConn mapUpper T conn w = .ok s ∧
        Network.handleConn mapUpper T' conn w' = .ok t ∧ s.Related R t) ∨
      ∃ fault, Network.handleConn mapUpper T conn w = .error fault ∧
        Network.handleConn mapUpper T' conn w' = .error fault := by
  have hstart : Session.Related R ⟨T.password = [], [], [], w⟩ ⟨T'.password = [], [], [], w'⟩ := by
    rw [hT.password]
    exact ⟨rfl, rfl, rfl, hw⟩
  unfold Network.handleConn
  rw [handleLoop_eq, handleLoop_eq]
  cases (received (conn.content.length + 1) conn).2 with
  | error fault => exact Or.inr ⟨fault, rfl, rfl⟩
  | ok ending =>
    refine Or.inl ⟨_, _, rfl, rfl, ?_⟩
    generalize (received (conn.content.length + 1) conn).1 = values
    generalize (⟨T.password = [], [], [], w⟩ : Session ω) = s at hstart
    generalize (⟨T'.password = [], [], [], w'⟩ : Session ω') = t at hstart
    induction values generalizing s t with
    | nil => exact hstart
    | cons value values ih => exact ih _ _ (hstart.serve hT mapUpper value)

end Serve

end FluxCache.Network
