import FluxCache.Server.Handler

/-!
# Replies on the wire

A client finds the end of a reply by reading it, so a reply has to be read back from its own wire
format and to leave exactly what follows it. Bulk values carry their length, integers have no
carriage return, and the lines that the handlers write are fixed texts, with one exception: `PING`
answers with its argument as a line, which ends at the first carriage return (`read_string_iff`).

The lengths of strings and arrays are 64-bit integers. Here they are any lists, so it is assumed of
the lengths in a reply (`Sized`) and of the number of arguments, which `DEL` counts.
-/

set_option autoImplicit false
set_option relaxedAutoImplicit false

namespace FluxCache.Server

open Foundation Store Resp Network

variable {σ : Type} [StoreInterface σ] {env : Environment}

/-- The lengths in a reply are 64-bit integers. -/
def Sized (v : Value) : Prop :=
  IsInt64 v.bulk.length ∧ IsInt64 v.array.length ∧ ∀ e ∈ v.array, IsInt64 e.bulk.length

/-- A handler whose replies are all well-formed. -/
def Frames (handler : HandlerFunc (TTLStore σ)) : Prop :=
  ∀ (args : List GoString) (t : TTLStore σ), IsInt64 args.length →
    Sized (handler (args.map .ofBulk) t).1 → WellFormed (handler (args.map .ofBulk) t).1

/-- What holds for every handler of the table. -/
theorem forall_handlers {motive : GoString → HandlerFunc (TTLStore σ) → Prop}
    (hping : motive (text "PING") ping) (hset : motive (text "SET") (setHandler env))
    (hget : motive (text "GET") (getHandler env)) (hhset : motive (text "HSET") (hsetHandler env))
    (hhget : motive (text "HGET") (hgetHandler env))
    (hhgetall : motive (text "HGETALL") (hgetallHandler env))
    (hexpire : motive (text "EXPIRE") (expireHandler env))
    (httl : motive (text "TTL") (ttlHandler env)) (hdel : motive (text "DEL") (delHandler env))
    {command : GoString} {handler : HandlerFunc (TTLStore σ)}
    (hhandler : (NewHandlers env).lookup command = some handler) : motive command handler := by
  have hmem := List.of_mem_dlookup (Finmap.dlookup_list_toFinmap command _ ▸ hhandler)
  refine (?_ : ∀ entry : Σ _ : GoString, HandlerFunc (TTLStore σ), entry ∈ _ →
    motive entry.1 entry.2) ⟨command, handler⟩ hmem
  simp only [List.forall_mem_cons]
  exact ⟨hping, hset, hget, hhset, hhget, hhgetall, hexpire, httl, hdel,
    fun _ hnone ↦ absurd hnone List.not_mem_nil⟩

/-! ### The handlers one by one -/

theorem text_append (s t : String) : text (s ++ t) = text s ++ text t := by
  rw [text, text, text, String.toList_append, List.map_append]

theorem wellFormed_wrongArguments {name : String} (hname : cr ∉ text name) :
    WellFormed (wrongArguments name) := by
  refine .error ?_
  rw [text_append, text_append, List.mem_append, List.mem_append]
  rintro ((hbefore | hmem) | hbehind)
  · exact absurd hbefore (by decide)
  · exact hname hmem
  · exact absurd hbehind (by decide)

theorem frames_setHandler : Frames (setHandler (σ := σ) env) := by
  intro args t _ _
  have hwrong := @wellFormed_wrongArguments "set" (by decide)
  match args with
  | [] => exact hwrong
  | [_] => exact hwrong
  | key :: val :: options =>
    rw [List.map_cons, List.map_cons, setHandler]
    cases expireOption (options.map .ofBulk) with
    | none => exact .string (by decide)
    | some sec => exact .string (by decide)

theorem wellFormed_valueReply {reply : Reply} (hsized : Sized (valueReply reply)) :
    WellFormed (valueReply reply) := by
  unfold valueReply at hsized ⊢
  split at hsized
  · exact .bulk hsized.1
  · exact .null

theorem frames_getHandler : Frames (getHandler (σ := σ) env) := by
  intro args t _ hsized
  have hwrong := @wellFormed_wrongArguments "get" (by decide)
  match args with
  | [] => exact hwrong
  | [key] => exact wellFormed_valueReply hsized
  | _ :: _ :: _ => exact hwrong

theorem frames_hsetHandler : Frames (hsetHandler (σ := σ) env) := by
  intro args t _ _
  have hwrong := @wellFormed_wrongArguments "hset" (by decide)
  match args with
  | [] => exact hwrong
  | [_] => exact hwrong
  | [_, _] => exact hwrong
  | [_, _, _] => exact .string (by decide)
  | _ :: _ :: _ :: _ :: _ => exact hwrong

theorem frames_hgetHandler : Frames (hgetHandler (σ := σ) env) := by
  intro args t _ hsized
  have hwrong := @wellFormed_wrongArguments "hget" (by decide)
  match args with
  | [] => exact hwrong
  | [_] => exact hwrong
  | [hash, key] => exact wellFormed_valueReply hsized
  | _ :: _ :: _ :: _ => exact hwrong

theorem wellFormed_fieldValues {fields : GoMap GoString} {order : List GoString}
    (hsized : Sized (.ofArray (fieldValues fields order))) :
    WellFormed (.ofArray (fieldValues fields order)) := by
  refine .array hsized.2.1 fun v hv ↦ ?_
  have hsize := hsized.2.2 v hv
  obtain ⟨key, -, hpair⟩ := List.mem_flatMap.mp hv
  rcases List.mem_pair.mp hpair with rfl | rfl
  · exact .bulk hsize
  · exact .bulk hsize

theorem frames_hgetallHandler : Frames (hgetallHandler (σ := σ) env) := by
  intro args t _ hsized
  have hwrong := @wellFormed_wrongArguments "hgetall" (by decide)
  match args with
  | [] => exact hwrong
  | [hash] =>
    rw [List.map_singleton, hgetallHandler] at hsized ⊢
    split at hsized
    · exact wellFormed_fieldValues hsized
    · exact .array (by decide) fun _ hnone ↦ absurd hnone List.not_mem_nil
  | _ :: _ :: _ => exact hwrong

theorem frames_expireHandler : Frames (expireHandler (σ := σ) env) := by
  intro args t _ _
  have hwrong := @wellFormed_wrongArguments "expire" (by decide)
  match args with
  | [] => exact hwrong
  | [_] => exact hwrong
  | [key, sec] =>
    rw [List.map_cons, List.map_singleton, expireHandler]
    cases parseInt (Value.ofBulk sec).bulk with
    | error err => exact .error (by decide)
    | ok sec =>
      refine .integer ?_
      split
      · decide
      · decide
  | _ :: _ :: _ :: _ => exact hwrong

omit [StoreInterface σ] in
theorem abs_ttl_le (env : Environment) (t : TTLStore σ) (key : GoString) :
    |(t.ttl env key).1| ≤ 2 ^ 63 := by
  have hgone : |(-2 : ℤ)| ≤ 2 ^ 63 := by decide
  unfold TTLStore.ttl TTLStore.remaining
  cases t.expireAt.lookup key with
  | none => exact hgone
  | some exp =>
    show |if since exp (env.now t.requests) ≤ 0 then -2 else since exp (env.now t.requests)| ≤ _
    split
    · exact hgone
    · exact abs_since_le _ _

omit [StoreInterface σ] in
theorem frames_ttlHandler : Frames (ttlHandler (σ := σ) env) := by
  intro args t _ _
  have hwrong := @wellFormed_wrongArguments "ttl" (by decide)
  match args with
  | [] => exact hwrong
  | [key] =>
    obtain ⟨hlow, hhigh⟩ := abs_le.mp (abs_wholeSeconds_le (abs_ttl_le env t key))
    refine .integer ⟨?_, ?_⟩
    · exact (by decide : (-2 ^ 63 : ℤ) ≤ -2 ^ 35).trans hlow
    · exact hhigh.trans_lt (by decide)
  | _ :: _ :: _ => exact hwrong

/-- No key is counted twice. -/
theorem delLoop_le (env : Environment) (args : List Value) (t : TTLStore σ) :
    (delLoop env args t).1 ≤ args.length := by
  induction args generalizing t with
  | nil => exact Nat.le_refl 0
  | cons arg args ih =>
    rw [delLoop]
    split
    · exact Nat.succ_le_succ (ih _)
    · exact (ih _).trans (Nat.le_succ _)

theorem frames_delHandler : Frames (delHandler (σ := σ) env) := by
  intro args t hargs _
  have hwrong := @wellFormed_wrongArguments "del" (by decide)
  match args with
  | [] => exact hwrong
  | key :: keys =>
    have hle := delLoop_le env ((key :: keys).map .ofBulk) t
    rw [List.length_map] at hle
    have hcount : IsInt64 ((delLoop env ((key :: keys).map .ofBulk) t).1 : ℤ) :=
      ⟨by omega, lt_of_le_of_lt (Int.ofNat_le.mpr hle) hargs.2⟩
    exact .integer hcount

/-! ### All handlers -/

/-- The reply of a handler is read back from its wire format, and leaves exactly what follows it,
unless the command is `PING` and its first argument contains a carriage return. -/
theorem framed_iff {command : GoString} {handler : HandlerFunc (TTLStore σ)}
    (hhandler : (NewHandlers env).lookup command = some handler) (args : List GoString)
    (hargs : IsInt64 args.length) (t : TTLStore σ) {r : Value}
    (hr : r = (handler (args.map .ofBulk) t).1) (hsized : Sized r) :
    (∀ rest source, read ⟨r.marshal ++ rest, source⟩ = .ok ⟨r, none, ⟨rest, source⟩⟩) ↔
      ¬(command = text "PING" ∧ ∃ first ∈ args.head?, cr ∈ first) := by
  subst hr
  have hother {name : GoString} {other : HandlerFunc (TTLStore σ)} (hframes : Frames other)
      (hname : name ≠ text "PING") (hsized : Sized (other (args.map .ofBulk) t).1) :
      (∀ rest source, read ⟨(other (args.map .ofBulk) t).1.marshal ++ rest, source⟩ =
        .ok ⟨(other (args.map .ofBulk) t).1, none, ⟨rest, source⟩⟩) ↔
        ¬(name = text "PING" ∧ ∃ first ∈ args.head?, cr ∈ first) :=
    iff_of_true (read_marshal (hframes args t hargs hsized)) fun h ↦ hname h.1
  revert hsized
  refine forall_handlers (motive := fun command handler ↦ Sized (handler (args.map .ofBulk) t).1 →
    ((∀ rest source, read ⟨(handler (args.map .ofBulk) t).1.marshal ++ rest, source⟩ =
        .ok ⟨(handler (args.map .ofBulk) t).1, none, ⟨rest, source⟩⟩) ↔
      ¬(command = text "PING" ∧ ∃ first ∈ args.head?, cr ∈ first))) ?_
    (hother frames_setHandler (by decide)) (hother frames_getHandler (by decide))
    (hother frames_hsetHandler (by decide)) (hother frames_hgetHandler (by decide))
    (hother frames_hgetallHandler (by decide)) (hother frames_expireHandler (by decide))
    (hother frames_ttlHandler (by decide)) (hother frames_delHandler (by decide)) hhandler
  intro _
  cases args with
  | nil => exact iff_of_true (read_marshal (.string (by decide))) (by simp)
  | cons first more => exact (read_string_iff first).trans (by simp)

/-- The reply to a `GET` of a string with the end of a line in it. -/
theorem framed_iff_get :
    let t := (TTLStore.new MapStore.new).set stillClock (text "k") (text "a\r\nb")
    ∀ rest source, read ⟨text "$4\r\na\r\nb\r\n" ++ rest, source⟩ =
      .ok ⟨(getHandler stillClock [.ofBulk (text "k")] t).1, none, ⟨rest, source⟩⟩ := by
  intro t
  have hlookup : (NewHandlers stillClock).lookup (text "GET") =
    some (getHandler (σ := MapStore) stillClock) := rfl
  exact (framed_iff hlookup [text "k"] (by decide) t rfl ⟨by decide, by decide, by decide⟩).mpr
    (by decide)

/-- The client reads `PING` with a carriage return in its argument as two replies. -/
theorem framed_ping :
    (ping [.ofBulk (text "a\r\n:1")] (TTLStore.new MapStore.new)).1.marshal =
        text "+a\r\n:1\r\n" ∧
      read ⟨text "+a\r\n:1\r\n", .ofChunks []⟩ =
        .ok ⟨.ofString (text "a"), none, ⟨text ":1\r\n", .ofChunks []⟩⟩ := by
  exact ⟨by decide, rfl⟩

end FluxCache.Server
