import FluxCache.Network.Authentication

/-!
# One reply for each request

A client of a stream pairs the replies with its requests by counting them, so every request has to
be answered by exactly one reply (`Service.OneReplyEach`). `HTTP` and `GRPC` answer every request. A
turn of the loop of a stream answers an array unless the client is authenticated and the command is
not in the table (`replies_serve_iff`): such a command is passed over without a word.
-/

set_option autoImplicit false
set_option relaxedAutoImplicit false

namespace FluxCache.Network

open Foundation Resp

namespace Service

variable {ω ρ : Type} (service : Service ω)

/-- On a connection with these requests, every request adds exactly one reply behind those to the
requests before it. -/
def OneReplyEach (replies : service.State → List ρ) (world : ω)
    (requests : List service.Request) : Prop :=
  ∀ before request later, requests = before ++ request :: later →
    ∃ reply, replies (service.serve (service.after world before) request) =
      replies (service.after world before) ++ [reply]

/-- Once the client is authenticated, every request stands for a command of the table. -/
def KnownOnceAuthenticated (handlers : GoMap (HandlerFunc ω)) (password : GoString)
    (requests : List service.Request) : Prop :=
  ∀ before request later, requests = before ++ request :: later →
    (password = [] ∨ ∃ earlier ∈ before, service.IsAuth password earlier) →
      service.Known handlers request

end Service

/-! ### Streams -/

section Stream

variable {ω : Type} {mapUpper : GoString → GoString} {transport : Transport ω}

theorem replies_authenticate (command : GoString) (args : List Value) (session : Session ω) :
    ∃ reply, (authenticate transport command args session).replies =
      session.replies ++ [reply] := by
  unfold authenticate
  split
  · split
    · exact ⟨_, rfl⟩
    · exact ⟨_, rfl⟩
  · exact ⟨_, rfl⟩

theorem replies_execute_iff (command : GoString) (args : List Value) (session : Session ω) :
    (∃ reply, (execute transport command args session).replies = session.replies ++ [reply]) ↔
      (transport.handlers.lookup command).isSome = true := by
  unfold execute
  cases transport.handlers.lookup command with
  | none => simp
  | some handler => simp

/-- A turn of the loop answers an array exactly if the client is not authenticated or the command is
in the table. -/
theorem replies_serve_iff {value : Value} {command : GoString} {args : List Value}
    (hparse : parseValue mapUpper value = some (command, args)) (session : Session ω) :
    (∃ reply, (serve mapUpper transport value session).replies = session.replies ++ [reply]) ↔
      (session.authenticated = true → (transport.handlers.lookup command).isSome = true) := by
  rw [serve_eq, hparse]
  cases hauth : session.authenticated with
  | false => exact iff_of_true (replies_authenticate command args session) nofun
  | true => exact (replies_execute_iff command args session).trans (imp_iff_right rfl).symm

theorem exists_parseValue (mapUpper : GoString → GoString) {value : Value}
    (htype : value.type = .array) (harray : value.array ≠ []) :
    ∃ command args, parseValue mapUpper value = some (command, args) := by
  obtain ⟨first, args, hcons⟩ := List.exists_cons_of_ne_nil harray
  unfold parseValue
  rw [htype, hcons]
  exact ⟨_, _, rfl⟩

/-- Arrays that are not empty are all answered exactly if those of an authenticated client have
commands of the table. -/
theorem oneReplyEach_stream_iff (world : ω) {arrays : List Value}
    (harrays : ∀ value ∈ arrays, value.type = .array ∧ value.array ≠ []) :
    (streamService mapUpper transport).OneReplyEach Session.replies world arrays ↔
      (streamService mapUpper transport).KnownOnceAuthenticated transport.handlers
        transport.password arrays := by
  refine forall_congr' fun before ↦ forall_congr' fun value ↦ forall_congr' fun later ↦
    forall_congr' fun hsplit ↦ ?_
  have hmem : value ∈ arrays := by
    rw [hsplit]
    exact List.mem_append_right _ List.mem_cons_self
  obtain ⟨htype, harray⟩ := harrays value hmem
  obtain ⟨command, args, hparse⟩ := exists_parseValue mapUpper htype harray
  have hknown : (streamService mapUpper transport).Known transport.handlers value ↔
      (transport.handlers.lookup command).isSome = true := by
    constructor
    · rintro ⟨command', args', hparse', hsome⟩
      obtain ⟨rfl, rfl⟩ := Prod.mk.inj (Option.some.inj (hparse.symm.trans hparse'))
      exact hsome
    · exact fun hsome ↦ ⟨command, args, hparse, hsome⟩
  refine (replies_serve_iff hparse _).trans (imp_congr ?_ hknown.symm)
  exact authenticated_after_iff world before

/-- Arrays that come one with each read of the connection are what the loop reads. Assumes: they fit
in the buffer. -/
theorem received_of_chunks {values : List Value} {conn : Source UInt8} {bound : ℕ}
    (hconn : conn.chunks = values.map Value.marshal)
    (hvalues : ∀ value ∈ values,
      WellFormed value ∧ value.marshal.length ≤ Reader.bufferSize)
    (hbound : values.length < bound) : received bound conn = (values, .ok ()) := by
  induction values generalizing conn bound with
  | nil =>
    obtain ⟨bound, rfl⟩ := Nat.exists_eq_add_of_le' (Nat.one_le_of_lt hbound)
    have hend : (newResp conn).unread = [] := by
      rw [unread_newResp, Source.content, hconn]
      rfl
    rw [received, read_end hend]
  | cons value values ih =>
    obtain ⟨bound, rfl⟩ := Nat.exists_eq_add_of_le' (Nat.one_le_of_lt hbound)
    obtain ⟨hwf, hfits⟩ := hvalues value List.mem_cons_self
    have hchunks : conn.chunks = (value.marshal ++ []) :: values.map Value.marshal := by
      rw [hconn, List.append_nil, List.map_cons]
    obtain ⟨reader, hread, hrest⟩ := read_chunk hwf hchunks (by rwa [List.append_nil])
    have hlater := @ih reader.source bound hrest
      (fun v hv ↦ hvalues v (List.mem_cons_of_mem _ hv)) (Nat.lt_of_succ_lt_succ hbound)
    rw [received, hread]
    simp only [hlater]

end Stream

/-! ### Requests -/

section Requests

variable {ω ρ : Type} {handlers : GoMap (HandlerFunc ω)} {onWrite : Option (WriteFunc ω)}

theorem Answered.responses {exchange after : Exchange ρ ω}
    {parsed : Option (GoString × List Value)}
    (h : Answered handlers onWrite exchange parsed after) :
    ∃ response, after.responses = exchange.responses ++ [response] := by
  cases h with
  | malformed response => exact ⟨response, rfl⟩
  | unknown hnone response => exact ⟨response, rfl⟩
  | called hsome response => exact ⟨_, rfl⟩

end Requests

/-! ### All transports -/

section Transports

variable {ω : Type} (mapUpper : GoString → GoString) (handlers : GoMap (HandlerFunc ω))
  (onWrite : Option (WriteFunc ω))

/-- On a connection of `TCP`, `TLS` or `Unix` on which the loop reads these arrays, every array is
answered by exactly one reply, in order, exactly if the commands of an authenticated client are in
the table. `HTTP` and `GRPC` answer every request by exactly one response. -/
theorem one_reply_each_iff (password : GoString) {arrays : List Value}
    (harrays : ∀ value ∈ arrays, value.type = .array ∧ value.array ≠ []) {conn : Source UInt8}
    (hconn : received (conn.content.length + 1) conn = (arrays, .ok ())) (world : ω) :
    let service := streamService mapUpper ⟨password, handlers, onWrite⟩
    (∀ t : TCP, t.password = password →
        t.handleConn mapUpper handlers onWrite conn world = .ok (service.after world arrays)) ∧
      (∀ t : TLS, t.password = password →
        t.handleConn mapUpper handlers onWrite conn world = .ok (service.after world arrays)) ∧
      (∀ u : Unix, u.password = password →
        u.handleConn mapUpper handlers onWrite conn world = .ok (service.after world arrays)) ∧
      (service.OneReplyEach Session.replies world arrays ↔
        service.KnownOnceAuthenticated handlers password arrays) ∧
      (∀ decode requests, (httpService mapUpper decode handlers onWrite).OneReplyEach
        Exchange.responses world requests) ∧
      ∀ requests, (grpcService mapUpper handlers onWrite).OneReplyEach Exchange.responses world
        requests := by
  intro service
  have hserved : handleConn mapUpper ⟨password, handlers, onWrite⟩ conn world =
      .ok (service.after world arrays) := by
    rw [handleConn_eq, hconn]
    rfl
  refine ⟨?_, ?_, ?_, oneReplyEach_stream_iff world harrays, ?_, ?_⟩
  · rintro t rfl
    exact hserved
  · rintro t rfl
    exact hserved
  · rintro u rfl
    exact hserved
  · intro decode requests before request later _
    exact (answered_handleCommand mapUpper decode handlers onWrite _ request).responses
  · intro requests before request later _
    exact (answered_exec mapUpper handlers onWrite _ request).responses

end Transports

/-- A client sends the password and then a command of the table. -/
theorem one_reply_each_iff_auth :
    (streamService id ⟨text "pw", pingTransport.handlers, none⟩).OneReplyEach Session.replies ()
      [command [text "AUTH", text "pw"], command [text "PING"]] := by
  have hfits (bulks : List GoString) (hle : (command bulks).marshal.length ≤ Reader.bufferSize) :
      WellFormed (command bulks) ∧ (command bulks).marshal.length ≤ Reader.bufferSize :=
    ⟨wellFormed_of_fits hle, hle⟩
  refine (one_reply_each_iff id pingTransport.handlers none (text "pw") ?_
    (@received_of_chunks _ (.ofChunks [text "*2\r\n$4\r\nAUTH\r\n$2\r\npw\r\n",
      text "*1\r\n$4\r\nPING\r\n"]) _ (by decide) ?_ (by decide)) ()).2.2.2.1.mpr ?_
  · intro value hvalue
    rcases List.mem_pair.mp hvalue with rfl | rfl
    · exact ⟨rfl, List.cons_ne_nil _ _⟩
    · exact ⟨rfl, List.cons_ne_nil _ _⟩
  · intro value hvalue
    rcases List.mem_pair.mp hvalue with rfl | rfl
    · exact hfits _ (by decide)
    · exact hfits _ (by decide)
  · intro before request later hsplit hauth
    cases before with
    | nil =>
      rcases hauth with hnone | ⟨earlier, hearlier, -⟩
      · exact absurd hnone (by decide)
      · exact absurd hearlier List.not_mem_nil
    | cons first before =>
      obtain ⟨rfl, hrest⟩ := List.cons.inj hsplit
      cases before with
      | nil =>
        obtain ⟨rfl, -⟩ := List.cons.inj hrest
        exact ⟨text "PING", [], rfl, rfl⟩
      | cons second before =>
        exact absurd (List.cons.inj hrest).2.symm (List.append_ne_nil_of_right_ne_nil _
          (List.cons_ne_nil _ _))

/-- A command that is not in the table gets no reply. -/
theorem one_reply_each_missing :
    TCP.handleConn id pingTransport.handlers none ⟨text ":6379", 0, []⟩
        (.ofChunks [text "*1\r\n$4\r\nNOPE\r\n"]) () =
      .ok ⟨true, [], [], ()⟩ := by
  rfl

end FluxCache.Network
