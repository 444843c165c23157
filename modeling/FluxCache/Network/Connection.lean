import FluxCache.Resp.Delivery

/-!
# One connection

The three stream transports share one loop: it reads a value from the connection, checks that the
client is authenticated, looks the command up in the table of handlers, tells the persistence about
it and writes the reply of the handler (`handleConn`). The handlers act on a state of any type.

Every turn of the loop wraps the connection in a buffered reader of its own. What the reader of one
turn has taken from the connection and not used is lost with it: `handleLoop_whole` says that of the
frames that one read brings only the first is executed. So all frames are executed exactly if every
read brings a single one.
-/

set_option autoImplicit false
set_option relaxedAutoImplicit false

namespace FluxCache.Network

open Foundation Resp

/-! ### The loop -/

/-- `HandlerFunc`, on the state that the handlers act on. -/
abbrev HandlerFunc (ω : Type) := List Value → ω → Value × ω

/-- `WriteFunc`. -/
abbrev WriteFunc (ω : Type) := GoString → List Value → ω → ω

/-- What a transport is given: the password, the table of handlers and the call for writes. -/
structure Transport (ω : Type) where
  password : GoString
  handlers : GoMap (HandlerFunc ω)
  onWrite : Option (WriteFunc ω)

/-- The state of a connection: what its loop remembers, the replies written, the handler calls made
and the state that the handlers act on. -/
structure Session (ω : Type) where
  authenticated : Bool
  replies : List Value
  calls : List (GoString × List Value)
  world : ω

variable {ω : Type} (mapUpper : GoString → GoString) (transport : Transport ω)

/-- The answer to a command before the client is authenticated. -/
def authenticate (command : GoString) (args : List Value) (session : Session ω) : Session ω :=
  if command = text "AUTH" then
    if (args.head?.any fun password ↦ password.bulk = transport.password) then
      { session with
        authenticated := true
        replies := session.replies ++ [.ofString (text "OK")] }
    else
      { session with replies := session.replies ++ [.ofError (text "ERR invalid password")] }
  else
    { session with
      replies := session.replies ++ [.ofError (text "NOAUTH Authentication required.")] }

/-- The state after the call for writes, if there is one. -/
def written (onWrite : Option (WriteFunc ω)) (command : GoString) (args : List Value) (world : ω) :
    ω :=
  match onWrite with
  | some onWrite => onWrite command args world
  | none => world

/-- The answer to a command of an authenticated client. An unknown command has none. -/
def execute (command : GoString) (args : List Value) (session : Session ω) : Session ω :=
  match transport.handlers.lookup command with
  | none => session
  | some handler =>
    let (result, world) := handler args (written transport.onWrite command args session.world)
    { session with
      replies := session.replies ++ [result]
      calls := session.calls ++ [(command, args)]
      world := world }

/-- The turn of the loop after a value has been read. -/
def serve (value : Value) (session : Session ω) : Session ω :=
  match value.type, value.array with
  | .array, first :: args =>
    let command := toUpper mapUpper first.bulk
    if session.authenticated then execute transport command args session
    else authenticate transport command args session
  | _, _ => session

/-- The loop of `handleConn`. The buffered reader of a turn is dropped at its end. -/
def handleLoop : ℕ → Source UInt8 → Session ω → Outcome (Session ω)
  | 0, _, _ => .error .exhausted
  | bound + 1, conn, session => do
    let result ← read (newResp conn)
    match result.err with
    | some _ => return session
    | none => handleLoop bound result.reader.source (serve mapUpper transport result.value session)

/-- `handleConn`. Every turn takes a byte from the connection or ends the loop. -/
def handleConn (conn : Source UInt8) (world : ω) : Outcome (Session ω) :=
  handleLoop mapUpper transport (conn.content.length + 1) conn
    ⟨transport.password = [], [], [], world⟩

/-! ### Frames on a connection -/

/-- A command with its arguments, as a client sends it. -/
structure Request where
  name : GoString
  args : List GoString

/-- The bulk values of a request. -/
def Request.bulks (request : Request) : List GoString := request.name :: request.args

/-- The wire format of requests that follow each other. -/
def frames (group : List Request) : GoString :=
  group.flatMap fun request ↦ (command request.bulks).marshal

/-- The handler call for a request. -/
def Request.call (request : Request) : GoString × List Value :=
  (toUpper mapUpper request.name, request.args.map .ofBulk)

/-- The command of a request has a handler. -/
def Request.Known (request : Request) : Prop :=
  (transport.handlers.lookup (toUpper mapUpper request.name)).isSome = true

/-- Every read of the connection brings whole frames: frames that fit in the buffer together, or a
single one of any length of which every content arrives with the read that asks for it. -/
def Whole : List (List Request) → Prop
  | [] => True
  | group :: groups =>
    (group ≠ [] ∧ (frames group).length ≤ Reader.bufferSize ∨
      ∃ request : Request, group = [request] ∧ IsInt64 request.bulks.length ∧
        (∀ bulk ∈ request.bulks, IsInt64 bulk.length) ∧
        BodiesArrive request.bulks
          (atElements request.bulks (.ofChunks ((group :: groups).map frames)))) ∧
      Whole groups

theorem length_le_of_mem_bulks {bulks : List GoString} {bulk : GoString} (hbulk : bulk ∈ bulks) :
    bulk.length ≤ (command bulks).marshal.length := by
  have hle := length_marshal_le (List.mem_map_of_mem (f := Value.ofBulk) hbulk)
  rw [marshal_ofBulk, marshalBulk, List.length_append, List.length_append] at hle
  rw [marshal_command, List.length_cons, List.length_append]
  omega

theorem length_le_length_marshalElements (bulks : List GoString) :
    bulks.length ≤ (marshalElements (bulks.map .ofBulk)).length := by
  rw [marshalElements_bulks]
  exact length_le_length_flatMap marshalBulk fun bulk _ ↦ List.cons_ne_nil bulkByte _

/-- A command that fits in the buffer can be read back. -/
theorem wellFormed_of_fits {bulks : List GoString}
    (hfits : (command bulks).marshal.length ≤ Reader.bufferSize) : WellFormed (command bulks) := by
  have hsize : Reader.bufferSize < 2 ^ 63 := by decide
  have hcount := length_le_length_marshalElements bulks
  have hmarshal := congrArg List.length (marshal_command bulks)
  rw [List.length_cons, List.length_append] at hmarshal
  refine wellFormed_command ⟨by omega, by omega⟩ fun bulk hbulk ↦ ?_
  have hle := length_le_of_mem_bulks hbulk
  exact ⟨by omega, by omega⟩

/-- The first frame of a chunk that fits in the buffer is read. The rest of the chunk is not left in
the connection. -/
theorem read_chunk {v : Value} (hv : WellFormed v) {rest : GoString} {chunks : List GoString}
    {conn : Source UInt8} (hconn : conn.chunks = (v.marshal ++ rest) :: chunks)
    (hfits : (v.marshal ++ rest).length ≤ Reader.bufferSize) :
    ∃ reader, read (newResp conn) = .ok ⟨v, none, reader⟩ ∧ reader.source.chunks = chunks := by
  obtain ⟨after, hafter, hread⟩ := read_newResp hconn hfits
  exact ⟨⟨rest, after⟩, hread.trans (read_marshal hv rest after), hafter⟩

/-- A single frame of which every content arrives is read to its last byte. -/
theorem read_single {bulks : List GoString} {chunks : List GoString} {conn : Source UInt8}
    (hcount : IsInt64 bulks.length) (hbulks : ∀ bulk ∈ bulks, IsInt64 bulk.length)
    (hconn : conn.chunks = (command bulks).marshal :: chunks)
    (harrive : BodiesArrive bulks (atElements bulks conn)) :
    ∃ reader, read (newResp conn) = .ok ⟨command bulks, none, reader⟩ ∧
      reader.source.chunks = chunks := by
  have hcontent : conn.content = (command bulks).marshal ++ chunks.flatten := by
    rw [Source.content, hconn, List.flatten_cons]
  have hunread := unread_atElements hcontent
  obtain ⟨hread, hafter⟩ := @read_array_of_arrive bulks chunks.flatten (newResp conn) hcount hbulks
    hcontent harrive
  refine ⟨_, hread, ?_⟩
  have hstart : chunks <:+ (atElements bulks conn).source.chunks := by
    refine Reader.suffix_consume (by
      show chunks <:+ conn.chunks
      rw [hconn]
      exact List.suffix_cons _ _) ?_
    rw [unread_newResp, hcontent, marshal_command, marshalLine]
    simp only [List.length_append, List.length_cons]
    omega
  exact Reader.chunks_eq_of_suffix (suffix_afterBodies hunread harrive hstart le_rfl)
    (congrArg List.length hafter)

/-- The first frame of a read is read, and the next read of the connection brings the next group. -/
theorem read_group {group : List Request} {groups : List (List Request)} {conn : Source UInt8}
    (hconn : conn.chunks = (group :: groups).map frames) (hwhole : Whole (group :: groups)) :
    ∃ request more reader, group = request :: more ∧
      read (newResp conn) = .ok ⟨command request.bulks, none, reader⟩ ∧
      reader.source.chunks = groups.map frames := by
  rcases hwhole.1 with ⟨hne, hfits⟩ | ⟨request, rfl, hcount, hbulks, harrive⟩
  · obtain ⟨request, more, rfl⟩ := List.exists_cons_of_ne_nil hne
    have hframes : frames (request :: more) = (command request.bulks).marshal ++ frames more := rfl
    rw [hframes] at hfits
    rw [List.map_cons, hframes] at hconn
    have hwf : WellFormed (command request.bulks) := by
      refine wellFormed_of_fits ?_
      rw [List.length_append] at hfits
      omega
    obtain ⟨reader, hread, hchunks⟩ := read_chunk hwf hconn hfits
    exact ⟨request, more, reader, rfl, hread, hchunks⟩
  · have hframes : frames [request] = (command request.bulks).marshal := List.append_nil _
    have hsource : Source.ofChunks (([request] :: groups).map frames) = conn := by
      refine Source.ext ?_
      rw [Source.chunks_ofChunks, hconn]
      rw [← hconn]
      exact conn.nonempty
    rw [List.map_cons, hframes] at hconn
    rw [hsource] at harrive
    obtain ⟨reader, hread, hchunks⟩ := read_single hcount hbulks hconn harrive
    exact ⟨request, [], reader, rfl, hread, hchunks⟩

/-! ### What is executed -/

variable {mapUpper transport} {session : Session ω}

theorem serve_command (hauth : session.authenticated = true) (request : Request) :
    serve mapUpper transport (command request.bulks) session =
      execute transport (toUpper mapUpper request.name) (request.args.map .ofBulk) session :=
  if_pos hauth

/-- A known command of an authenticated client is passed to its handler. -/
theorem serve_known (hauth : session.authenticated = true) {request : Request}
    (hknown : request.Known mapUpper transport) :
    (serve mapUpper transport (command request.bulks) session).authenticated = true ∧
      (serve mapUpper transport (command request.bulks) session).calls =
        session.calls ++ [request.call mapUpper] := by
  obtain ⟨handler, hhandler⟩ := Option.isSome_iff_exists.mp hknown
  rw [serve_command hauth, execute, hhandler]
  exact ⟨hauth, rfl⟩

/-- Of the frames that one read brings only the first is executed. -/
theorem handleLoop_whole {groups : List (List Request)} {conn : Source UInt8} {bound : ℕ}
    (hauth : session.authenticated = true)
    (hknown : ∀ group ∈ groups, ∀ request ∈ group, request.Known mapUpper transport)
    (hconn : conn.chunks = groups.map frames) (hwhole : Whole groups)
    (hbound : groups.length < bound) :
    ∃ final, handleLoop mapUpper transport bound conn session = .ok final ∧
      final.calls =
        session.calls ++ (groups.filterMap List.head?).map (Request.call mapUpper) := by
  induction groups generalizing conn session bound with
  | nil =>
    obtain ⟨bound, rfl⟩ := Nat.exists_eq_add_of_le' (Nat.one_le_of_lt hbound)
    have hend : (newResp conn).unread = [] := by
      rw [unread_newResp, Source.content, hconn]
      rfl
    refine ⟨session, ?_, by simp⟩
    rw [handleLoop, read_end hend]
    rfl
  | cons group groups ih =>
    obtain ⟨bound, rfl⟩ := Nat.exists_eq_add_of_le' (Nat.one_le_of_lt hbound)
    obtain ⟨request, more, reader, rfl, hread, hchunks⟩ := read_group hconn hwhole
    have hrequest := hknown _ List.mem_cons_self request List.mem_cons_self
    obtain ⟨hserved, hcalls⟩ := serve_known hauth hrequest
    obtain ⟨final, hfinal, hall⟩ := @ih _ reader.source bound hserved
      (fun g hg ↦ hknown g (List.mem_cons_of_mem _ hg)) hchunks hwhole.2
      (Nat.lt_of_succ_lt_succ hbound)
    refine ⟨final, ?_, ?_⟩
    · rw [handleLoop, hread]
      exact hfinal
    · rw [hall, hcalls, List.append_assoc]
      rfl

theorem ne_nil_of_whole {groups : List (List Request)} (hwhole : Whole groups) :
    ∀ group ∈ groups, group ≠ [] := by
  induction groups with
  | nil => exact fun _ hgroup ↦ absurd hgroup List.not_mem_nil
  | cons first groups ih =>
    intro group hgroup
    rcases List.mem_cons.mp hgroup with rfl | hgroup
    · rcases hwhole.1 with ⟨hne, _⟩ | ⟨request, rfl, _⟩
      · exact hne
      · exact List.cons_ne_nil _ _
    · exact ih hwhole.2 group hgroup

theorem length_heads_le {α : Type} (groups : List (List α)) :
    (groups.filterMap List.head?).length ≤ groups.flatten.length := by
  induction groups with
  | nil => exact Nat.le_refl 0
  | cons group groups ih =>
    rw [List.flatten_cons, List.length_append]
    cases group with
    | nil =>
      rw [List.filterMap_cons, List.head?_nil, List.length_nil, Nat.zero_add]
      exact ih
    | cons a more =>
      rw [List.filterMap_cons, List.head?_cons, List.length_cons, List.length_cons]
      omega

/-- The first elements of nonempty groups are all elements exactly if every group has one. -/
theorem map_heads_eq_iff {α β : Type} (f : α → β) {groups : List (List α)}
    (hgroups : ∀ group ∈ groups, group ≠ []) :
    (groups.filterMap List.head?).map f = groups.flatten.map f ↔
      ∀ group ∈ groups, group.length = 1 := by
  induction groups with
  | nil => simp
  | cons group groups ih =>
    obtain ⟨a, more, rfl⟩ := List.exists_cons_of_ne_nil (hgroups group List.mem_cons_self)
    rw [List.forall_mem_cons, ← ih fun g hg ↦ hgroups g (List.mem_cons_of_mem _ hg)]
    constructor
    · intro heq
      have hcons : (groups.filterMap List.head?).map f = more.map f ++ groups.flatten.map f := by
        simpa using heq
      have hlength := congrArg List.length hcons
      have hle := length_heads_le groups
      rw [List.length_append, List.length_map, List.length_map, List.length_map] at hlength
      have hmore : more = [] := List.length_eq_zero_iff.mp (by omega)
      rw [hmore] at hcons ⊢
      exact ⟨rfl, hcons⟩
    · rintro ⟨hone, heq⟩
      have hmore : more = [] := List.length_eq_zero_iff.mp (Nat.succ.inj hone)
      simpa [hmore] using heq

/-- The handlers are called for exactly the frames sent, in their order and once each, exactly if
every read of the connection brings a single frame. Assumes: the client is authenticated, every
command is known, and every read brings whole frames. -/
theorem pipelined_iff {groups : List (List Request)} {conn : Source UInt8}
    (hauth : session.authenticated = true)
    (hknown : ∀ group ∈ groups, ∀ request ∈ group, request.Known mapUpper transport)
    (hconn : conn.chunks = groups.map frames) (hwhole : Whole groups) :
    (∃ final, handleLoop mapUpper transport (conn.content.length + 1) conn session = .ok final ∧
      final.calls = session.calls ++ groups.flatten.map (Request.call mapUpper)) ↔
      ∀ group ∈ groups, group.length = 1 := by
  have hbound : groups.length < conn.content.length + 1 := by
    have hle := conn.length_chunks_le
    rw [hconn, List.length_map] at hle
    omega
  obtain ⟨final, hfinal, hcalls⟩ := handleLoop_whole hauth hknown hconn hwhole hbound
  rw [← map_heads_eq_iff (Request.call mapUpper) (ne_nil_of_whole hwhole)]
  constructor
  · rintro ⟨other, hother, hall⟩
    obtain rfl := Except.ok.inj (hfinal.symm.trans hother)
    exact List.append_cancel_left (hcalls.symm.trans hall)
  · intro heads
    exact ⟨final, hfinal, by rw [hcalls, heads]⟩

/-- A transport whose only command is `PING`. -/
def pingTransport : Transport Unit where
  password := []
  handlers := Finmap.singleton (text "PING") fun _ world ↦ (.ofString (text "PONG"), world)
  onWrite := none

/-- Two frames in two reads. -/
theorem pipelined_iff_separate :
    ∃ final, handleLoop id pingTransport 29
        (.ofChunks [text "*1\r\n$4\r\nPING\r\n", text "*1\r\n$4\r\nPING\r\n"])
        ⟨true, [], [], ()⟩ = .ok final ∧
      final.calls = [] ++ [(text "PING", []), (text "PING", [])] :=
  (@pipelined_iff Unit id pingTransport ⟨true, [], [], ()⟩
    [[⟨text "PING", []⟩], [⟨text "PING", []⟩]]
    (.ofChunks [text "*1\r\n$4\r\nPING\r\n", text "*1\r\n$4\r\nPING\r\n"])
    rfl (by unfold Request.Known; decide) (by decide)
    ⟨Or.inl (by decide), Or.inl (by decide), trivial⟩).mpr (by decide)

/-- The second of two frames in one read is lost. -/
theorem pipelined_lost :
    handleLoop id pingTransport 29
        (.ofChunks [text "*1\r\n$4\r\nPING\r\n*1\r\n$4\r\nPING\r\n"]) ⟨true, [], [], ()⟩ =
      .ok ⟨true, [.ofString (text "PONG")], [(text "PING", [])], ()⟩ := by
  rfl

end FluxCache.Network
