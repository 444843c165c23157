import FluxCache.Configuration.Validate
import FluxCache.Network.Authentication

/-!
# The transport of a configuration

`buildNetwork` makes the transport that a configuration names. The three transports of streams are
given the password of the configuration; `HTTP` and `GRPC` are not, and they have no place for it.
Of a configuration that is accepted the transport can be built (`exists_buildNetwork`).

So with a password a connection of a stream is guarded by it, and a connection of the other two is
guarded exactly if the client happens to send the password before its first command
(`authentication_iff`).
-/

set_option autoImplicit false
set_option relaxedAutoImplicit false

namespace FluxCache.Configuration

open Foundation Resp Network

/-- What implements the `Network` interface. -/
inductive NetworkBackend
  | tcp (t : TCP)
  | tls (t : TLS)
  | unix (u : Unix)
  | http (h : HTTP)
  | grpc (g : GRPC)

/-- What a transport does on one connection, once it listens with a table of handlers and a call for
writes. -/
def NetworkBackend.service {ω : Type} (mapUpper : GoString → GoString)
    (decode : GoString → Option (List GoString)) (handlers : GoMap (HandlerFunc ω))
    (onWrite : Option (WriteFunc ω)) : NetworkBackend → Service ω
  | tcp t => streamService mapUpper ⟨t.password, handlers, onWrite⟩
  | tls t => streamService mapUpper ⟨t.password, handlers, onWrite⟩
  | unix u => streamService mapUpper ⟨u.password, handlers, onWrite⟩
  | http _ => httpService mapUpper decode handlers onWrite
  | grpc _ => grpcService mapUpper handlers onWrite

/-- The address of a port on all interfaces. -/
def portAddr (port : ℤ) : GoString := text ":" ++ itoa port

variable (quote : GoString → GoString)

/-- `BuildNetwork`. -/
def buildNetwork (cfg : ServerConfig) : Except GoString NetworkBackend :=
  if cfg.network = text "tcp" then
    .ok (.tcp ⟨portAddr cfg.port, cfg.maxConns, cfg.password⟩)
  else if cfg.network = text "tls" then
    if cfg.certFile = [] ∨ cfg.keyFile = [] then
      .error (text "config: tls requires cert_file and key_file")
    else
      .ok (.tls ⟨portAddr cfg.port, cfg.certFile, cfg.keyFile, cfg.maxConns, cfg.password⟩)
  else if cfg.network = text "unix" then
    if cfg.socketPath = [] then .error (text "config: unix requires socket_path")
    else .ok (.unix ⟨cfg.socketPath, cfg.maxConns, cfg.password⟩)
  else if cfg.network = text "http" then .ok (.http ⟨portAddr cfg.port⟩)
  else if cfg.network = text "grpc" then .ok (.grpc ⟨portAddr cfg.port⟩)
  else .error (text "config: unknown network " ++ quote cfg.network)

/-- The networks whose connections are streams. -/
def streamNetworks : List GoString := [text "tcp", text "tls", text "unix"]

variable {quote}

/-- The transport that is built of a configuration that is accepted: a stream with the password, or
one of the two that have none. -/
theorem exists_buildNetwork {c : Config} (hvalid : validate quote c = .ok ()) :
    ∃ backend, buildNetwork quote c.server = .ok backend ∧
      ((c.server.network ∈ streamNetworks ∧
          ((∃ t : TCP, backend = .tcp t ∧ t.password = c.server.password) ∨
            (∃ t : TLS, backend = .tls t ∧ t.password = c.server.password) ∨
            ∃ u : Unix, backend = .unix u ∧ u.password = c.server.password)) ∨
        c.server.network ∉ streamNetworks ∧
          ((∃ h, backend = .http h) ∨ ∃ g, backend = .grpc g)) := by
  obtain ⟨hname, htls, hunix⟩ := network_of_validate hvalid
  have hcases : c.server.network = text "tcp" ∨ c.server.network = text "tls" ∨
      c.server.network = text "unix" ∨ c.server.network = text "http" ∨
      c.server.network = text "grpc" := by simpa [validNetworks] using hname
  unfold buildNetwork
  rcases hcases with heq | heq | heq | heq | heq
  · rw [heq]
    exact ⟨_, rfl, Or.inl ⟨by decide, Or.inl ⟨_, rfl, rfl⟩⟩⟩
  · obtain ⟨hcert, hkey⟩ := htls heq
    have hfiles : ¬ (c.server.certFile = [] ∨ c.server.keyFile = []) := by simp [hcert, hkey]
    rw [heq, if_neg (by decide), if_pos rfl, if_neg hfiles]
    exact ⟨_, rfl, Or.inl ⟨by decide, Or.inr (Or.inl ⟨_, rfl, rfl⟩)⟩⟩
  · rw [heq, if_neg (by decide), if_neg (by decide), if_pos rfl, if_neg (hunix heq)]
    exact ⟨_, rfl, Or.inl ⟨by decide, Or.inr (Or.inr ⟨_, rfl, rfl⟩)⟩⟩
  · rw [heq]
    exact ⟨_, rfl, Or.inr ⟨by decide, Or.inl ⟨_, rfl⟩⟩⟩
  · rw [heq]
    exact ⟨_, rfl, Or.inr ⟨by decide, Or.inr ⟨_, rfl⟩⟩⟩

/-- With a password, and whatever the handlers do: on a connection of the transport that is built, a
request calls a handler or the call for writes only behind an `AUTH` request with exactly that
password, if and only if the transport is a stream or every request with a command of the table
comes behind such a request. -/
theorem authentication_iff (quote mapUpper : GoString → GoString)
    (decode : GoString → Option (List GoString)) {c : Config} (hvalid : validate quote c = .ok ())
    (hpassword : c.server.password ≠ []) :
    ∃ backend, buildNetwork quote c.server = .ok backend ∧
      ∀ (ω : Type) (handlers : GoMap (HandlerFunc ω)) (onWrite : Option (WriteFunc ω)) (world : ω)
        (requests : List (backend.service mapUpper decode handlers onWrite).Request),
        (backend.service mapUpper decode handlers onWrite).Guarded c.server.password world
            requests ↔
          (c.server.network ∈ streamNetworks ∨
            (backend.service mapUpper decode handlers onWrite).KnownAfterAuth handlers
              c.server.password requests) := by
  obtain ⟨backend, hbuild, hbackend⟩ := exists_buildNetwork hvalid
  refine ⟨backend, hbuild, fun ω handlers onWrite world requests ↦ ?_⟩
  rcases hbackend with ⟨hstream, hbackend⟩ | ⟨hother, hbackend⟩
  · refine iff_of_true ?_ (Or.inl hstream)
    rcases hbackend with ⟨t, rfl, hsame⟩ | ⟨t, rfl, hsame⟩ | ⟨u, rfl, hsame⟩
    · rw [← hsame] at hpassword ⊢
      exact guarded_stream hpassword world requests
    · rw [← hsame] at hpassword ⊢
      exact guarded_stream hpassword world requests
    · rw [← hsame] at hpassword ⊢
      exact guarded_stream hpassword world requests
  · rw [or_iff_right hother]
    rcases hbackend with ⟨_, rfl⟩ | ⟨_, rfl⟩
    · exact guarded_http_iff c.server.password world requests
    · exact guarded_grpc_iff c.server.password world requests

/-- A connection of `TCP` is guarded, whatever is sent. -/
theorem authentication_iff_tcp :
    ∃ backend, buildNetwork id { port := 6379, network := text "tcp", password := text "secret" } =
        .ok backend ∧
      ∀ (ω : Type) (handlers : GoMap (HandlerFunc ω)) (onWrite : Option (WriteFunc ω)) (world : ω)
        (requests : List (backend.service id (fun _ ↦ none) handlers onWrite).Request),
        (backend.service id (fun _ ↦ none) handlers onWrite).Guarded (text "secret") world
          requests := by
  obtain ⟨backend, hbuild, hiff⟩ := @authentication_iff id id (fun _ ↦ none)
    { Config.default with
      server := { port := 6379, network := text "tcp", password := text "secret" } } rfl nofun
  refine ⟨backend, hbuild, fun ω handlers onWrite world requests ↦ ?_⟩
  exact (hiff ω handlers onWrite world requests).mpr (Or.inl (by decide))

/-- A table with one command that counts its calls. -/
def countingHandlers : GoMap (HandlerFunc ℕ) :=
  (∅ : GoMap (HandlerFunc ℕ)).insert (text "SET") fun _ count ↦ (.ofString (text "OK"), count + 1)

/-- With a password set, the first request on a connection of `HTTP`, and of `GRPC`, calls its
handler without any `AUTH`. -/
theorem authentication_bypassed :
    (validate id { Config.default with server :=
        { port := 6379, network := text "http", password := text "secret" } } = .ok () ∧
      ∃ backend, buildNetwork id
          { port := 6379, network := text "http", password := text "secret" } =
            .ok (.http backend) ∧
        ¬ (httpService id (fun _ ↦ some [text "SET", text "k", text "v"]) countingHandlers
          none).Guarded (text "secret") 0 [⟨text "POST", text "[\"SET\",\"k\",\"v\"]"⟩]) ∧
    validate id { Config.default with server :=
        { port := 6379, network := text "grpc", password := text "secret" } } = .ok () ∧
      ∃ backend, buildNetwork id
          { port := 6379, network := text "grpc", password := text "secret" } =
            .ok (.grpc backend) ∧
        ¬ (grpcService id countingHandlers none).Guarded (text "secret") 0
          [⟨text "SET", [text "k", text "v"]⟩] := by
  refine ⟨⟨rfl, _, rfl, fun hguarded ↦ ?_⟩, rfl, _, rfl, fun hguarded ↦ ?_⟩
  · obtain ⟨earlier, hmem, -⟩ := hguarded [] _ [] rfl (Or.inr (by decide))
    exact List.not_mem_nil hmem
  · obtain ⟨earlier, hmem, -⟩ := hguarded [] _ [] rfl (Or.inr (by decide))
    exact List.not_mem_nil hmem

end FluxCache.Configuration
