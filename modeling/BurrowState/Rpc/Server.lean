import BurrowState.Storage.Bytes
import Mathlib.Data.List.Infix

/-!
# Recovering and logging RPC HTTP handlers

`RecoverAndLogHandler` is modelled by the calls it makes on its `ResponseWriterWrapper`.  A request is logged as
served, with the last status written, exactly when the recovery does not panic
(`recoverAndLogHandler_logs_last_status`), while `net/http` sends the first status
(`recoverAndLogHandler_sends_first_status`).  `StartHTTPServer` splits its address at the first `://`.
-/

namespace BurrowState

def statusOK : Int := 200

def statusInternalServerError : Int := 500

/-! ### Writers -/

/-- An `http.Header`: the keys set and their values, the latest first. -/
abbrev Header := List (String × String)

def Header.set (h : Header) (key value : String) : Header := (key, value) :: h.filter fun kv => kv.1 ≠ key

/-- A call a handler makes on its `http.ResponseWriter`: `Header().Set`, `WriteHeader` or `Write`. -/
inductive WriterCall where
  | setHeader (key value : String)
  | writeHeader (status : Int)
  | write (bytes : Bytes)
  deriving DecidableEq

def WriterCall.status : WriterCall → Option Int
  | .writeHeader status => some status
  | _ => none

/-- An `http.ResponseWriter` over writers of type `W`: what each call does to the writer. -/
structure ResponseWriter (W : Type) where
  setHeader : W → String → String → W
  writeHeader : W → Int → W
  write : W → Bytes → W

namespace ResponseWriter

variable {W : Type} (rw : ResponseWriter W)

def call (w : W) : WriterCall → W
  | .setHeader key value => rw.setHeader w key value
  | .writeHeader status => rw.writeHeader w status
  | .write bytes => rw.write w bytes

def runCalls (w : W) (calls : List WriterCall) : W := calls.foldl rw.call w

@[simp] theorem runCalls_nil (w : W) : rw.runCalls w [] = w := rfl

@[simp] theorem runCalls_cons (w : W) (c : WriterCall) (calls : List WriterCall) :
    rw.runCalls w (c :: calls) = rw.runCalls (rw.call w c) calls := rfl

end ResponseWriter

/-- `ResponseWriterWrapper`: the last status written through it, and the writer it wraps. -/
structure ResponseWriterWrapper (W : Type) where
  status : Int
  responseWriter : W

namespace ResponseWriterWrapper

variable {W : Type} (rw : ResponseWriter W)

/-- The wrapper as a writer: `WriteHeader` records the status and passes it on; `Header` and `Write` are promoted. -/
def writer : ResponseWriter (ResponseWriterWrapper W) where
  setHeader w key value := ⟨w.status, rw.setHeader w.responseWriter key value⟩
  writeHeader w status := ⟨status, rw.writeHeader w.responseWriter status⟩
  write w bytes := ⟨w.status, rw.write w.responseWriter bytes⟩

private theorem call_writer (w : ResponseWriterWrapper W) (c : WriterCall) :
    (writer rw).call w c = ⟨c.status.getD w.status, rw.call w.responseWriter c⟩ := by
  cases c <;> rfl

/-- Over any calls the wrapper passes each call on; its status is the last one written. -/
theorem runCalls_writer (w : ResponseWriterWrapper W) (calls : List WriterCall) :
    (writer rw).runCalls w calls =
      ⟨((calls.filterMap WriterCall.status).getLast?).getD w.status, rw.runCalls w.responseWriter calls⟩ := by
  induction calls generalizing w with
  | nil => rfl
  | cons c calls ih =>
    rw [ResponseWriter.runCalls_cons, ih, call_writer, ResponseWriter.runCalls_cons]
    cases h : c.status with
    | none => rw [List.filterMap_cons_none h]; rfl
    | some s => rw [List.filterMap_cons_some h, List.getLast?_cons]; rfl

end ResponseWriterWrapper

/-! ### Panics and the recovery -/

/-- A value a handler panics with: a `types.RPCResponse`, an `error` (its message), or another type (its name). -/
inductive PanicValue (R : Type) where
  | rpcResponse (res : R)
  | error (msg : String)
  | other (typeName : String)

/-- The panic of the type assertion `e.(error)` on a value of another type, a `runtime.TypeAssertionError`. -/
def interfaceConversion {R : Type} (typeName : String) : PanicValue R :=
  .error ("interface conversion: " ++ typeName ++ " is not error: missing method Error")

/-- What the recovery calls that is not in the repository: `json.MarshalIndent`, `HTTPStatusCode`, `RPCInternalError`.
-/
structure RPCCollaborators (R : Type) where
  marshalIndent : R → Except String Bytes
  httpStatusCode : R → Int
  rpcInternalError : String → R

/-- The lines `RecoverAndLogHandler` logs. -/
inductive LogLine (R : Type) where
  /-- `TraceMsg("Panic in RPC HTTP handler", ...)`, with the recovered value. -/
  | panicInHandler (e : PanicValue R)
  /-- `InfoMsg("Served RPC HTTP response", ...)`, with the method, the URL, the status, the duration in
  milliseconds and the remote address. -/
  | served (method url : String) (status durationMS : Int) (remoteAddress : String)

def LogLine.servedStatus {R : Type} : LogLine R → Option Int
  | .served _ _ status _ _ => some status
  | .panicInHandler _ => none

section Recovery

variable {R : Type} (renv : RPCCollaborators R)

/-- `WriteRPCResponseHTTP`: sets the content type, writes the status and the JSON; panics if it does not marshal. -/
def writeRPCResponseHTTP (res : R) : List WriterCall × Option (PanicValue R) :=
  match renv.marshalIndent res with
  | .error err => ([], some (.error err))
  | .ok jsonBytes =>
    ([.setHeader "Content-Type" "application/json", .writeHeader (renv.httpStatusCode res), .write jsonBytes], none)

/-- The recovery of `RecoverAndLogHandler` given what `recover()` returns: its calls, log lines and own panic.  An
`RPCResponse` is written; another value is answered with 500 and asserted to be an `error`. -/
def recoverPanic : Option (PanicValue R) → List WriterCall × List (LogLine R) × Option (PanicValue R)
  | none => ([], [], none)
  | some (.rpcResponse res) => ((writeRPCResponseHTTP renv res).1, [], (writeRPCResponseHTTP renv res).2)
  | some (.error msg) =>
    (.writeHeader statusInternalServerError :: (writeRPCResponseHTTP renv (renv.rpcInternalError msg)).1,
      [.panicInHandler (.error msg)], (writeRPCResponseHTTP renv (renv.rpcInternalError msg)).2)
  | some (.other typeName) =>
    ([.writeHeader statusInternalServerError], [.panicInHandler (.other typeName)], some (interfaceConversion typeName))

theorem writeRPCResponseHTTP_eq_none_iff (res : R) :
    (writeRPCResponseHTTP renv res).2 = none ↔ ∃ jsonBytes, renv.marshalIndent res = .ok jsonBytes := by
  unfold writeRPCResponseHTTP
  cases renv.marshalIndent res <;> simp

/-- The recovery does not panic iff there was no panic, or an `RPCResponse` that marshals, or an `error` whose
internal error response marshals. -/
theorem recoverPanic_eq_none_iff (e : Option (PanicValue R)) :
    (recoverPanic renv e).2.2 = none ↔ e = none ∨
      (∃ res, e = some (.rpcResponse res) ∧ ∃ jsonBytes, renv.marshalIndent res = .ok jsonBytes) ∨
      ∃ msg, e = some (.error msg) ∧ ∃ jsonBytes, renv.marshalIndent (renv.rpcInternalError msg) = .ok jsonBytes := by
  rcases e with _ | res | msg | typeName
  · simp [recoverPanic]
  · simpa [recoverPanic] using writeRPCResponseHTTP_eq_none_iff renv res
  · simpa [recoverPanic] using writeRPCResponseHTTP_eq_none_iff renv (renv.rpcInternalError msg)
  · simp [recoverPanic, interfaceConversion]

theorem recoverPanic_servedStatus (e : Option (PanicValue R)) :
    (recoverPanic renv e).2.1.filterMap LogLine.servedStatus = [] := by
  rcases e with _ | _ | _ | _ <;> rfl

end Recovery

/-! ### The handler -/

/-- What `RecoverAndLogHandler` reads of an `http.Request`: its `Origin`, method, URL and remote address. -/
structure Request where
  origin : String
  method : String
  url : String
  remoteAddr : String

/-- The clock's two readings: `begin.Unix()`, and `time.Since(begin)` when the request is logged. -/
structure Clock where
  beginUnix : Int
  elapsed : Int

def commonHeaders (r : Request) (clock : Clock) : List WriterCall :=
  [.setHeader "Access-Control-Allow-Origin" r.origin, .setHeader "Access-Control-Allow-Credentials" "true",
    .setHeader "Access-Control-Expose-Headers" "X-Server-Time", .setHeader "X-Server-Time" (toString clock.beginUnix)]

/-- An `http.Handler` by what it does: its calls on the writer, and the value it panics with, if any. -/
abbrev Handler (R : Type) := Request → List WriterCall × Option (PanicValue R)

/-- The status the deferred function logs for the wrapper's `Status`: `-1`, no status written, is logged as 200. -/
def loggedStatus (status : Int) : Int := if status = -1 then statusOK else status

/-- `RecoverAndLogHandler`: the wrapped writer after the request, the lines logged, and the panic that leaves
`ServeHTTP`.  The deferred function logs the request unless its recovery panicked. -/
def recoverAndLogHandler {R W : Type} (renv : RPCCollaborators R) (rw : ResponseWriter W) (handler : Handler R)
    (clock : Clock) (r : Request) (w : W) : W × List (LogLine R) × Option (PanicValue R) :=
  let recovery := recoverPanic renv (handler r).2
  let rww := (ResponseWriterWrapper.writer rw).runCalls ⟨-1, w⟩ (commonHeaders r clock ++ (handler r).1 ++ recovery.1)
  match recovery.2.2 with
  | some e => (rww.responseWriter, recovery.2.1, some e)
  | none =>
    (rww.responseWriter,
      recovery.2.1 ++ [.served r.method r.url (loggedStatus rww.status) (clock.elapsed.tdiv 1000000) r.remoteAddr],
      none)

section Handler

variable {R W : Type} (renv : RPCCollaborators R) (rw : ResponseWriter W) (handler : Handler R) (clock : Clock)
  (r : Request) (w : W)

def requestCalls : List WriterCall := commonHeaders r clock ++ (handler r).1 ++ (recoverPanic renv (handler r).2).1

private theorem commonHeaders_status : (commonHeaders r clock).filterMap WriterCall.status = [] := rfl

private theorem runCalls_requestCalls :
    (ResponseWriterWrapper.writer rw).runCalls ⟨-1, w⟩ (requestCalls renv handler clock r) =
      ⟨(((handler r).1 ++ (recoverPanic renv (handler r).2).1).filterMap WriterCall.status).getLast?.getD (-1),
        rw.runCalls w (requestCalls renv handler clock r)⟩ := by
  rw [ResponseWriterWrapper.runCalls_writer, requestCalls, List.append_assoc, List.filterMap_append,
    commonHeaders_status, List.nil_append]

/-- The wrapper is transparent; the request ends with the recovery's panic, or is logged with the wrapper's status. -/
theorem recoverAndLogHandler_eq :
    recoverAndLogHandler renv rw handler clock r w =
      (rw.runCalls w (requestCalls renv handler clock r),
        match (recoverPanic renv (handler r).2).2.2 with
        | some e => ((recoverPanic renv (handler r).2).2.1, some e)
        | none => ((recoverPanic renv (handler r).2).2.1 ++
            [.served r.method r.url (loggedStatus ((((handler r).1 ++ (recoverPanic renv (handler r).2).1).filterMap
              WriterCall.status).getLast?.getD (-1))) (clock.elapsed.tdiv 1000000) r.remoteAddr], none)) := by
  simp only [recoverAndLogHandler]
  rw [show commonHeaders r clock ++ (handler r).1 ++ (recoverPanic renv (handler r).2).1 =
    requestCalls renv handler clock r from rfl, runCalls_requestCalls]
  cases (recoverPanic renv (handler r).2).2.2 <;> rfl

/-- `RecoverAndLogHandler` logs each request as served at most once, with the last status written: the writer
receives the common headers, the handler's calls and the recovery's unchanged; the request ends in a panic iff the
recovery panics; otherwise one line is logged with the last status written, 200 when there is none. -/
theorem recoverAndLogHandler_logs_last_status :
    (recoverAndLogHandler renv rw handler clock r w).1 =
        rw.runCalls w (commonHeaders r clock ++ (handler r).1 ++ (recoverPanic renv (handler r).2).1) ∧
      ((recoverAndLogHandler renv rw handler clock r w).2.2 = none ↔ (handler r).2 = none ∨
        (∃ res, (handler r).2 = some (.rpcResponse res) ∧ ∃ jsonBytes, renv.marshalIndent res = .ok jsonBytes) ∨
        ∃ msg, (handler r).2 = some (.error msg) ∧
          ∃ jsonBytes, renv.marshalIndent (renv.rpcInternalError msg) = .ok jsonBytes) ∧
      (recoverAndLogHandler renv rw handler clock r w).2.1.filterMap LogLine.servedStatus =
        if (recoverAndLogHandler renv rw handler clock r w).2.2.isNone then
          [loggedStatus ((((handler r).1 ++ (recoverPanic renv (handler r).2).1).filterMap
            WriterCall.status).getLast?.getD (-1))]
        else [] := by
  rw [recoverAndLogHandler_eq]
  refine ⟨rfl, ?_⟩
  have hlog := recoverPanic_servedStatus renv (handler r).2
  have hiff := recoverPanic_eq_none_iff renv (handler r).2
  rcases h : (recoverPanic renv (handler r).2).2.2 with _ | e <;> rw [h] at hiff
  · simpa [List.filterMap_append, hlog, LogLine.servedStatus] using hiff
  · simpa [hlog] using hiff

end Handler

/-! ### The writer of `net/http` -/

/-- What the writer of `net/http` buffers: the header, the status and header the first write fixed, and the body. -/
structure Response where
  header : Header
  wroteHeader : Option (Int × Header)
  body : Bytes

/-- The writer of `net/http` as documented (not in the repository): the first `WriteHeader` fixes the status with
the header as it is then, later ones are ignored, and `Write` fixes 200 first when nothing was fixed. -/
def httpResponseWriter : ResponseWriter Response where
  setHeader w key value := { w with header := w.header.set key value }
  writeHeader w status := { w with wroteHeader := w.wroteHeader.or (some (status, w.header)) }
  write w bytes := { w with wroteHeader := w.wroteHeader.or (some (statusOK, w.header)), body := w.body ++ bytes }

/-- The status a call fixes on the writer of `net/http` when none was fixed: `WriteHeader` its own, `Write` 200. -/
def WriterCall.fixesStatus : WriterCall → Option Int
  | .setHeader _ _ => none
  | .writeHeader status => some status
  | .write _ => some statusOK

/-- What `net/http` sends once `ServeHTTP` returns (`finishRequest`): the status the writer fixed, or 200.  A
request whose `ServeHTTP` panics is not finished: the server recovers the panic and closes the connection. -/
def finishRequest {R : Type} : Response × List (LogLine R) × Option (PanicValue R) → Option Int
  | (w, _, none) => some ((w.wroteHeader.map Prod.fst).getD statusOK)
  | (_, _, some _) => none

private theorem wroteHeader_runCalls (w : Response) (calls : List WriterCall) :
    (httpResponseWriter.runCalls w calls).wroteHeader.map Prod.fst =
      (w.wroteHeader.map Prod.fst).or (calls.filterMap WriterCall.fixesStatus).head? := by
  induction calls generalizing w with
  | nil => simp
  | cons c calls ih =>
    rw [ResponseWriter.runCalls_cons, ih]
    rcases w with ⟨header, _ | ⟨status, sentHeader⟩, body⟩ <;> cases c <;> rfl

/-- On the writer of `net/http` the client receives the first status of a request while the log records the last:
a request that returns is finished with the first status fixed (`Write` fixes 200), or 200; one that panics is not. -/
theorem recoverAndLogHandler_sends_first_status {R : Type} (renv : RPCCollaborators R) (handler : Handler R)
    (clock : Clock) (r : Request) {w : Response} (hw : w.wroteHeader = none) :
    finishRequest (recoverAndLogHandler renv httpResponseWriter handler clock r w) =
      if (recoverAndLogHandler renv httpResponseWriter handler clock r w).2.2.isNone then
        some (((((handler r).1 ++ (recoverPanic renv (handler r).2).1).filterMap WriterCall.fixesStatus).head?).getD
          statusOK)
      else none := by
  have hfix : (httpResponseWriter.runCalls w (requestCalls renv handler clock r)).wroteHeader.map Prod.fst =
      (((handler r).1 ++ (recoverPanic renv (handler r).2).1).filterMap WriterCall.fixesStatus).head? := by
    rw [wroteHeader_runCalls, hw, requestCalls, List.append_assoc, List.filterMap_append]
    rfl
  rw [recoverAndLogHandler_eq]
  rcases (recoverPanic renv (handler r).2).2.2 with _ | e
  · exact congrArg (fun o => some (o.getD statusOK)) hfix
  · rfl

/-- Collaborators whose responses are their status. -/
def statusCollaborators : RPCCollaborators Int := ⟨fun _ => .ok [], id, fun _ => statusInternalServerError⟩

/-- A handler that writes 404 and then panics with an error. -/
def notFoundThenPanic : Handler Int := fun _ => ([.writeHeader 404], some (.error "lookup failed"))

def emptyResponse : Response := ⟨[], none, []⟩

/-- The client receives 404 while the log records 500. -/
theorem recoverAndLogHandler_sends_first_status_notFound :
    emptyResponse.wroteHeader = none ∧
      finishRequest (recoverAndLogHandler statusCollaborators httpResponseWriter notFoundThenPanic ⟨0, 0⟩
        ⟨"", "GET", "/", ""⟩ emptyResponse) = some 404 ∧
      (recoverAndLogHandler statusCollaborators httpResponseWriter notFoundThenPanic ⟨0, 0⟩ ⟨"", "GET", "/", ""⟩
        emptyResponse).2.1.filterMap LogLine.servedStatus = [500] :=
  ⟨rfl, (recoverAndLogHandler_sends_first_status statusCollaborators notFoundThenPanic ⟨0, 0⟩ ⟨"", "GET", "/", ""⟩
    rfl).trans rfl, rfl⟩

/-! ### The listening address -/

/-- `strings.SplitN(s, sep, 2)` over characters, for a separator that is not empty: the part before the first
occurrence of `sep` and the part after it, or `none` when `s` does not contain `sep` (where Go returns `[s]`). -/
def splitFirst (sep : List Char) : List Char → Option (List Char × List Char)
  | [] => none
  | c :: cs =>
    if sep <+: c :: cs then some ([], (c :: cs).drop sep.length)
    else (splitFirst sep cs).map fun parts => (c :: parts.1, parts.2)

private theorem cons_dropLast_isPrefix (sep : List Char) (d : Char) (a b : List Char) :
    d :: (a ++ sep.dropLast) <+: d :: (a ++ sep ++ b) := by
  rw [List.append_assoc]
  exact List.cons_prefix_cons.2
    ⟨rfl, (List.prefix_append_right_inj a).2 ((List.dropLast_prefix sep).trans (List.prefix_append _ _))⟩

section Split

variable {sep : List Char} (hsep : sep ≠ [])
include hsep

theorem splitFirst_eq_none_iff (s : List Char) : splitFirst sep s = none ↔ ¬ sep <:+: s := by
  induction s with
  | nil => simpa [splitFirst, List.infix_nil] using hsep
  | cons c cs ih =>
    rw [splitFirst, List.infix_cons_iff, not_or, ← ih]
    split_ifs with h <;> simp [h]

private theorem not_infix_dropLast : ¬ sep <:+: sep.dropLast := fun h => by
  have hlen := h.length_le
  rw [List.length_dropLast] at hlen
  have := List.length_pos.2 hsep
  omega

theorem splitFirst_eq_some {s a b : List Char} (h : splitFirst sep s = some (a, b)) :
    s = a ++ sep ++ b ∧ ¬ sep <:+: a ++ sep.dropLast := by
  induction s generalizing a with
  | nil => cases h
  | cons c cs ih =>
    unfold splitFirst at h
    split_ifs at h with hp
    · cases h
      exact ⟨(List.prefix_iff_eq_append.1 hp).symm, not_infix_dropLast hsep⟩
    · obtain ⟨⟨a', b'⟩, hs, heq⟩ := Option.map_eq_some'.1 h
      cases heq
      obtain ⟨hcs, hfirst⟩ := ih hs
      refine ⟨by rw [hcs]; rfl, ?_⟩
      rw [List.cons_append, List.infix_cons_iff, not_or]
      exact ⟨fun hp' => hp (hcs ▸ hp'.trans (cons_dropLast_isPrefix sep c a' b')), hfirst⟩

private theorem splitFirst_append {a : List Char} (b : List Char) (h : ¬ sep <:+: a ++ sep.dropLast) :
    splitFirst sep (a ++ sep ++ b) = some (a, b) := by
  induction a with
  | nil =>
    obtain ⟨c, sep', rfl⟩ := List.exists_cons_of_ne_nil hsep
    simp [splitFirst]
  | cons d a ih =>
    rw [List.cons_append, List.infix_cons_iff, not_or] at h
    have hnot : ¬ sep <+: d :: (a ++ sep ++ b) := fun hp =>
      h.1 (List.prefix_of_prefix_length_le hp (cons_dropLast_isPrefix sep d a b)
        (by simp only [List.length_cons, List.length_append, List.length_dropLast]; omega))
    rw [List.cons_append, List.cons_append, splitFirst, if_neg hnot, ih h.2]
    rfl

end Split

/-- `StartHTTPServer` up to its listener: the listener `net.Listen` opens on the protocol and the address of
`listenAddr`, or the error.  The server it starts on the listener, in a goroutine, is not modelled. -/
def startHTTPServer {L : Type} (listen : String → String → Except String L) (listenAddr : String) :
    Except GoError L :=
  match splitFirst "://".toList listenAddr.toList with
  | none => .error (.error ("Invalid listening address " ++ listenAddr ++
      " (use fully formed addresses, including the tcp:// or unix:// prefix)"))
  | some (proto, addr) =>
    match listen (String.mk proto) (String.mk addr) with
    | .error err => .error (.error ("Failed to listen on " ++ listenAddr ++ ": " ++ err))
    | .ok listener => .ok listener

/-- `StartHTTPServer` splits its address at the first `://`: one without `://` is rejected before listening, every
address it listens on is `proto ++ "://" ++ addr` with no earlier `://`, and every such address splits back. -/
theorem startHTTPServer_splits_at_first_separator {L : Type} (listen : String → String → Except String L) :
    (∀ listenAddr, ¬ "://".toList <:+: listenAddr.toList → startHTTPServer listen listenAddr =
      .error (.error ("Invalid listening address " ++ listenAddr ++
        " (use fully formed addresses, including the tcp:// or unix:// prefix)"))) ∧
    (∀ listenAddr listener, startHTTPServer listen listenAddr = .ok listener →
      ∃ proto addr, listenAddr = proto ++ "://" ++ addr ∧ ¬ "://".toList <:+: proto.toList ++ [':', '/'] ∧
        listen proto addr = .ok listener) ∧
    ∀ proto addr, ¬ "://".toList <:+: proto.toList ++ [':', '/'] →
      startHTTPServer listen (proto ++ "://" ++ addr) =
        match listen proto addr with
        | .error err => .error (.error ("Failed to listen on " ++ (proto ++ "://" ++ addr) ++ ": " ++ err))
        | .ok listener => .ok listener := by
  have hsep : "://".toList ≠ [] := by decide
  refine ⟨fun listenAddr h => ?_, fun listenAddr listener h => ?_, fun proto addr h => ?_⟩
  · rw [startHTTPServer, (splitFirst_eq_none_iff hsep _).2 h]
  · unfold startHTTPServer at h
    rcases hs : splitFirst "://".toList listenAddr.toList with _ | ⟨proto, addr⟩ <;> rw [hs] at h
    · cases h
    obtain ⟨heq, hfirst⟩ := splitFirst_eq_some hsep hs
    refine ⟨String.mk proto, String.mk addr, String.ext heq, hfirst, ?_⟩
    dsimp only at h
    rcases hl : listen (String.mk proto) (String.mk addr) with err | l <;> rw [hl] at h <;> dsimp only at h
    · cases h
    · cases h
      rfl
  · rw [startHTTPServer, show (proto ++ "://" ++ addr).toList = proto.toList ++ "://".toList ++ addr.toList from rfl,
      splitFirst_append hsep _ h]
    rfl

/-- A Unix socket address, whose path starts with a slash right after the separator. -/
theorem startHTTPServer_splits_at_first_separator_unix :
    ¬ "://".toList <:+: "unix".toList ++ [':', '/'] ∧
      startHTTPServer (fun proto addr => (.ok (proto, addr) : Except String (String × String)))
        ("unix" ++ "://" ++ "/tmp/burrow.sock") = .ok ("unix", "/tmp/burrow.sock") :=
  ⟨by decide, ((startHTTPServer_splits_at_first_separator fun proto addr =>
    (.ok (proto, addr) : Except String (String × String))).2.2 "unix" "/tmp/burrow.sock" (by decide)).trans rfl⟩

end BurrowState
