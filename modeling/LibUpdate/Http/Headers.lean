import LibUpdate.Http.Body

/-!
# `Http.Headers` — the request, the header section and the fetch (`http_transport_socket.c`)

What has been received when the header section is complete is one buffer, with the beginning of the body
behind the headers. The functions that look for header lines read it as a C string, so they are given the
part before the first NUL.
-/

namespace LibUpdate

/-! ## `parse_http_url` -/

structure HttpUrl where
  host : Bytes
  path : Bytes
  tls : Bool
  port : Nat
  deriving DecidableEq, Repr

def defaultPort (tls : Bool) : Nat := if tls then 443 else 80

/-- `parse_http_url` behind the scheme. -/
def parseHttpHost (hostcap pathcap : Nat) (tls : Bool) (p : Bytes) : Option HttpUrl :=
  let host := p.takeWhile (· != ch '/')
  let path := p.dropWhile (· != ch '/')
  if path = [] then
    if host.length + 1 > hostcap then none
    else if pathcap < 2 then none
    else some ⟨host, [ch '/'], tls, defaultPort tls⟩
  else
    let name := host.takeWhile (· != ch ':')
    let afterColon := p.drop (name.length + 1)
    if name.length + 1 > hostcap then none
    else if path.length + 1 > pathcap then none
    else if name.length < host.length then
      let port := strtoull 10 afterColon % UInt32.size
      some ⟨name, path, tls, if port = 0 then defaultPort tls else port⟩
    else some ⟨host, path, tls, defaultPort tls⟩

/-- `parse_http_url`; `none` is -1. -/
def parseHttpUrl (url : Bytes) (hostcap pathcap : Nat) : Option HttpUrl :=
  if ascii "https://" <+: url then parseHttpHost hostcap pathcap true (url.drop 8)
  else if ascii "http://" <+: url then parseHttpHost hostcap pathcap false (url.drop 7)
  else none

/-! ## Header lines -/

/-- `parse_status_200`: whether it returns 0. -/
def parseStatus200 (headers : Bytes) : Bool :=
  match strstr crlf headers with
  | none => false
  | some lineEnd =>
      let line := headers.take (headers.length - lineEnd.length)
      let p := line.dropWhile fun c => !isDigitOf 10 c
      p != [] && atoi p == 200

/-- `strncasecmp(p, name, strlen(name)) == 0` for a line that is long enough. -/
def namesField (name line : Bytes) : Bool :=
  decide (line.length ≥ name.length) && (line.take name.length).map tolower == name.map tolower

/-- The value of a header line, if there is a colon and the value fits. -/
def fieldValue (line : Bytes) (outcap : Nat) : Option Bytes :=
  match line.dropWhile (· != ch ':') with
  | [] => none
  | _ :: value =>
      let value := value.dropWhile fun c => c == ch ' ' || c == ch '\t'
      if value.length + 1 > outcap then none else some value

/-- `header_value_line`; `none` is -1. -/
def headerValueLine (name : Bytes) (outcap : Nat) (p : Bytes) : Option Bytes :=
  if p = [] then none
  else
    match _h : strstr crlf p with
    | none => none
    | some lineEnd =>
        let line := p.take (p.length - lineEnd.length)
        if namesField name line then fieldValue line outcap
        else headerValueLine name outcap (lineEnd.drop 2)
termination_by p.length
decreasing_by
  have := strstr_length _h
  simp only [List.length_drop]
  simp only [crlf, List.length_cons, List.length_nil] at this
  omega

/-- `contains_token_ci`. -/
def containsTokenCi (haystack token : Bytes) : Bool :=
  match haystack with
  | [] => false
  | c :: cs => (token.map tolower).isPrefixOf ((c :: cs).map tolower) || containsTokenCi cs token

def transferEncoding : Bytes := ascii "Transfer-Encoding:"

def contentLength : Bytes := ascii "Content-Length:"

def isChunkedEncoding (headers : Bytes) : Bool :=
  match headerValueLine transferEncoding 128 headers with
  | none => false
  | some val => containsTokenCi val (ascii "chunked")

/-- `parse_content_length`: the length, if it is found. -/
def parseContentLength (headers : Bytes) : Option Nat :=
  (headerValueLine contentLength 64 headers).map (strtoull 10)

/-! ## `read_http_headers` and `update_http_fetch` -/

/-- The loop of `read_http_headers`; `none` is -1. -/
def readHttpHeaders (alloc : Nat → Bool) (buf : MemBuf) (c : Conn) : Option (MemBuf × Conn) :=
  match _h : connRecv c 2048 with
  | none => none
  | some ([], _) => none
  | some (b :: bs, c') =>
      match appendGrow alloc buf (b :: bs) with
      | none => none
      | some buf =>
          if buf.d.length > 256 * 1024 then none
          else if (strstr (crlf ++ crlf) (cstr buf.d)).isSome then some (buf, c')
          else readHttpHeaders alloc buf c'
termination_by c.bytes.length
decreasing_by
  have := (connRecv_some _h).1
  rw [this, List.length_append, List.length_cons]
  omega

/-- One pass of the header loop. -/
theorem readHttpHeaders_pass (alloc : Nat → Bool) (buf : MemBuf) (c : Conn) :
    readHttpHeaders alloc buf c = (connRecv c 2048).bind fun x =>
      if x.1 = [] then none
      else (appendGrow alloc buf x.1).bind fun buf =>
        if buf.d.length > 256 * 1024 then none
        else if (strstr (crlf ++ crlf) (cstr buf.d)).isSome then some (buf, x.2)
        else readHttpHeaders alloc buf x.2 := by
  rw [readHttpHeaders]
  split
  · next hrecv => rw [hrecv]; rfl
  · next hrecv => rw [hrecv]; rfl
  · next b bs c' hrecv =>
    rw [hrecv, Option.bind_some, if_neg (List.cons_ne_nil b bs)]
    cases appendGrow alloc buf (b :: bs) with
    | none => rfl
    | some buf => rfl

/-- With more memory the header section is the same. -/
theorem readHttpHeaders_memory {alloc : Nat → Bool} {buf : MemBuf} {c : Conn} {x : MemBuf × Conn}
    (h : readHttpHeaders alloc buf c = some x) : readHttpHeaders memory buf c = some x := by
  fun_induction readHttpHeaders alloc buf c with
  | case1 => cases h
  | case2 => cases h
  | case3 => cases h
  | case4 => cases h
  | case5 buf c b bs c' hrecv buf₁ hgrow hlen hend =>
      rw [readHttpHeaders_pass, hrecv, Option.bind_some, if_neg (List.cons_ne_nil b bs), appendGrow_memory hgrow,
        Option.bind_some, if_neg hlen, if_pos hend]
      exact h
  | case6 buf c b bs c' hrecv buf₁ hgrow hlen hend ih =>
      rw [readHttpHeaders_pass, hrecv, Option.bind_some, if_neg (List.cons_ne_nil b bs), appendGrow_memory hgrow,
        Option.bind_some, if_neg hlen, if_neg hend]
      exact ih h

/-- The body reader that the header section asks for. -/
def readFramed (alloc : Nat → Bool) (headers : Bytes) (src : IoSrc) : Option MemBuf :=
  if isChunkedEncoding headers then (readBodyChunkedSrcMem alloc src).map Prod.fst
  else
    match parseContentLength headers with
    | some contentLen => (readBodyKnownSrcMem alloc contentLen src).map Prod.fst
    | none => (readBodyUntilCloseSrcMem alloc src).map Prod.fst

/-- `update_http_fetch` from the response on: the body; `none` is -1. -/
def fetchResponse (alloc : Nat → Bool) (c : Conn) : Option MemBuf :=
  match readHttpHeaders alloc .empty c with
  | none => none
  | some (buf, c) =>
      if parseStatus200 (cstr buf.d) then
        match strstr (crlf ++ crlf) (cstr buf.d) with
        | none => none
        | some bodySep =>
            let bodyPos := (cstr buf.d).length - bodySep.length + 4
            readFramed alloc (cstr buf.d) ⟨buf.d.drop bodyPos, c⟩
      else none

/-- What resolving a host, connecting and sending a request lead to: the connection on which the response
    arrives, or `none` where one of them fails. -/
abbrev Net := HttpUrl → Bytes → Option Conn

/-- The request of `update_http_fetch`. -/
def fetchRequest (u : HttpUrl) : Bytes :=
  ascii "GET " ++ u.path ++ ascii " HTTP/1.1\r\nHost: " ++ u.host
    ++ ascii ("\r\nConnection: close\r\nUser-Agent: libupdate/1.0\r\nAccept: application/json\r\n\r\n")

/-- The request of `update_http_stream_download`. -/
def downloadRequest (u : HttpUrl) : Bytes :=
  ascii "GET " ++ u.path ++ ascii " HTTP/1.1\r\nHost: " ++ u.host
    ++ ascii ("\r\nConnection: close\r\nUser-Agent: libupdate/1.0\r\nAccept: */*\r\n\r\n")

/-- `update_http_fetch`; `none` is -1. -/
def updateHttpFetch (alloc : Nat → Bool) (net : Net) (url : Bytes) : Option MemBuf :=
  match parseHttpUrl url 512 4096 with
  | none => none
  | some u =>
      match snprintf 8192 (fetchRequest u) with
      | none => none
      | some req =>
          match net u req with
          | none => none
          | some c => fetchResponse alloc c

end LibUpdate
