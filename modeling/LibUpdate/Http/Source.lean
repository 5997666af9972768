import LibUpdate.Foundation.Reader

/-!
# `Http.Source` — the connection and the buffered reader over it (`http_transport_socket.c`)

A connection is what arrives on it, in the pieces in which `recv` (or `SSL_read`) meets it: a call takes
the next piece, or as much of it as fits. Any sequence of `recv` results is the one of some list of pieces.
`io_src` reads what came with the headers first and then from the connection.
-/

namespace LibUpdate

/-- A `conn_t`: the pieces that are to arrive, and whether `recv` fails after them (it returns 0
    otherwise). -/
structure Conn where
  arrivals : List { a : Bytes // a ≠ [] }
  failing : Bool

/-- `conn_recv` into `cap > 0` bytes; `none` is -1, and no bytes are the end of the stream. -/
def connRecv (c : Conn) (cap : Nat) : Option (Bytes × Conn) :=
  match c.arrivals with
  | [] => if c.failing then none else some ([], c)
  | a :: as =>
      if h : cap < a.val.length then
        some (a.val.take cap, { c with arrivals := ⟨a.val.drop cap, by simp; omega⟩ :: as })
      else some (a.val, { c with arrivals := as })

def Conn.bytes (c : Conn) : Bytes := (c.arrivals.map Subtype.val).flatten

def Conn.stream (c : Conn) : Stream := ⟨c.bytes, c.failing⟩

/-- `io_src`; `pfx` is what `pfx_pos` has not passed yet. -/
structure IoSrc where
  pfx : Bytes
  conn : Conn

def IoSrc.stream (s : IoSrc) : Stream := ⟨s.pfx ++ s.conn.bytes, s.conn.failing⟩

/-- The loop of `src_read`, with the bytes it has got. -/
def srcReadLoop (cap : Nat) (got : Bytes) (s : IoSrc) : Option (Bytes × IoSrc) :=
  if got.length < cap then
    if s.pfx ≠ [] then
      let n := if s.pfx.length > cap - got.length then cap - got.length else s.pfx.length
      srcReadLoop cap (got ++ s.pfx.take n) { s with pfx := s.pfx.drop n }
    else
      match connRecv s.conn (cap - got.length) with
      | none => none
      | some ([], _) => some (got, s)
      | some (b :: bs, conn) => srcReadLoop cap (got ++ b :: bs) { s with conn := conn }
  else some (got, s)
termination_by cap - got.length
decreasing_by
  · have := List.length_pos_iff.mpr ‹s.pfx ≠ []›
    simp only [List.length_append, List.length_take]
    split <;> omega
  · simp only [List.length_append, List.length_cons]
    omega

/-- `src_read`; `none` is -1. -/
def srcRead (s : IoSrc) (cap : Nat) : Option (Bytes × IoSrc) := srcReadLoop cap [] s

/-! ## What one `recv` does -/

/-- A `recv` that fails finds nothing that is still to arrive. -/
theorem connRecv_none {c : Conn} {cap : Nat} (h : connRecv c cap = none) : c.bytes = [] ∧ c.failing = true := by
  unfold connRecv at h
  split at h
  · next harr =>
    refine ⟨by simp [Conn.bytes, harr], ?_⟩
    by_cases hf : c.failing = true
    · exact hf
    · rw [if_neg hf] at h
      cases h
  · split at h <;> cases h

/-- A `recv` of no bytes is the end of the stream. -/
theorem connRecv_end {c c' : Conn} {cap : Nat} (hcap : 0 < cap) (h : connRecv c cap = some ([], c')) :
    c.bytes = [] ∧ c.failing = false := by
  unfold connRecv at h
  split at h
  · next harr =>
    refine ⟨by simp [Conn.bytes, harr], ?_⟩
    by_cases hf : c.failing = true
    · rw [if_pos hf] at h
      cases h
    · simpa using hf
  · next a as harr =>
    split at h
    · next hlt =>
      obtain ⟨htake, _⟩ := Prod.mk.inj (Option.some.inj h)
      have hlen := congrArg List.length htake
      rw [List.length_take_of_le (Nat.le_of_lt hlt)] at hlen
      exact absurd hlen (by simp; omega)
    · obtain ⟨ha, _⟩ := Prod.mk.inj (Option.some.inj h)
      exact absurd ha a.property

/-- A `recv` takes its bytes off the front of what is to arrive. -/
theorem connRecv_some {c c' : Conn} {cap : Nat} {bs : Bytes} (h : connRecv c cap = some (bs, c')) :
    c.bytes = bs ++ c'.bytes ∧ c'.failing = c.failing ∧ bs.length ≤ cap := by
  unfold connRecv at h
  split at h
  · split at h
    · cases h
    · cases h
      exact ⟨rfl, rfl, by simp⟩
  · next a as harr =>
    split at h
    · next hlt =>
      cases h
      refine ⟨?_, rfl, by rw [List.length_take]; omega⟩
      simp only [Conn.bytes, harr, List.map_cons, List.flatten_cons, ← List.append_assoc,
        List.take_append_drop]
    · next hle =>
      cases h
      refine ⟨?_, rfl, by omega⟩
      simp only [Conn.bytes, harr, List.map_cons, List.flatten_cons]

/-! ## Reads are reads of the stream -/

/-- Where the stream has ended, nothing more is read. -/
theorem Stream.read_ended {s : Stream} {cap : Nat} (hcap : 0 < cap) (h : s.bytes = []) :
    s.read cap = if s.failing then none else some ([], s) := by
  have hlong : ¬ cap ≤ s.bytes.length := by rw [h]; simp; omega
  unfold Stream.read
  rw [if_neg hlong]
  by_cases hf : s.failing = true
  · simp [hf]
  · obtain ⟨bytes, failing⟩ := s
    simp_all

/-- **`src_read` cannot tell how its bytes arrived**: the loop hands out the next bytes of the stream. -/
theorem srcReadLoop_stream (cap : Nat) (got : Bytes) (s : IoSrc) (hgot : got.length ≤ cap) :
    carry IoSrc.stream (srcReadLoop cap got s)
      = (s.stream.read (cap - got.length)).map fun x => (got ++ x.1, x.2) := by
  fun_induction srcReadLoop cap got s with
  | case1 got s hlt hpfx n ih =>
      -- bytes of the prefix
      have hn : n ≤ s.pfx.length ∧ n ≤ cap - got.length := by simp only [n]; split <;> omega
      have htake : (s.stream.bytes).take n = s.pfx.take n := List.take_append_of_le_length hn.1
      have hdrop : (s.stream.bytes).drop n = s.pfx.drop n ++ s.conn.bytes := List.drop_append_of_le_length hn.1
      have hlen : (got ++ s.pfx.take n).length = got.length + n := by
        rw [List.length_append, List.length_take_of_le hn.1]
      have hle : n ≤ s.stream.bytes.length := by
        show n ≤ (s.pfx ++ s.conn.bytes).length
        rw [List.length_append]
        omega
      rw [ih (by omega), Stream.read_parts hle hn.2, htake, hdrop, hlen, Nat.sub_add_eq, Option.map_map]
      simp only [Function.comp_def, List.append_assoc]
      rfl
  | case2 got s hlt hpfx hrecv =>
      obtain ⟨hbytes, hfail⟩ := connRecv_none hrecv
      have hnil : s.stream.bytes = [] := by simp_all [IoSrc.stream]
      have hfail : s.stream.failing = true := hfail
      rw [Stream.read_ended (by omega) hnil, if_pos hfail]
      rfl
  | case3 got s hlt hpfx conn hrecv =>
      obtain ⟨hbytes, hfail⟩ := connRecv_end (by omega) hrecv
      have hnil : s.stream.bytes = [] := by simp_all [IoSrc.stream]
      have hfail : ¬ s.stream.failing = true := by simp [IoSrc.stream, hfail]
      rw [Stream.read_ended (by omega) hnil, if_neg hfail, Option.map_some, List.append_nil]
      rfl
  | case4 got s hlt hpfx b bs conn hrecv ih =>
      -- bytes of the connection, the prefix being used up
      obtain ⟨hbytes, hfail, hlen⟩ := connRecv_some hrecv
      have hpfx : s.pfx = [] := by simpa using hpfx
      have hstream : s.stream.bytes = (b :: bs) ++ conn.bytes := by simp [IoSrc.stream, hpfx, hbytes]
      have hle : (b :: bs).length ≤ s.stream.bytes.length := by rw [hstream]; simp
      have hgot' : (got ++ b :: bs).length = got.length + (b :: bs).length := List.length_append
      rw [ih (by omega), Stream.read_parts hle hlen, hgot', Nat.sub_add_eq, Option.map_map, hstream,
        List.take_left, List.drop_left]
      simp only [Function.comp_def, List.append_assoc]
      simp [IoSrc.stream, hpfx, hfail]
  | case5 got s hle =>
      have hzero : cap - got.length = 0 := by omega
      rw [hzero, Stream.read_of_le (Nat.zero_le _)]
      simp

theorem srcRead_stream (s : IoSrc) (cap : Nat) : s.stream.read cap = carry IoSrc.stream (srcRead s cap) := by
  rw [srcRead, srcReadLoop_stream cap [] s (Nat.zero_le _)]
  simp

theorem srcRead_left {s s' : IoSrc} {cap : Nat} {bs : Bytes} (h : srcRead s cap = some (bs, s')) :
    s'.stream.bytes.length + bs.length = s.stream.bytes.length := by
  have hread : s.stream.read cap = some (bs, s'.stream) := by
    rw [srcRead_stream, h]
    rfl
  exact Stream.read_left hread

/-- The buffered reader as a source. -/
def ioSource : Source IoSrc := ⟨srcRead, fun s => s.stream.bytes.length, srcRead_left⟩

/-- The buffered reader is its stream. -/
def ioMap : SourceMap ioSource Stream.source := ⟨IoSrc.stream, srcRead_stream⟩

end LibUpdate
