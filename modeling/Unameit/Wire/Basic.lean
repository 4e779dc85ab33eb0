import Mathlib.Tactic
import Unameit.Lib.Int32
import Unameit.Lib.Overwrite

/-!
# Wire — messages on a stream

A message on a connection is a header of 16 bytes, the data, and a trailer of 16 bytes if there is a
message integrity check (MIC) for the direction.  `Unameit_Conn_Progress` transfers it in pieces of
any size; what comes next is described by up to three I/O vectors.

A stream is given by what the peer has sent, and by a list of events that say how each single `recv`
or `send` ends.  Two things are recorded that the code has no variables for: the calls of the
callback, and the places in memory that are handed to the stream or written by `alloc_data`.
-/

namespace Unameit
namespace Wire

open Function (update)

abbrev Bytes := List UInt8

/-! ## Constants and machine integers -/

def connMagic : ℕ := 0x95110814

def connPktLen : ℕ := 0x1000

/-- `sizeof(message->header.data)`. -/
def headerLen : ℕ := 16

def micLen : ℕ := 16

/-- `sizeof(des_cblock)`. -/
def desLen : ℕ := 8

def maxCopySize : ℕ := 4 * 1024 + 16

def hton (n : ℕ) : Bytes :=
  [UInt8.ofNat (n / 2 ^ 24), UInt8.ofNat (n / 2 ^ 16), UInt8.ofNat (n / 2 ^ 8), UInt8.ofNat n]

/-- `ntoh_copy`. -/
def ntoh (b : Bytes) : ℕ :=
  (b.take 4).foldl (fun n x => 2 ^ 8 * n + x.toNat) 0

/-! ## Connections -/

/-- `conn_state_t`. -/
inductive ConnState
  | new
  | reading
  | iodone
  | writing
  | eof
  deriving DecidableEq, Repr

/-- `conn_error_t`. -/
inductive ConnError
  | inval
  | short
  | size
  | read
  | write
  | magic
  deriving DecidableEq, Repr

/-- Where an I/O vector points into. -/
inductive Region
  | null
  | header
  | data (buffer : ℕ)
  | trailer
  deriving DecidableEq, Repr

/-- `struct iovec`: the address is an offset into a region. -/
structure Iovec where
  region : Region
  off : ℕ
  len : ℕ
  deriving DecidableEq, Repr

/-- `Tcl_FreeProc`: how the data of a message are freed. -/
inductive FreeProc
  | static
  | dynamic
  | proc
  deriving DecidableEq, Repr

/-- The context of a MIC.  `md5` has the bytes that have gone into the checksum. -/
structure Context where
  seqno : ℕ
  offset : ℕ
  key : Bytes
  md5 : Bytes
  digest : Bytes
  sessid : Bytes
  final : Bool
  deriving DecidableEq, Repr

/-- `conn_crypto_t`.  There is an `update_mic` if and only if there is a context. -/
structure Crypto where
  micOk : Bool
  context : Option Context
  deriving DecidableEq, Repr

structure Header where
  data : Bytes
  offset : ℕ
  deriving DecidableEq, Repr

def Header.magic (h : Header) : ℕ := ntoh h.data
def Header.authType (h : Header) : ℕ := ntoh (h.data.drop 4)
def Header.result (h : Header) : ℕ := ntoh (h.data.drop 8)
def Header.datalen (h : Header) : ℕ := ntoh (h.data.drop 12)

structure Trailer where
  offset : ℕ
  mic : Bytes
  deriving DecidableEq, Repr

/-- `conn_message_t`. -/
structure Message where
  iov : ℕ → Iovec
  nvec : ℕ
  header : Header
  authType : ℕ
  maxlen : ℕ
  length : ℕ
  offset : ℕ
  data : Option ℕ
  free : FreeProc
  trailer : Trailer
  readCrypto : Crypto
  writeCrypto : Crypto

/-- A place in memory that is read or written: the size of the region at that time, if it is there
at all, and the size that the region is expected to have at least. -/
structure Access where
  size : Option ℕ
  off : ℕ
  len : ℕ
  room : ℕ
  deriving DecidableEq, Repr

/-- `conn_t`, with the buffers that are allocated. -/
structure Conn where
  message : Message
  errno : Option ConnError
  state : ConnState
  callback : Bool
  heap : ℕ → Option Bytes
  nextBuffer : ℕ
  callbacks : List ConnState
  accesses : List Access

/-- A connection as `Unameit_Conn_Connect` and `server_accept` make it. -/
def Conn.fresh : Conn where
  message :=
    { iov := fun _ => ⟨.null, 0, 0⟩
      nvec := 0
      header := ⟨List.replicate headerLen 0, 0⟩
      authType := 0
      maxlen := 0
      length := 0
      offset := 0
      data := none
      free := .static
      trailer := ⟨0, List.replicate micLen 0⟩
      readCrypto := ⟨false, none⟩
      writeCrypto := ⟨false, none⟩ }
  errno := none
  state := .iodone
  callback := true
  heap := fun _ => none
  nextBuffer := 0
  callbacks := []
  accesses := []

/-- The ways in which the program can stop: a failed assertion, a call of `panic`, or the use of a
null pointer. -/
inductive Abort
  | assertion
  | panic
  | nullPointer
  deriving DecidableEq, Repr

/-! ## Memory -/

def Conn.bytes (c : Conn) : Region → Bytes
  | .null => []
  | .header => c.message.header.data
  | .data b => (c.heap b).getD []
  | .trailer => c.message.trailer.mic

def Conn.size (c : Conn) : Region → Option ℕ
  | .null => none
  | .header => some c.message.header.data.length
  | .data b => (c.heap b).map List.length
  | .trailer => some c.message.trailer.mic.length

def Conn.fetch (c : Conn) (v : Iovec) : Bytes :=
  ((c.bytes v.region).drop v.off).take v.len

def Conn.store (c : Conn) (v : Iovec) (b : Bytes) : Conn :=
  match v.region with
  | .null => c
  | .header =>
    { c with
      message.header.data := overwrite c.message.header.data v.off b }
  | .data n =>
    { c with heap := update c.heap n ((c.heap n).map fun l => overwrite l v.off b) }
  | .trailer =>
    { c with
      message.trailer.mic := overwrite c.message.trailer.mic v.off b }

def Message.vectors (m : Message) : List Iovec :=
  (List.range m.nvec).map m.iov

/-- The buffer of a message that is being received must have room for the data and a NUL. -/
def Conn.room (c : Conn) (v : Iovec) : ℕ :=
  match v.region with
  | .data _ => if c.state = .reading then c.message.length + 1 else 0
  | _ => 0

def Conn.hand (c : Conn) : Conn :=
  { c with
    accesses := c.accesses ++
      c.message.vectors.map fun v => ⟨c.size v.region, v.off, v.len, c.room v⟩ }

/-! ## Windows -/

def Message.hasMic (m : Message) (state : ConnState) : Bool :=
  (state = .reading && m.readCrypto.context.isSome) ||
    (state = .writing && m.writeCrypto.context.isSome)

def Message.headerVecs (m : Message) : ℕ :=
  if m.header.offset < headerLen then 1 else 0

def Message.dataVecs (m : Message) : ℕ :=
  if m.offset < m.length then 1 else 0

def iovInitTrailer (m : Message) (state : ConnState) : Message :=
  if m.hasMic state then
    { m with
      trailer.offset := 0
      iov := update m.iov (m.headerVecs + m.dataVecs) ⟨.trailer, 0, micLen⟩
      nvec := m.headerVecs + m.dataVecs + 1 }
  else { m with nvec := m.headerVecs + m.dataVecs }

def Message.dataRegion (m : Message) : Region :=
  match m.data with
  | none => .null
  | some b => .data b

def iovInitData (m : Message) (state : ConnState) : Message :=
  if connPktLen - headerLen < m.length then
    { m with
      offset := 0
      iov := update m.iov m.headerVecs ⟨m.dataRegion, 0, connPktLen - headerLen⟩
      nvec := m.headerVecs + 1 }
  else
    iovInitTrailer
      { m with
        offset := 0
        iov := update m.iov m.headerVecs ⟨m.dataRegion, 0, m.length⟩ }
      state

def iovInitHeader (m : Message) (state : ConnState) : Message :=
  let m :=
    { m with
      header.offset := 0
      iov := update m.iov 0 ⟨.header, 0, headerLen⟩
      nvec := 1 }
  if state = .writing then iovInitData m state else m

/-- `ckalloc`; the argument is an `unsigned int`. -/
def Conn.ckalloc (c : Conn) (size : ℕ) : ℕ × Conn :=
  (c.nextBuffer,
    { c with
      heap := update c.heap c.nextBuffer (some (List.replicate (size % 2 ^ 32) 0))
      nextBuffer := c.nextBuffer + 1 })

def allocData (c : Conn) : Conn :=
  let m := c.message
  if m.header.magic ≠ connMagic then { c with errno := some .magic }
  else
    let datalen := m.header.datalen
    if m.maxlen ≠ 0 ∧ m.maxlen < datalen then { c with errno := some .size }
    else
      let (buffer, c) := c.ckalloc (datalen + 1)
      let c := c.store ⟨.data buffer, datalen, 1⟩ [0]
      { c with
        message :=
          { m with
            length := datalen
            authType := m.header.authType
            data := some buffer
            free := .dynamic }
        accesses := c.accesses ++ [⟨c.size (.data buffer), datalen, 1, datalen + 1⟩] }

def Message.advance (m : Message) (nio : ℕ) : Message :=
  { m with
    iov := update m.iov 0 ⟨(m.iov 0).region, (m.iov 0).off + nio, (m.iov 0).len - nio⟩ }

def slideTrailer (m : Message) (nio : ℤ) : Except Abort Message :=
  if nio = 0 then .ok m
  else if m.nvec = 0 then .ok m
  else
    let tail := int32 (micLen - m.trailer.offset - nio)
    if 0 < tail then
      .ok
        { m.advance nio.toNat with
          trailer.offset := m.trailer.offset + nio.toNat }
    else if tail = 0 then
      .ok
        { m with
          trailer.offset := micLen
          nvec := 0 }
    else .error .assertion

def slideData (m : Message) (state : ConnState) (nio : ℤ) : Except Abort Message :=
  if nio = 0 then .ok m
  else if m.offset < m.length then
    let tail := int32 (m.length - m.offset - nio)
    if 0 < tail then
      let v := m.iov 0
      let off := m.offset + nio.toNat
      if connPktLen < tail then
        .ok
          { m with
            offset := off
            iov := update m.iov 0 ⟨v.region, v.off + nio.toNat, connPktLen⟩ }
      else
        -- The data might be finished by the next I/O.
        .ok <|
          iovInitTrailer
            { m with
              offset := off
              iov := update m.iov 0 ⟨v.region, v.off + nio.toNat, tail.toNat⟩ }
            state
    else slideTrailer (iovInitTrailer { m with offset := m.length } state) (int32 (-tail))
  else slideTrailer m nio

def Conn.setMessage (c : Conn) (r : Except Abort Message) : Except Abort Conn :=
  r.map fun m => { c with message := m }

def slideWindow (c : Conn) (nio : ℤ) : Except Abort Conn :=
  let m := c.message
  if m.header.offset < headerLen then
    let tail := int32 (headerLen - m.header.offset - nio)
    if 0 < tail then
      .ok
        { c with
          message :=
            { m.advance nio.toNat with
              header.offset := m.header.offset + nio.toNat } }
    else
      let nio := int32 (-tail)
      let c := { c with message.header.offset := headerLen }
      if c.state = .reading then
        -- Only the header has been read.
        if m.nvec = 1 ∧ nio = 0 then
          let c := allocData c
          c.setMessage (slideData (iovInitData c.message c.state) c.state nio)
        else .error .assertion
      else
        c.setMessage (slideData (iovInitData c.message c.state) c.state nio)
  else c.setMessage (slideData m c.state nio)

/-! ## Message integrity checks -/

/-- MD5, and DES in ECB mode for a key and a block of eight bytes. -/
structure Ciphers where
  md5 : Bytes → Bytes
  md5_length : ∀ b, (md5 b).length = micLen
  encrypt : Bytes → Bytes → Bytes
  decrypt : Bytes → Bytes → Bytes
  encrypt_length : ∀ {key b}, b.length = desLen → (encrypt key b).length = desLen
  decrypt_length : ∀ {key b}, b.length = desLen → (decrypt key b).length = desLen
  decrypt_encrypt : ∀ {key b}, b.length = desLen → decrypt key (encrypt key b) = b

/-- No encryption, and a checksum of the first bytes. -/
def Ciphers.plain : Ciphers where
  md5 b := (b ++ List.replicate micLen 0).take micLen
  md5_length b := by
    rw [List.length_take, List.length_append, List.length_replicate]
    omega
  encrypt _ b := b
  decrypt _ b := b
  encrypt_length h := h
  decrypt_length h := h
  decrypt_encrypt _ := rfl

variable (P : Ciphers)

/-- `Unameit_DesMd5_Mic_Enable`. -/
def micEnable (c : Conn) (key : Bytes) (state : ConnState) (seqno : ℕ) : Except Abort Conn :=
  if c.errno.isSome then .ok c
  else if c.state = state then .error .assertion
  else
    let context : Context := ⟨seqno, 0, key, [], [], [], false⟩
    match state with
    | .reading => .ok { c with message.readCrypto.context := some context }
    | .writing => .ok { c with message.writeCrypto.context := some context }
    | _ => .error .panic

/-- The checksum starts with the key, the sequence number, the header and the session token. -/
def Context.start (ctx : Context) (header : Bytes) : Context :=
  if ctx.offset = 0 then
    { ctx with
      final := false
      md5 := ctx.key ++ hton ctx.seqno ++ header ++ (if 0 < ctx.seqno then ctx.sessid else [])
      offset := headerLen }
  else ctx

/-- The end of the data that go into the checksum now. -/
def micEnd (m : Message) : ConnState → ℤ
  | .writing =>
    if m.header.offset < headerLen ∧ 0 < m.length then int32 (m.offset + (m.iov 1).len)
    else if m.offset < m.length then int32 (m.offset + (m.iov 0).len)
    else int32 m.length
  | _ => int32 m.offset

/-- Checksum the data up to `stop`. -/
def Context.update (ctx : Context) (data : Bytes) (stop : ℤ) : Context :=
  let start := int32 (ctx.offset - headerLen)
  if start < stop then
    { ctx with
      md5 := ctx.md5 ++ (data.drop start.toNat).take (stop - start).toNat
      offset := ((stop + headerLen) % 2 ^ 32).toNat }
  else ctx

def Context.finish (ctx : Context) : Context :=
  if ctx.final then ctx
  else
    { ctx with
      digest := P.md5 ctx.md5
      final := true }

def Conn.setContext (c : Conn) (ctx : Context) : ConnState → Conn
  | .writing => { c with message.writeCrypto.context := some ctx }
  | _ => { c with message.readCrypto.context := some ctx }

/-- What follows a MIC that has been computed or verified: the first one becomes the session token
and enables MICs in the other direction. -/
def nextMic (c : Conn) (ctx : Context) : Except Abort Conn :=
  let seqno := (ctx.seqno + 1) % 2 ^ 32
  if ctx.seqno = 0 then do
    let ctx := { ctx with sessid := ctx.digest }
    let other : ConnState := if c.state = .reading then .writing else .reading
    let c ← micEnable c ctx.key other 1
    let crypto := if other = .reading then c.message.readCrypto else c.message.writeCrypto
    match crypto.context with
    | none => .error .nullPointer
    | some new =>
      let c := c.setContext { new with sessid := ctx.digest } other
      .ok (c.setContext { ctx with seqno } c.state)
  else .ok (c.setContext { ctx with seqno } c.state)

/-- The end of `Unameit_DesMd5_Update_Mic` for a message that is sent: the trailer is filled in. -/
def sealMic (c : Conn) (ctx : Context) : Except Abort Conn :=
  let mic :=
    P.encrypt ctx.key (ctx.digest.take desLen) ++ P.encrypt ctx.key (ctx.digest.drop desLen)
  nextMic { c with message.trailer.mic := mic } ctx

/-- The end of `Unameit_DesMd5_Update_Mic` for a message that is received: the trailer is verified,
the first half before the second half is decrypted. -/
def verifyMic (c : Conn) (ctx : Context) : Except Abort Conn :=
  let mic := c.message.trailer.mic
  let first := P.decrypt ctx.key (mic.take desLen)
  let c := (c.setContext ctx .reading)
  let c :=
    { c with
      message.trailer.mic := first ++ mic.drop desLen
      message.readCrypto.micOk := false }
  if first ≠ ctx.digest.take desLen then .ok c
  else
    let second := P.decrypt ctx.key (mic.drop desLen)
    let c := { c with message.trailer.mic := first ++ second }
    if second ≠ ctx.digest.drop desLen then .ok c
    else nextMic { c with message.readCrypto.micOk := true } ctx

/-- `Unameit_DesMd5_Update_Mic` for the context of the direction. -/
def updateMicWith (c : Conn) (ctx : Context) : Except Abort Conn :=
  let m := c.message
  if ctx.offset = 0 ∧ c.state = .reading ∧ m.header.offset < headerLen then .ok c
  else
    let stop := micEnd m c.state
    let ctx := (ctx.start m.header.data).update (c.bytes m.dataRegion) stop
    if stop % 2 ^ 32 < m.length then .ok (c.setContext ctx c.state)
    else if ctx.final ∧ c.state = .writing then .ok (c.setContext ctx c.state)
    else
      let ctx := ctx.finish P
      if c.state = .writing then sealMic P c ctx
      else if m.trailer.offset < micLen then .ok (c.setContext ctx c.state)
      else verifyMic P c ctx

/-- `Unameit_DesMd5_Update_Mic`. -/
def updateMic (c : Conn) (reset : Bool) : Except Abort Conn :=
  let crypto :=
    if c.state = .reading then some c.message.readCrypto
    else if c.state = .writing then some c.message.writeCrypto
    else none
  match crypto with
  | none => .error .panic
  | some crypto =>
    match crypto.context with
    | none => .error .assertion
    | some ctx =>
      if reset then .ok (c.setContext { ctx with offset := 0 } c.state)
      else updateMicWith P c ctx

def maybeUpdateMic (c : Conn) (reset : Bool) : Except Abort Conn :=
  if c.message.hasMic c.state then updateMic P c reset else .ok c

/-! ## Streams -/

/-- How one `recv` or `send` ends: it would block, it fails, it returns zero, or it transfers at
most `n + 1` bytes. -/
inductive Event
  | block
  | fail
  | zero
  | some (n : ℕ)
  deriving DecidableEq, Repr

/-- What the peer has sent and is still to be read, whether it has closed the stream, and what has
been written. -/
structure Stream where
  input : Bytes
  closed : Bool
  output : Bytes
  deriving DecidableEq, Repr

/-- `recv` into a vector.  The result is a count, `-1` for an error, or `-2` for an operation that
would block (`Check_Io`).  Without further events the operation would block. -/
def recv (c : Conn) (s : Stream) (events : List Event) (v : Iovec) :
    ℤ × Conn × Stream × List Event :=
  match events with
  | [] => (-2, c, s, [])
  | .fail :: events => (-1, c, s, events)
  | .some n :: events =>
    if s.input = [] then (if s.closed then 0 else -2, c, s, events)
    else
      let b := s.input.take (min (n + 1) v.len)
      (b.length, c.store v b, { s with input := s.input.drop b.length }, events)
  | _ :: events => (-2, c, s, events)

def readvLoop : Conn → Stream → List Event → List Iovec → ℤ → ℤ × Conn × Stream × List Event
  | c, s, events, [], total => (total, c, s, events)
  | c, s, events, v :: rest, total =>
    match recv c s events v with
    | (n, c, s, events) =>
      if n < 0 then (if total = 0 then n else total, c, s, events)
      else if n ≠ v.len then (total + n, c, s, events)
      else readvLoop c s events rest (total + n)

/-- `Unameit_Stream_Readv`. -/
def streamReadv (c : Conn) (s : Stream) (events : List Event) : ℤ × Conn × Stream × List Event :=
  if c.message.nvec = 1 then recv c s events (c.message.iov 0)
  else readvLoop c s events c.message.vectors 0

def send (s : Stream) (events : List Event) (b : Bytes) : ℤ × Stream × List Event :=
  match events with
  | [] => (-2, s, [])
  | .block :: events => (-2, s, events)
  | .fail :: events => (-1, s, events)
  | .zero :: events => (0, s, events)
  | .some n :: events =>
    let b := b.take (n + 1)
    (b.length, { s with output := s.output ++ b }, events)

/-- The copying loop of `Unameit_Stream_Writev`; `room` is what is left of the copy buffer. -/
def gather (c : Conn) : List Iovec → ℕ → Bytes
  | [], _ => []
  | v :: rest, room =>
    if room = 0 then []
    else (c.fetch v).take room ++ gather c rest (room - min room v.len)

/-- `Unameit_Stream_Writev`. -/
def streamWritev (c : Conn) (s : Stream) (events : List Event) : ℤ × Stream × List Event :=
  if c.message.nvec = 1 ∨ maxCopySize < (c.message.iov 0).len then
    send s events (c.fetch (c.message.iov 0))
  else send s events (gather c c.message.vectors maxCopySize)

/-! ## Progress -/

/-- Why a round of the loop ends: the function returns, or the loop goes on. -/
inductive Round
  | returned (c : Conn) (s : Stream)
  | next (c : Conn) (s : Stream) (events : List Event)

/-- The part of a round after the I/O: `nio` is its result. -/
def afterIo (c : Conn) (s : Stream) (events : List Event) (nio : ℤ) : Except Abort Round :=
  if nio = -2 then .ok (.returned c s)
  else if nio = -1 then
    .ok (.returned { c with errno := some (if c.state = .reading then .read else .write) } s)
  else do
    let c ← slideWindow c nio
    if c.state = .reading then
      if c.message.header.offset < headerLen then return .returned c s
      else
        let c ← maybeUpdateMic P c false
        return .next c s events
    else return .next c s events

/-- The treatment of an I/O that has transferred nothing. -/
def afterZero (c : Conn) (s : Stream) (events : List Event) : Except Abort Round :=
  let m := c.message
  if c.state = .reading then
    if m.header.offset = 0 then .ok (.returned { c with state := .eof } s)
    else if m.header.offset < headerLen ∨ m.offset < m.length ∨ 0 < m.trailer.offset then
      .ok (.returned { c with errno := some .short } s)
    else
      -- An end of file before the trailer counts as an empty trailer.
      afterIo P { c with message.trailer.mic := List.replicate micLen 0 } s events micLen
  else .ok (.returned c s)

/-- One round of the loop of `Unameit_Conn_Progress`. -/
def progressRound (c : Conn) (s : Stream) (events : List Event) : Except Abort Round :=
  if c.state = .writing then do
    let c ← maybeUpdateMic P c false
    let c := c.hand
    let (nio, s, events) := streamWritev c s events
    if nio = 0 then afterZero P c s events else afterIo P c s events nio
  else
    let c := c.hand
    let (nio, c, s, events) := streamReadv c s events
    if nio = 0 then afterZero P c s events else afterIo P c s events nio

def progressDone (c : Conn) : Conn :=
  if 0 < c.message.nvec then c
  else
    let c :=
      if c.state = .reading ∧ c.message.readCrypto.context = none then
        { c with message.readCrypto.micOk := true }
      else c
    { c with
      state := .iodone
      callbacks := c.callbacks ++ [c.state] }

/-- The loop of `Unameit_Conn_Progress`; `packets` is the number of rounds that are left. -/
def progressLoop : ℕ → Conn → Stream → List Event → Except Abort (Conn × Stream)
  | 0, c, s, _ => .ok (progressDone c, s)
  | packets + 1, c, s, events =>
    if c.message.nvec = 0 then .ok (progressDone c, s)
    else do
      match ← progressRound P c s events with
      | .returned c s => return (c, s)
      | .next c s events => progressLoop packets c s events

/-- `Unameit_Conn_Progress`. -/
def connProgress (c : Conn) (s : Stream) (events : List Event) : Except Abort (Conn × Stream) :=
  if c.errno.isSome then .ok (c, s)
  else if c.callback = false then .ok ({ c with errno := some .inval }, s)
  else if c.state = .writing ∨ c.state = .reading then progressLoop P 17 c s events
  else .ok ({ c with errno := some .inval }, s)

/-! ## Reading and writing messages -/

def Conn.releaseData (c : Conn) : Conn :=
  let heap :=
    match c.message.data with
    | some b => if c.message.free = .static then c.heap else update c.heap b none
    | none => c.heap
  { c with
    heap
    message.data := none
    message.free := .static }

/-- `newstate`.  It is an error to change the state in the middle of an I/O operation. -/
def newstate (c : Conn) (state : ConnState) : Conn :=
  let c := c.releaseData
  if c.errno.isSome then c
  else
    { c with
      errno :=
        if c.state ≠ .iodone ∧ (c.message.header.offset ≠ 0 ∨ c.state ≠ state) then some .inval
        else none
      state
      message :=
        { c.message with
          length := 0
          offset := 0
          header.offset := 0 } }

/-- `Unameit_Conn_Write`.  The data are in a buffer of their own, to be freed as `free` says. -/
def connWrite (c : Conn) (data : Bytes) (authType result : ℕ) (free : FreeProc) :
    Except Abort Conn :=
  let c := newstate c .writing
  let c :=
    { c with
      heap := update c.heap c.nextBuffer (some data)
      nextBuffer := c.nextBuffer + 1
      message.data := some c.nextBuffer
      message.free := free }
  if c.errno.isSome then .ok c
  else
    let len := data.length % 2 ^ 32
    let m :=
      { c.message with
        length := len
        header.data := hton connMagic ++ hton authType ++ hton result ++ hton len }
    maybeUpdateMic P { c with message := iovInitHeader m .writing } true

/-- `Unameit_Conn_Poll`. -/
def connPoll (c : Conn) : Except Abort Conn :=
  if c.errno.isSome then .ok c
  else
    let c := newstate c .reading
    if c.errno.isSome then .ok c
    else maybeUpdateMic P { c with message := iovInitHeader c.message .reading } true

/-- What `Unameit_Conn_Read` returns: the data, their length and the result code. -/
structure Received where
  data : Bytes
  length : ℕ
  result : ℕ
  deriving DecidableEq, Repr

/-- `Unameit_Conn_Read`. -/
def connRead (c : Conn) : Option Received × Conn :=
  if c.errno.isSome then (none, c)
  else
    let m := c.message
    let received := m.data.map fun b => ⟨(c.heap b).getD [], m.length, m.header.result⟩
    (received, newstate { c with
      message.data := none
      message.free := .static } .iodone)

end Wire
end Unameit
