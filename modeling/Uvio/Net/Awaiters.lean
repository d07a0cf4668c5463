import Uvio.Common.Result

/-!
# The awaiters of `TcpStream` and `DNS`

`read`, `write`, `connect` and `resolve` each give an awaiter whose constructor
starts the operation, whose callback stores what libuv says and resumes the handle
it finds, and whose `await_resume` makes a `Result` of it. Each awaiter is a record
with the functions its source has. Only whether `handle_` is set matters, as each
operation is awaited by one coroutine.

The calls to libuv themselves are made by whoever uses these functions: what libuv
does with a socket is not part of an awaiter.
-/

namespace Uvio.Net

/-- `UV_EOF`. -/
def uvEof : Int := -4095

/-- A `TcpStream`, by its handle. -/
structure TcpStream (α : Type) where
  tcpHandle : Option α
deriving DecidableEq, Repr

/-- What reading changes in a `uv_tcp_t`: `data`, which awaiter it points at, and
whether libuv reads from it. -/
structure Socket where
  data : Option Nat
  reading : Bool
deriving DecidableEq, Repr

/-! ## `TcpStream::read` -/

/-- `buf` is what `buf_` points at. -/
structure ReadAwaiter where
  handle : Bool
  buf : Bytes
  nread : Int
deriving DecidableEq, Repr

namespace ReadAwaiter

def new (buf : Bytes) : ReadAwaiter := ⟨false, buf, 0⟩

/-- The read callback: `nread` stored, and whether the handle is resumed. libuv has
put the data at the front of the buffer before. -/
def onRead (a : ReadAwaiter) (data : Bytes) (nread : Int) : ReadAwaiter × Bool :=
  ({ a with buf := blit a.buf 0 data, nread := nread }, a.handle)

def awaitReady (a : ReadAwaiter) : Bool := 0 < a.nread

def awaitSuspend (a : ReadAwaiter) : ReadAwaiter := { a with handle := true }

/-- `await_resume`: an error leaves the awaiter and the socket as they are. -/
def awaitResume (a : ReadAwaiter) (socket : Socket) : Result Nat × ReadAwaiter × Socket :=
  if a.nread < 0 then
    if a.nread = uvEof then (.error .unexpectedEOF, a, socket)
    else (.error .unclassified, a, socket)
  else (.ok a.nread.toNat, { a with nread := 0, handle := false }, ⟨none, false⟩)

end ReadAwaiter

/-! ## `TcpStream::write` -/

structure WriteAwaiter where
  handle : Bool
  status : Int
  nwritten : Nat
  toWrite : Bytes
deriving DecidableEq, Repr

namespace WriteAwaiter

def new (message : Bytes) : WriteAwaiter := ⟨false, 1, 0, message⟩

/-- The write callback. -/
def onWrite (a : WriteAwaiter) (status : Int) : WriteAwaiter × Bool :=
  ({ a with status := status, nwritten := if status ≠ 0 then 0 else a.toWrite.length }, a.handle)

def awaitReady (a : WriteAwaiter) : Bool := a.status ≤ 0

def awaitSuspend (a : WriteAwaiter) : WriteAwaiter := { a with handle := true }

def awaitResume (a : WriteAwaiter) : Result Nat × WriteAwaiter :=
  let a := { a with handle := false }
  if a.status ≠ 0 then (.error .unclassified, a)
  else if a.nwritten = 0 then (.error .writeZero, a)
  else (.ok a.nwritten, a)

end WriteAwaiter

/-! ## `TcpStream::connect` -/

structure ConnectAwaiter (α : Type) where
  handle : Bool
  client : Option α
  status : Int
deriving DecidableEq, Repr

namespace ConnectAwaiter

variable {α : Type}

def new (client : α) : ConnectAwaiter α := ⟨false, some client, 1⟩

/-- The connect callback: it returns early when the connection failed. -/
def onConnect (a : ConnectAwaiter α) (status : Int) : ConnectAwaiter α × Bool :=
  let a := { a with status := status }
  if status ≠ 0 then (a, false) else (a, a.handle)

def awaitReady (a : ConnectAwaiter α) : Bool := a.status ≤ 0

def awaitSuspend (a : ConnectAwaiter α) : ConnectAwaiter α := { a with handle := true }

/-- `await_resume`: the handle is moved into the stream. -/
def awaitResume (a : ConnectAwaiter α) : Result (TcpStream α) × ConnectAwaiter α :=
  (.ok ⟨a.client⟩, { a with handle := false, client := none })

end ConnectAwaiter

/-! ## `DNS::resolve` -/

structure ResolveAwaiter where
  handle : Bool
  ipv4addr : Bytes
  resolved : Bool
deriving DecidableEq, Repr

namespace ResolveAwaiter

def new : ResolveAwaiter := ⟨false, List.replicate 17 0, false⟩

/-- The callback of `uv_getaddrinfo`; `name` is what `uv_ip4_name` writes. -/
def onResolve (a : ResolveAwaiter) (status : Int) (name : Bytes) : ResolveAwaiter × Bool :=
  let a := if status < 0 then a else { a with ipv4addr := blit a.ipv4addr 0 (name ++ [0]) }
  ({ a with resolved := true }, a.handle)

def awaitReady (a : ResolveAwaiter) : Bool := a.resolved

def awaitSuspend (a : ResolveAwaiter) : ResolveAwaiter := { a with handle := true }

/-- `await_resume`: the address up to its `strlen`. -/
def awaitResume (a : ResolveAwaiter) : Result Bytes :=
  let ipAddress := a.ipv4addr.takeWhile (· ≠ 0)
  if ipAddress ≠ [] then .ok ipAddress else .error .resolveFailed

end ResolveAwaiter

end Uvio.Net
