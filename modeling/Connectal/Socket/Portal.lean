import Connectal.Layout.Bytes
import Connectal.Marshall.Length

/-! Portals over a stream socket: `send_socket` and `send_mux` on one side, `event_socket`
with `portal_mux_handler` and the generated `handleMessage` on the other. -/
namespace Connectal.Socket

open Layout Rules

/-- What `handleMessage` of a class knows: the words behind the header of each method. -/
structure Interface where
  /-- Classes by number. -/
  className : Nat
  wordLen : BitVec 16 → Option Nat

/-- A portal behind `portal_mux_handler`. -/
structure Port where
  fpgaNumber : BitVec 16
  interface : Interface

/-- The handler of the portal with the socket: a generated one, or the multiplexer. -/
inductive Transport where
  | socket (interface : Interface)
  | mux (ports : List Port) (distinct : (ports.map Port.fpgaNumber).Nodup)

structure Message where
  port : BitVec 16
  method : BitVec 16
  payload : List (BitVec 32)
  short : payload.length + 1 < 2 ^ 16
  deriving DecidableEq

def Message.hdr (m : Message) : BitVec 32 := messageHeader m.method.toNat (m.payload.length + 1)

/-- `send_socket` writes as many words as the header says. -/
def sendSocket (hdr : BitVec 32) (data : List (BitVec 32)) : List Byte :=
  bytes ((hdr :: data).take (headerWords hdr))

/-- `send_mux` puts a header with the number of the port before the message. -/
def muxHdr (m : Message) : BitVec 32 := (m.port.setWidth 32 <<< 16) ||| ((m.hdr + 1) &&& 0xffff)

def Transport.send : Transport → Message → List Byte
  | .socket _, m => sendSocket m.hdr m.payload
  | .mux _ _, m => sendSocket (muxHdr m) (m.hdr :: m.payload)

/-- What a call of `recvmsg` returns of the bytes that it asks for. Nothing is `EAGAIN`. -/
inductive Cut where
  | whole
  | upTo (k : Nat)
  deriving DecidableEq

def Cut.limit (n : Nat) : Cut → Nat
  | .whole => n
  | .upTo k => min k n

/-- The receiving process, with one client. -/
structure Receiver where
  stream : List Byte
  /-- What the next calls of `recvmsg` return. -/
  cuts : List Cut
  mapBase : Buffer
  portBase : BitVec 16 → Buffer
  runaway : Nat → Nat
  exited : Bool

inductive Event where
  | sent (m : Message)
  | dispatch (port : Option (BitVec 16)) (method : BitVec 16) (payload : List (BitVec 32))
  deriving DecidableEq

/-- The number of a header. -/
def channel (hdr : BitVec 32) : BitVec 16 := (hdr >>> 16).setWidth 16

namespace Receiver

/-- `portalRecvFd` for `len` words at index `start` of a buffer. -/
def recv (s : Receiver) (base : Buffer) (start len : Nat) : Receiver × Buffer × Nat :=
  let k := (s.cuts.head?.getD .whole).limit (4 * len)
  let got := s.stream.take k
  ({ s with stream := s.stream.drop k, cuts := s.cuts.tail }, base.put (4 * start) got, got.length)

/-- The generated handler. It does not look at the result of `recv`, and leaves the
payload of a method that it does not know. -/
def handleMessage (i : Interface) (port : Option (BitVec 16)) (s : Receiver) (base : Buffer) :
    Receiver × Buffer × List Event :=
  let method := channel (base.word 0)
  match i.wordLen method with
  | some wordLen =>
    let (s, base, _) := s.recv base 1 wordLen
    (s, base, [.dispatch port method (base.words 1 wordLen)])
  | none =>
    let runaway := Function.update s.runaway i.className (s.runaway i.className + 1)
    ({ s with runaway, exited := 10 < s.runaway i.className }, base, [])

def portalMuxHandler (number : BitVec 16) : List Port → Receiver → Receiver × List Event
  | [], s => (s, [])
  | p :: ports, s =>
    if number = p.fpgaNumber ∧ s.exited = false then
      let (s, base, _) := s.recv (s.portBase p.fpgaNumber) 0 1
      let (s, base, events) := handleMessage p.interface (some p.fpgaNumber) s base
      let (s, more) := portalMuxHandler number ports
        { s with portBase := Function.update s.portBase p.fpgaNumber base }
      (s, events ++ more)
    else portalMuxHandler number ports s

/-- One call of `event_socket`. -/
def eventSocket (t : Transport) (s : Receiver) : Receiver × List Event :=
  let (s, mapBase, len) := s.recv s.mapBase 0 1
  let s := { s with mapBase }
  if len = 0 then (s, [])
  else
    match t with
    | .socket i =>
      let (s, mapBase, events) := handleMessage i none s s.mapBase
      ({ s with mapBase }, events)
    | .mux ports _ => portalMuxHandler (channel (s.mapBase.word 0)) ports s

inductive Action where
  | send (m : Message)
  | event (cuts : List Cut)

def fire (t : Transport) : Action → Receiver → Option (Receiver × List Event)
  | .send m, s => some ({ s with stream := s.stream ++ t.send m }, [.sent m])
  | .event cuts, s => do
      guard (s.exited = false)
      return eventSocket t { s with cuts }

structure Init (s : Receiver) : Prop where
  stream : s.stream = []
  runaway : s.runaway = fun _ => 0
  exited : s.exited = false

/-- Buffers of zeros. -/
def fresh : Receiver := ⟨[], [], fun _ => 0, fun _ _ => 0, fun _ => 0, false⟩

def machine (t : Transport) : Machine Receiver Action Event := ⟨Init, fire t⟩

end Receiver

namespace Transport

/-- The words that the receiver expects behind the header of a message. -/
def wordLen : Transport → Message → Option Nat
  | .socket i, m => i.wordLen m.method
  | .mux ports _, m => (ports.find? (·.fpgaNumber = m.port)).bind (·.interface.wordLen m.method)

/-- The call that a message with a known port and method is for. -/
def delivery (t : Transport) (m : Message) :
    Option (Option (BitVec 16) × BitVec 16 × List (BitVec 32)) :=
  (t.wordLen m).map fun _ => (match t with
    | .socket _ => none
    | .mux _ _ => some m.port, m.method, m.payload)

/-- A known method gets the words that its handler expects, as proxy and handler are
generated from one interface. -/
def Typed (t : Transport) (m : Message) : Prop :=
  ∀ len, t.wordLen m = some len → m.payload.length = len

instance (t : Transport) (m : Message) : Decidable (t.Typed m) :=
  decidable_of_iff (∀ len ∈ t.wordLen m, m.payload.length = len) Iff.rfl

end Transport

/-- Messages that their proxies may send. The stream is cut in any way. -/
def Sendable (t : Transport) : Machine.Contract Receiver Receiver.Action Event
  | _, _, .send m => t.Typed m
  | _, _, .event _ => True

instance (t : Transport) (trace : List Event) (s : Receiver) (action : Receiver.Action) :
    Decidable (Sendable t trace s action) :=
  match action with
  | .send m => inferInstanceAs (Decidable (t.Typed m))
  | .event _ => .isTrue trivial

def sents (trace : List Event) : List Message :=
  trace.filterMap fun
    | .sent m => some m
    | _ => none

def dispatches (trace : List Event) : List (Option (BitVec 16) × BitVec 16 × List (BitVec 32)) :=
  trace.filterMap fun
    | .dispatch port method payload => some (port, method, payload)
    | _ => none

theorem sents_append (t t' : List Event) : sents (t ++ t') = sents t ++ sents t' :=
  List.filterMap_append

theorem dispatches_append (t t' : List Event) : dispatches (t ++ t') = dispatches t ++ dispatches t' :=
  List.filterMap_append

end Connectal.Socket
