import Connectal.Layout.Bytes
import Connectal.Memory.Translation
import Connectal.Rules.Batch

/-! Main memory in the simulation build. A scatter list is a file that the
simulator maps in one piece; `dma_info` has a row for each translation unit and
a column for each scatter list. What leaves a translation unit is an index into
this table and an offset, packed into a physical address; `mkBsimDmaMaster`
takes them apart again for every beat. -/
namespace Connectal

open Rules MMU SendFd Layout

namespace Bsim

/-- What the simulator knows about one scatter list. -/
structure DmaInfo where
  fd : BitVec 32
  buffer : Option Buffer
  bufferLen : BitVec 32
  sizeAccum : BitVec 32

/-- The table `dma_info`, by number of the translation unit and of the scatter
list. -/
abbrev DmaTable := BitVec 32 × BitVec 32 → DmaInfo

def DmaTable.powerUp : DmaTable := fun _ => ⟨0, none, 0, 0⟩

/-- The entry of the table that a handle stands for. -/
def entry (pref : BitVec 32) : BitVec 32 × BitVec 32 :=
  let id := pref >>> 5
  (id, pref - id <<< 5)

/-- `read_pareff32` and `read_pareff64`, as the bytes they read. Outside of what
is mapped there is nothing to read. -/
def readPareff (bytes : Nat) (pref offset : BitVec 32) (dma : DmaTable) : Option (List Byte) := do
  let info := dma (entry pref)
  let buffer ← info.buffer
  guard (offset.toNat + bytes ≤ info.bufferLen.toNat)
  return (List.range bytes).map fun k => buffer (offset.toNat + k)

/-- `write_pareff32` and `write_pareff64`. -/
def writePareff (pref offset : BitVec 32) (data : List Byte) (dma : DmaTable) : Option DmaTable := do
  let info := dma (entry pref)
  let buffer ← info.buffer
  guard (offset.toNat + data.length ≤ info.bufferLen.toNat)
  return Function.update dma (entry pref) { info with buffer := some (buffer.put offset.toNat data) }

def pareffInitfd (aid fd : BitVec 32) (dma : DmaTable) : DmaTable :=
  let key := (aid >>> 16, aid &&& 0xffff)
  Function.update dma key { dma key with fd }

/-- The size of the next element of a scatter list; zero ends the list and maps
the file. -/
def DmaInfo.init (files : BitVec 32 → Buffer) (size : BitVec 32) (info : DmaInfo) : DmaInfo :=
  let sizeAccum := info.sizeAccum + size
  if size = 0 then
    { info with
      sizeAccum
      buffer := some (files info.fd)
      bufferLen := sizeAccum }
  else { info with sizeAccum }

/-- Scatter lists beyond the table stop the simulation. -/
def pareffInit (files : BitVec 32 → Buffer) (id pref size : BitVec 32) (dma : DmaTable) :
    Option DmaTable := do
  guard (pref < 32)
  return Function.update dma (id, pref) ((dma (id, pref)).init files size)

/-- The widths of the memory bus for which there is an access function. -/
inductive Bus where
  | w32
  | w64
  | w128
  deriving DecidableEq, Repr

namespace Bus

def bytes : Bus → Nat
  | w32 => 4
  | w64 => 8
  | w128 => 16

def beatShift : Bus → Nat
  | w32 => 2
  | w64 => 3
  | w128 => 4

/-- A beat of 128 bits is read in two halves, the lower one first. -/
def readPareff : Bus → BitVec 32 → BitVec 32 → DmaTable → Option (List Byte)
  | w32, handle, addr, dma => Bsim.readPareff 4 handle addr dma
  | w64, handle, addr, dma => Bsim.readPareff 8 handle addr dma
  | w128, handle, addr, dma => do
      let v0 ← Bsim.readPareff 8 handle addr dma
      let v1 ← Bsim.readPareff 8 handle (addr + 8) dma
      return v0 ++ v1

def writePareff : Bus → BitVec 32 → BitVec 32 → List Byte → DmaTable → Option DmaTable
  | w32, handle, addr, v, dma => Bsim.writePareff handle addr v dma
  | w64, handle, addr, v, dma => Bsim.writePareff handle addr v dma
  | w128, handle, addr, v, dma => do
      let dma ← Bsim.writePareff handle addr (v.take 8) dma
      Bsim.writePareff handle (addr + 8) (v.drop 8) dma

end Bus

/-- The registers of one direction of `mkBsimDmaMaster`: the next address, the
number of beats to come and the tag of the burst under way, and the requests
behind it with the cycle in which they came. -/
structure Channel where
  addrr : BitVec 40
  len : BitVec 8
  id : BitVec 6
  delayFifo : Fifo (BitVec 64 × PhysMemRequest 40) 150

def Channel.reset : Channel := ⟨0, 0, 0, .empty⟩

def latency : BitVec 64 := 150

/-- Address, remaining length and tag with which a beat is made. -/
structure Beat where
  addr : BitVec 40
  len : BitVec 8
  id : BitVec 6

def Channel.put (cycles : BitVec 64) (req : PhysMemRequest 40) (c : Channel) : Option Channel := do
  let delayFifo ← c.delayFifo.enq (cycles, req)
  return { c with delayFifo }

/-- The next beat. Between bursts it is the first one of the oldest request that
has waited long enough. -/
def Channel.beat (bus : Bus) (cycles : BitVec 64) (c : Channel) : Option (Beat × Channel) :=
  if c.len = 0 then do
    let ((start, req), delayFifo) ← c.delayFifo.deq
    guard (latency < cycles - start)
    let len := req.burstLen >>> bus.beatShift
    return (⟨req.addr, len, req.tag⟩, ⟨req.addr + BitVec.ofNat 40 bus.bytes, len - 1, req.tag, delayFifo⟩)
  else
    return (⟨c.addrr, c.len, c.id⟩,
      { c with
        addrr := c.addrr + BitVec.ofNat 40 bus.bytes
        len := c.len - 1 })

def handle (addr : BitVec 40) : BitVec 32 := (addr >>> 32).setWidth 32

/-- State of `mkBsimDmaMaster`. -/
structure DmaMaster where
  cycles : BitVec 64
  read : Channel
  write : Channel
  bFifo : Fifo (BitVec 64 × BitVec 6) 150

def DmaMaster.reset : DmaMaster := ⟨0, .reset, .reset, .empty⟩

namespace DmaMaster

/-- Rules and method calls of a memory port. -/
inductive Action where
  | incrementCycle
  | readReq (req : PhysMemRequest 40)
  | readData
  | writeReq (req : PhysMemRequest 40)
  | writeData (data : MemData (List Byte))
  | writeDone

inductive Event where
  | readReq (req : PhysMemRequest 40)
  | readData (addr : BitVec 40) (data : MemData (List Byte))
  | writeReq (req : PhysMemRequest 40)
  | writeData (addr : BitVec 40) (data : MemData (List Byte))
  | writeDone (tag : BitVec 6)

variable (bus : Bus) (m : DmaMaster) (dma : DmaTable)

def readReq (req : PhysMemRequest 40) : Option DmaMaster := do
  let read ← m.read.put m.cycles req
  return { m with read }

/-- The mark on the last beat looks at the register, which on the first beat of a
burst still belongs to the burst before. -/
def readData : Option ((BitVec 40 × MemData (List Byte)) × DmaMaster) := do
  let (b, read) ← m.read.beat bus m.cycles
  let v ← bus.readPareff (handle b.addr) (b.addr.setWidth 32) dma
  return ((b.addr, ⟨v, b.id, m.read.len == 1⟩), { m with read })

def writeReq (req : PhysMemRequest 40) : Option DmaMaster := do
  let write ← m.write.put m.cycles req
  return { m with write }

def writeData (data : MemData (List Byte)) : Option (BitVec 40 × DmaMaster × DmaTable) := do
  guard (data.data.length = bus.bytes)
  let (b, write) ← m.write.beat bus m.cycles
  let dma ← bus.writePareff (handle b.addr) (b.addr.setWidth 32) data.data dma
  let bFifo ← Fifo.enqIf (b.len = 1) m.bFifo (m.cycles, b.id)
  return (b.addr, { m with
    write
    bFifo }, dma)

def writeDone : Option (BitVec 6 × DmaMaster) := do
  let ((start, tag), bFifo) ← m.bFifo.deq
  guard (latency < m.cycles - start)
  return (tag, { m with bFifo })

def fire : Action → Option ((DmaMaster × DmaTable) × List Event)
  | .incrementCycle => some (({ m with cycles := m.cycles + 1 }, dma), [])
  | .readReq req => (m.readReq req).map fun m' => ((m', dma), [.readReq req])
  | .readData => (m.readData bus dma).map fun r => ((r.2, dma), [.readData r.1.1 r.1.2])
  | .writeReq req => (m.writeReq req).map fun m' => ((m', dma), [.writeReq req])
  | .writeData data => (m.writeData bus dma data).map fun r => (r.2, [.writeData r.1 data])
  | .writeDone => m.writeDone.map fun r => ((r.2, dma), [.writeDone r.1])

end DmaMaster

/-- The simulated host: the translation units, the table of the simulator and the
memory ports. -/
structure Host (ports : Nat) where
  mmu : Fin 4 → MMU 40
  dma : DmaTable
  master : Fin ports → DmaMaster

/-- What `addrServers` of translation unit `iid` makes of an address. -/
def physAddr (iid : Fin 4) (rv : BitVec 40) : BitVec 40 := rv ||| BitVec.ofNat 40 iid <<< (40 - 3)

inductive Action (ports : Nat) where
  | mmu (iid : Fin 4) (fd : BitVec 32) (a : MMU.Action)
  | master (i : Fin ports) (a : DmaMaster.Action)

inductive Event (ports : Nat) where
  | mmu (iid : Fin 4) (e : MMU.Event 40)
  | answered (iid : Fin 4) (i : Fin 2) (addr : BitVec 40)
  | master (i : Fin ports) (e : DmaMaster.Event)

/-- What the calls of a translation unit do in the simulator. A scatter list of
another unit stops the simulation. -/
def simulate (files : BitVec 32 → Buffer) (iid : Fin 4) (fd : BitVec 32) (dma : DmaTable) :
    MMU.Event 40 → Option DmaTable
  | .idResponse resp => some (pareffInitfd resp fd dma)
  | .config (.sglist pointer _ _ len) => do
      guard (pointer >>> 16 = BitVec.ofNat 32 iid)
      pareffInit files (pointer >>> 16) (pointer &&& 0xffff) len dma
  | _ => some dma

section Host

variable {ports : Nat}

/-- What the surroundings of a translation unit get to see. -/
def seen (iid : Fin 4) : MMU.Event 40 → List (Event ports)
  | .answered i rv => [.mmu iid (.answered i rv), .answered iid i (physAddr iid rv)]
  | e => [.mmu iid e]

def fire (files : BitVec 32 → Buffer) (bus : Bus) :
    Action ports → Host ports → Option (Host ports × List (Event ports))
  | .mmu iid fd a, s => do
      let (unit, events) ← MMU.fire (BitVec.ofNat 32 iid) a (s.mmu iid)
      let dma ← events.foldlM (simulate files iid fd) s.dma
      return ({ s with
        mmu := Function.update s.mmu iid unit
        dma }, events.flatMap (seen iid))
  | .master i a, s => do
      let ((m, dma), events) ← (s.master i).fire bus s.dma a
      return ({ s with
        dma
        master := Function.update s.master i m }, events.map (.master i))

/-- The simulated host with the given files and width of the memory bus. -/
def host (ports : Nat) (files : BitVec 32 → Buffer) (bus : Bus) :
    Machine (Host ports) (Action ports) (Event ports) where
  init s := (∀ iid : Fin 4, (machine 40 (BitVec.ofNat 32 iid)).init (s.mmu iid)) ∧
    s.dma = DmaTable.powerUp ∧ ∀ i, s.master i = DmaMaster.reset
  fire := fire files bus

end Host

end Bsim
end Connectal
