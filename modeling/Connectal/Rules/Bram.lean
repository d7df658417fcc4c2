import Connectal.Rules.Fifo
import Mathlib.Logic.Function.Basic

/-! Two-port block memories behind request/response servers. A read samples
the memory when it is requested and its answer waits in the port's output
queue; a port with a full output queue accepts no request of either kind. -/
namespace Rules

/-- Memory contents and, for each of the two ports, the unread answers. -/
structure Bram (Addr Data : Type*) (depth : Nat) where
  mem : Addr → Data
  out : Fin 2 → Fifo Data depth

namespace Bram

variable {Addr Data : Type*} {depth : Nat} [DecidableEq Addr]

/-- A memory with unspecified contents and no request in flight. -/
def powerUp (mem : Addr → Data) : Bram Addr Data depth := ⟨mem, fun _ => Fifo.empty⟩

/-- A read request without a write. -/
def read (b : Bram Addr Data depth) (port : Fin 2) (addr : Addr) : Option (Bram Addr Data depth) :=
  ((b.out port).enq (b.mem addr)).map fun q => { b with out := Function.update b.out port q }

/-- A write request that asks for no answer. -/
def write (b : Bram Addr Data depth) (port : Fin 2) (addr : Addr) (value : Data) :
    Option (Bram Addr Data depth) :=
  if (b.out port).items.length < depth then
    some { b with mem := Function.update b.mem addr value }
  else none

/-- Take the oldest unread answer of a port. -/
def get (b : Bram Addr Data depth) (port : Fin 2) : Option (Data × Bram Addr Data depth) :=
  (b.out port).deq.map fun r => (r.1, { b with out := Function.update b.out port r.2 })

omit [DecidableEq Addr] in
@[simp] theorem read_eq_some {b c : Bram Addr Data depth} {port : Fin 2} {addr : Addr} :
    b.read port addr = some c ↔ (b.out port).items.length < depth ∧
      ∃ q : Fifo Data depth, q.items = (b.out port).items ++ [b.mem addr] ∧
        c = { b with out := Function.update b.out port q } := by
  simp only [read, Option.map_eq_some_iff, Fifo.enq_eq_some]
  constructor
  · rintro ⟨q, ⟨hRoom, hItems⟩, rfl⟩
    exact ⟨hRoom, q, hItems, rfl⟩
  · rintro ⟨hRoom, q, hItems, rfl⟩
    exact ⟨q, ⟨hRoom, hItems⟩, rfl⟩

@[simp] theorem write_eq_some {b c : Bram Addr Data depth} {port : Fin 2} {addr : Addr}
    {value : Data} :
    b.write port addr value = some c ↔ (b.out port).items.length < depth ∧
      c = { b with mem := Function.update b.mem addr value } := by
  unfold write
  split
  · next h => simp [h, eq_comm]
  · next h => simp [h]

omit [DecidableEq Addr] in
@[simp] theorem get_eq_some {b c : Bram Addr Data depth} {port : Fin 2} {value : Data} :
    b.get port = some (value, c) ↔
      ∃ q : Fifo Data depth, (b.out port).items = value :: q.items ∧
        c = { b with out := Function.update b.out port q } := by
  simp only [get, Option.map_eq_some_iff, Prod.exists, Fifo.deq_eq_some, Prod.mk.injEq]
  constructor
  · rintro ⟨x, q, hItems, rfl, rfl⟩
    exact ⟨q, hItems, rfl⟩
  · rintro ⟨q, hItems, rfl⟩
    exact ⟨value, q, hItems, rfl, rfl⟩

end Bram
end Rules
