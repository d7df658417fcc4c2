import Connectal.C.Integer
import Connectal.Layout.Fields
import Mathlib.Data.Nat.Log

/-! Types of method parameters, with names resolved, as the interface compiler and
the hardware see them. The compiler flattens structures into members, and gives
each member a width and a C type; the hardware packs a structure with its first field
at the most significant end. -/
namespace Connectal

open Layout

/-- The types that are not taken apart. -/
inductive Atom where
  | bit (n : Nat)
  | int (n : Nat)
  | uint (n : Nat)
  | bool
  | float
  | enum (name : String) (labels : List String)
  | sendingFd
  deriving DecidableEq, Repr

mutual

inductive BsvType where
  | atom (a : Atom)
  | struct (elements : Params)
  deriving DecidableEq, Repr

/-- The parameters of a method, or the elements of a structure. -/
inductive Params where
  | nil
  | cons (name : String) (type : BsvType) (rest : Params)
  deriving DecidableEq, Repr

end

/-- A parameter or a member of a member of a parameter. The C text joins the parts of
the name with dots. -/
structure Member where
  name : List String
  datatype : Atom
  deriving DecidableEq, Repr

mutual

def BsvType.collectMembers (name : List String) : BsvType → List Member
  | .atom a => [⟨name, a⟩]
  | .struct elements => elements.collectMembers name

def Params.collectMembers (scope : List String) : Params → List Member
  | .nil => []
  | .cons name type rest => type.collectMembers (scope ++ [name]) ++ rest.collectMembers scope

end

/-- The width that the compiler uses, where `ceilLog n` stands for
`int(math.ceil(math.log(n)))`. A file descriptor has no width. -/
def typeBitWidth (ceilLog : Nat → Nat) : Atom → Nat
  | .bit n | .int n | .uint n => n
  | .bool => 1
  | .float => 32
  | .enum _ labels => ceilLog labels.length
  | .sendingFd => 0

def hasBitWidth : Atom → Bool
  | .bit _ | .int _ | .uint _ => true
  | _ => false

/-- Names of C types. -/
inductive CName where
  | uint32
  | uint64
  | bitset (n : Nat)
  | int
  | unsigned
  | float
  | enum (name : String)
  | sendingFd
  deriving DecidableEq, Repr

/-- The C type of a parameter. The compiler stops at an `Int` or `UInt` of a width
other than 32. -/
def typeCName : Atom → Option CName
  | .bit n => some (if n ≤ 32 then .uint32 else if n ≤ 64 then .uint64 else .bitset n)
  | .bool => some .int
  | .int n => if n = 32 then some .int else none
  | .uint n => if n = 32 then some .unsigned else none
  | .float => some .float
  | .enum name _ => some (.enum name)
  | .sendingFd => some .sendingFd

/-- What the names mean. Enumerations without negative labels are unsigned. -/
def CName.intType : CName → Option C.IntType
  | .uint32 | .unsigned | .enum _ => some C.uint32
  | .uint64 => some C.uint64
  | .int | .sendingFd => some C.int
  | .bitset _ | .float => none

/-- The type of a member as a C object. Inside of a structure the numeric types are
bit fields. -/
def Member.storage (ceilLog : Nat → Nat) (m : Member) : Option C.IntType := do
  let name ← typeCName m.datatype
  let t ← name.intType
  return if 1 < m.name.length && hasBitWidth m.datatype then
    ⟨typeBitWidth ceilLog m.datatype, t.signed⟩
  else t

/-- The width of `pack` in the hardware. -/
def Atom.width : Atom → Nat
  | .bit n | .int n | .uint n => n
  | .bool => 1
  | .float => 32
  | .enum _ labels => Nat.clog 2 labels.length
  | .sendingFd => 32

mutual

def BsvType.width : BsvType → Nat
  | .atom a => a.width
  | .struct elements => elements.width

def Params.width : Params → Nat
  | .nil => 0
  | .cons _ type rest => type.width + rest.width

end

/-- Bit patterns of the arguments, by member. Negative numbers are in two's
complement. -/
abbrev Args := List String → Nat

mutual

/-- The instance that `deriving (Bits)` gives. -/
def BsvType.pack (args : Args) (name : List String) : (t : BsvType) → BitVec t.width
  | .atom _ => BitVec.ofNat _ (args name)
  | .struct elements => elements.pack args name

def Params.pack (args : Args) (scope : List String) : (p : Params) → BitVec p.width
  | .nil => 0#0
  | .cons name type rest => type.pack args (scope ++ [name]) ++ rest.pack args scope

end

/-- The width of a member in the hardware. -/
def Member.width (m : Member) : Nat := m.datatype.width

/-- The bits of a member's argument. -/
def Member.bits (args : Args) (m : Member) (q : Nat) : Bool := (args m.name).testBit q

mutual

theorem BsvType.span_collectMembers (name : List String) :
    (t : BsvType) → span Member.width (t.collectMembers name) = t.width
  | .atom a => by simp [BsvType.collectMembers, BsvType.width, Member.width]
  | .struct elements => by
    simp only [BsvType.collectMembers, BsvType.width]
    exact elements.span_collectMembers name

theorem Params.span_collectMembers (scope : List String) :
    (p : Params) → span Member.width (p.collectMembers scope) = p.width
  | .nil => rfl
  | .cons name type rest => by
    simp only [Params.collectMembers, Params.width, span_append]
    rw [type.span_collectMembers, rest.span_collectMembers]

end

mutual

theorem BsvType.getLsbD_pack (args : Args) (name : List String) (p : Nat) : (t : BsvType) →
    (t.pack args name).getLsbD p =
      bitAt Member.width (Member.bits args) (t.collectMembers name).reverse p
  | .atom a => by
    simp only [BsvType.pack, BsvType.collectMembers, List.reverse_singleton, bitAt,
      BitVec.getLsbD_ofNat, BsvType.width, Member.width, Member.bits]
    by_cases hp : p < a.width <;> simp [hp]
  | .struct elements => by
    simp only [BsvType.pack, BsvType.collectMembers, BsvType.width]
    exact elements.getLsbD_pack args name p

/-- A packed structure consists of its members, the last one at bit 0. -/
theorem Params.getLsbD_pack (args : Args) (scope : List String) (p : Nat) : (params : Params) →
    (params.pack args scope).getLsbD p =
      bitAt Member.width (Member.bits args) (params.collectMembers scope).reverse p
  | .nil => BitVec.getLsbD_zero
  | .cons name type rest => by
    simp only [Params.pack, Params.collectMembers, Params.width, List.reverse_append,
      bitAt_append, span_reverse, rest.span_collectMembers, BitVec.getLsbD_append]
    rw [type.getLsbD_pack args (scope ++ [name]), rest.getLsbD_pack args scope]

end

def Params.names : Params → List String
  | .nil => []
  | .cons name _ rest => name :: rest.names

mutual

/-- No two parameters and no two elements of a structure have the same name. -/
def BsvType.DistinctNames : BsvType → Prop
  | .atom _ => True
  | .struct elements => elements.DistinctNames

def Params.DistinctNames : Params → Prop
  | .nil => True
  | .cons name type rest => name ∉ rest.names ∧ type.DistinctNames ∧ rest.DistinctNames

end

mutual

theorem BsvType.name_collectMembers {name : List String} {m : Member} : (t : BsvType) →
    m ∈ t.collectMembers name → name <+: m.name
  | .atom a, h => by
    rw [BsvType.collectMembers, List.mem_singleton] at h
    subst h
    exact List.prefix_rfl
  | .struct elements, h => by
    rw [BsvType.collectMembers] at h
    obtain ⟨first, -, hFirst⟩ := elements.name_collectMembers h
    exact (List.prefix_append name [first]).trans hFirst

theorem Params.name_collectMembers {scope : List String} {m : Member} : (p : Params) →
    m ∈ p.collectMembers scope → ∃ name ∈ p.names, scope ++ [name] <+: m.name
  | .nil, h => by simp [Params.collectMembers] at h
  | .cons name type rest, h => by
    rw [Params.collectMembers, List.mem_append] at h
    rcases h with h | h
    · exact ⟨name, List.mem_cons_self, type.name_collectMembers h⟩
    · obtain ⟨other, hOther, hPrefix⟩ := rest.name_collectMembers h
      exact ⟨other, List.mem_cons_of_mem _ hOther, hPrefix⟩

end

mutual

theorem BsvType.nodup_names {name : List String} : (t : BsvType) → t.DistinctNames →
    ((t.collectMembers name).map Member.name).Nodup
  | .atom a, _ => by simp [BsvType.collectMembers]
  | .struct elements, h => by
    rw [BsvType.collectMembers]
    exact elements.nodup_names h

theorem Params.nodup_names {scope : List String} : (p : Params) → p.DistinctNames →
    ((p.collectMembers scope).map Member.name).Nodup
  | .nil, _ => by simp [Params.collectMembers]
  | .cons name type rest, h => by
    rw [Params.collectMembers, List.map_append, List.nodup_append]
    refine ⟨type.nodup_names h.2.1, rest.nodup_names h.2.2, ?_⟩
    intro a ha b hb hEq
    obtain ⟨m, hm, rfl⟩ := List.mem_map.mp ha
    obtain ⟨m', hm', rfl⟩ := List.mem_map.mp hb
    have hPrefix := type.name_collectMembers hm
    obtain ⟨other, hOther, hPrefix'⟩ := rest.name_collectMembers hm'
    rw [← hEq] at hPrefix'
    have hSame := (List.prefix_of_prefix_length_le hPrefix hPrefix' (by simp)).eq_of_length
      (by simp)
    have : name = other := by simpa using hSame
    exact h.1 (this ▸ hOther)

end

end Connectal
