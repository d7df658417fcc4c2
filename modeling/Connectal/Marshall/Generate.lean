import Connectal.Marshall.Words
import Mathlib.Data.List.Forall2

/-! The C code that the interface compiler writes for a method, and what it does. A
proxy computes the words of a message from its arguments; a handler takes the words
one after the other and assigns the parameters. -/
namespace Connectal

open Layout

/-- Generated expressions. -/
inductive CExpr where
  | var (m : Member)
  | tmp
  | lit (n : Nat)
  | shr (e : CExpr) (k : Nat)
  | shl (e : CExpr) (k : Nat)
  | or (a b : CExpr)
  /-- `((e)&0x..ul)` -/
  | mask (e : CExpr) (bits : Nat)
  | cast (t : CName) (e : CExpr)
  /-- `*(int*)&m` -/
  | asInt (m : Member)
  /-- `(const e & std::bitset<n>(0xFFFFFFFF)).to_ulong()` -/
  | bitsetWord (e : CExpr) (n : Nat)
  deriving DecidableEq, Repr

/-- Value of an expression, given the objects and the last word that was read. The
text of `bitsetWord` is not an expression of the language. -/
def CExpr.eval (obj : Member → Option C.Value) (tmp : BitVec 32) : CExpr → Option C.Value
  | .var m => obj m
  | .tmp => some (C.Value.ofWord tmp)
  | .lit n => some ⟨C.int, BitVec.ofNat 32 n⟩
  | .shr e k => (e.eval obj tmp).bind (·.shr k)
  | .shl e k => (e.eval obj tmp).bind (·.shl k)
  | .or a b => do return (← a.eval obj tmp).or (← b.eval obj tmp)
  | .mask e bits => (e.eval obj tmp).map (·.and ⟨C.uint64, BitVec.ofNat 64 bits⟩)
  | .cast t e => do return (← e.eval obj tmp).convert (← t.intType)
  | .asInt m => (obj m).map (·.convert C.int)
  | .bitsetWord _ _ => none

/-- A call of `p->item->write` or `p->item->writefd`. -/
structure WriteCall where
  writefd : Bool
  value : CExpr
  deriving DecidableEq, Repr

section Generators

variable (ceilLog : Nat → Nat)

/-- One piece of a word, moved to its place. -/
def marshallField (off : Nat) (e : ParamInfo) : CExpr :=
  let field := CExpr.var e.toMember
  let field := if e.shifted = 0 then field else .shr field e.shifted
  let field := if off = 0 then field else .shl field off
  if 64 < typeBitWidth ceilLog e.datatype then .bitsetWord field (typeBitWidth ceilLog e.datatype)
  else field

/-- The loop of `generate_marshall`, with the fields that are already there. -/
def marshallFields (off : Nat) (writefd : Bool) (word : List CExpr) :
    List ParamInfo → Option WriteCall
  | [] =>
    match word with
    | [] => none
    | field :: fields => some ⟨writefd, fields.foldl .or field⟩
  | e :: rest => do
      let cname ← typeCName e.datatype
      -- a float takes the whole word, whatever else is in it
      if cname = .float then return ⟨false, .asInt e.toMember⟩
      marshallFields (off + e.len) (writefd || cname = .sendingFd)
        (word ++ [marshallField ceilLog off e]) rest

def generateMarshall (w : List ParamInfo) : Option WriteCall := marshallFields ceilLog 0 false [] w

/-- Generated assignments. -/
inductive Assignment where
  | value (m : Member) (op : AssignOp) (e : CExpr)
  /-- `m = *(float*)&(tmp);` -/
  | pattern (m : Member)
  | messageFd (m : Member) (op : AssignOp)
  deriving DecidableEq, Repr

/-- One piece of a word, taken from its place. -/
def demarshallField (off : Nat) (cname : CName) (e : ParamInfo) : CExpr :=
  let field := if off = 0 then CExpr.tmp else .shr .tmp off
  let field := CExpr.mask field (1 <<< (typeBitWidth ceilLog e.datatype - e.shifted) - 1)
  if e.shifted = 0 then field else .shl (.cast cname field) e.shifted

def demarshallFields (off : Nat) : List ParamInfo → Option (List Assignment)
  | [] => some []
  | e :: rest => do
      let cname ← typeCName e.datatype
      if cname = .float then return .pattern e.toMember :: (← demarshallFields off rest)
      let statement :=
        if cname = .sendingFd then .messageFd e.toMember e.assignOp
        else .value e.toMember e.assignOp (.cast cname (demarshallField ceilLog off cname e))
      return statement :: (← demarshallFields (off + e.len) rest)

def generateDemarshall (w : List ParamInfo) : Option (List Assignment) :=
  demarshallFields ceilLog 0 w

/-- What is generated for one method: the calls of the proxy, the assignments of the
handler for each word that it reads, and the lengths in the texts. -/
structure MethodInfo where
  paramStructMarshall : List WriteCall
  paramStructDemarshall : List (List Assignment)
  wordLen : Nat
  wordLenP1 : Nat
  deriving DecidableEq, Repr

/-- The flattened parameters, the last one first. -/
def argAtoms (params : Params) : List Member := (params.collectMembers []).reverse

def argWords (params : Params) : List (List ParamInfo) :=
  accumWords ceilLog .empty 0 (argAtoms params)

def gatherMethodInfo (params : Params) : Option MethodInfo := do
  let argWords := argWords ceilLog params
  let wordLen := argWords.length
  if argWords = [] then
    return ⟨[⟨false, .lit 0⟩], [[]], wordLen, wordLen + 1⟩
  else
    let marshall ← argWords.mapM (generateMarshall ceilLog)
    let demarshall ← argWords.mapM (generateDemarshall ceilLog)
    return ⟨marshall.reverse, demarshall.reverse, wordLen, wordLen + 1⟩

/-- The type of a member as an object; a float is kept as its bit pattern. -/
def Member.objectType (m : Member) : Option C.IntType :=
  if m.datatype = .float then some C.uint32 else m.storage ceilLog

/-- An argument as a C object. -/
def argument (args : Args) (m : Member) : Option C.Value :=
  (m.objectType ceilLog).map fun t => ⟨t, BitVec.ofNat t.width (args m.name)⟩

/-- The word that a call of the proxy passes to the transport. -/
def WriteCall.run (args : Args) (call : WriteCall) : Option (BitVec 32) :=
  (call.value.eval (argument ceilLog args) 0#32).map C.Value.toWord

/-- The words that the proxy of a method writes, in the order of writing. -/
def proxyWords (params : Params) (args : Args) : Option (List (BitVec 32)) := do
  let info ← gatherMethodInfo ceilLog params
  info.paramStructMarshall.mapM (WriteCall.run ceilLog args)

/-- The parameters that a handler has assigned so far. -/
abbrev Vars := List String → Option C.Value

/-- One assignment after the word `tmp` was read. -/
def Assignment.run (messageFd tmp : BitVec 32) (vars : Vars) : Assignment → Option Vars
  | .value m op e => do
      let t ← m.storage ceilLog
      let v ← e.eval (fun m => vars m.name) tmp
      match op with
      | .assign => return Function.update vars m.name (some (v.convert t))
      | .orAssign =>
        let x ← vars m.name
        return Function.update vars m.name (some ((x.or v).convert t))
  | .pattern m => some (Function.update vars m.name (some (C.Value.ofWord tmp)))
  | .messageFd m op =>
    match op with
    | .assign => some (Function.update vars m.name (some ⟨C.int, messageFd⟩))
    | .orAssign => do
        let x ← vars m.name
        return Function.update vars m.name (some ((x.or ⟨C.int, messageFd⟩).convert C.int))

/-- Read one word for each group of assignments. -/
def runHandler (messageFd : BitVec 32) : List (List Assignment) → List (BitVec 32) → Vars →
    Option Vars
  | [], _, vars => some vars
  | _ :: _, [], _ => none
  | group :: rest, tmp :: words, vars => do
      let vars ← group.foldlM (Assignment.run ceilLog messageFd tmp) vars
      runHandler messageFd rest words vars

/-- The parameters with which the handler of a method calls back. -/
def handleMessage (params : Params) (messageFd : BitVec 32) (words : List (BitVec 32)) :
    Option Vars := do
  let info ← gatherMethodInfo ceilLog params
  runHandler ceilLog messageFd info.paramStructDemarshall words fun _ => none

end Generators

theorem mapM_eq_some {α β : Type*} {f : α → Option β} {l : List α} {bs : List β} :
    l.mapM f = some bs ↔ List.Forall₂ (fun a b => f a = some b) l bs := by
  induction l generalizing bs with
  | nil => simp [eq_comm]
  | cons a l ih =>
    simp only [List.mapM_cons, Option.bind_eq_bind, Option.bind_eq_some_iff, Option.pure_def,
      Option.some.injEq, ih, List.forall₂_cons_left_iff]
    constructor
    · rintro ⟨b, hb, bs, hbs, rfl⟩
      exact ⟨b, bs, hb, hbs, rfl⟩
    · rintro ⟨b, bs, hb, hbs, rfl⟩
      exact ⟨b, hb, bs, hbs, rfl⟩

theorem exists_forall₂ {α β : Type*} {R : α → β → Prop} {l : List α} (h : ∀ a ∈ l, ∃ b, R a b) :
    ∃ bs, List.Forall₂ R l bs := by
  induction l with
  | nil => exact ⟨[], .nil⟩
  | cons a l ih =>
    obtain ⟨b, hb⟩ := h a List.mem_cons_self
    obtain ⟨bs, hbs⟩ := ih (fun a' ha' => h a' (List.mem_cons_of_mem _ ha'))
    exact ⟨b :: bs, .cons hb hbs⟩

theorem exists_of_mem_right {α β : Type*} {R : α → β → Prop} {l : List α} {bs : List β}
    (h : List.Forall₂ R l bs) {b : β} (hb : b ∈ bs) : ∃ a ∈ l, R a b := by
  induction h with
  | nil => simp at hb
  | @cons a b' l bs hR h ih =>
    rcases List.mem_cons.mp hb with rfl | hb
    · exact ⟨a, List.mem_cons_self, hR⟩
    · obtain ⟨a', ha', hR'⟩ := ih hb
      exact ⟨a', List.mem_cons_of_mem _ ha', hR'⟩

end Connectal
